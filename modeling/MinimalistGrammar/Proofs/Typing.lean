import Mathlib.Data.Set.Insert
import MinimalistGrammar.Truth.Evaluation

/-! Formulas by what they are evaluated at. A formula may be a predicate of individuals or a sentence, and
under a model that assigns something to its indices it then has a value there and is no error: evaluation of
what fits together goes through, whatever it comes to and whatever it passes over. -/
namespace MinimalistGrammar
namespace Formula

inductive IsPredicate (indices : Set Int) : Formula → Prop where
  | const (name : Text) : IsPredicate indices (const name)
  | quantifier (kind : Text) : IsPredicate indices (quantifier kind)
  | var {index : Int} (hindex : index ∈ indices) : IsPredicate indices (var index)
  | close {operand : Formula} (h : IsPredicate indices operand) : IsPredicate indices (close operand)
  | internal {operand : Formula} (h : IsPredicate indices operand) :
      IsPredicate indices (internal operand)
  | external {operand : Formula} (h : IsPredicate indices operand) :
      IsPredicate indices (external operand)
  | and {left right : Formula} (hleft : ∀ kind restrictor, left ≠ and (quantifier kind) restrictor)
      (hl : IsPredicate indices left) (hr : IsPredicate indices right) :
      IsPredicate indices (and left right)

/-- The formula fits at a truth value if the indices are bound. A quantifier binds one more in its body. -/
inductive IsSentence : Set Int → Formula → Prop where
  | const {indices : Set Int} (name : Text) : IsSentence indices (const name)
  | quantifier {indices : Set Int} (kind : Text) : IsSentence indices (quantifier kind)
  | close {indices : Set Int} {operand : Formula} (h : IsPredicate indices operand) :
      IsSentence indices (close operand)
  | internal {indices : Set Int} {operand : Formula} (h : IsPredicate indices operand) :
      IsSentence indices (internal operand)
  | external {indices : Set Int} {operand : Formula} (h : IsPredicate indices operand) :
      IsSentence indices (external operand)
  | and {indices : Set Int} {left right : Formula}
      (hleft : ∀ kind restrictor, left ≠ and (quantifier kind) restrictor)
      (hl : IsSentence indices left) (hr : IsSentence indices right) : IsSentence indices (and left right)
  | quantified {indices : Set Int} {kind : Text} {index : Int} {restrictor body : Formula}
      (hkind : kind = existential ∨ kind = universal) (hr : IsPredicate indices restrictor)
      (hbody : IsSentence (insert index indices) body) :
      IsSentence indices (and (and (quantifier kind) (indexed index restrictor)) body)

end Formula

namespace Model

def Succeeds {ε α : Type} (r : Except ε α) : Prop := ∃ a, r = .ok a

section Succeeds
variable {ε α β : Type} {r s : Except ε Bool} {test : α → Except ε Bool} {values : List α}

theorem succeeds_ok (a : α) : Succeeds (.ok a : Except ε α) := ⟨a, rfl⟩

theorem Succeeds.bind {x : Except ε α} {next : α → Except ε β} (h : Succeeds x)
    (hnext : ∀ a, Succeeds (next a)) : Succeeds (x >>= next) := by
  obtain ⟨a, rfl⟩ := h
  exact hnext a

theorem Succeeds.ite (h : Succeeds r) (h' : Succeeds s) (b : Bool) :
    Succeeds (if b then r else s) := by
  cases b with
  | false => exact h'
  | true => exact h

theorem Succeeds.atTruth (h : Succeeds r) (value : Bool) : Succeeds (atTruth value r) := by
  obtain ⟨b, rfl⟩ := h
  exact Succeeds.ite (succeeds_ok b) (succeeds_ok (!b)) value

theorem Succeeds.and (h : Succeeds r) (h' : Succeeds s) :
    Succeeds (do if ← r then s else .ok false) :=
  h.bind (h'.ite (succeeds_ok false))

theorem succeeds_exists? (h : ∀ a, Succeeds (test a)) : Succeeds (exists? test values) := by
  induction values with
  | nil => exact succeeds_ok false
  | cons a rest ih => exact (h a).bind ((succeeds_ok true).ite ih)

theorem succeeds_forall? (h : ∀ a, Succeeds (test a)) : Succeeds (forall? test values) := by
  induction values with
  | nil => exact succeeds_ok true
  | cons a rest ih => exact (h a).bind (ih.ite (succeeds_ok false))

theorem succeeds_filter? (h : ∀ a, Succeeds (test a)) : Succeeds (filter? test values) := by
  induction values with
  | nil => exact succeeds_ok []
  | cons a rest ih => exact (h a).bind fun _ => ih.bind fun _ => succeeds_ok _

theorem succeeds_roleHolds (m : Model) (relation : Text) {test : Name → Except ε Bool}
    (h : ∀ x, Succeeds (test x)) (event : Name) : Succeeds (m.roleHolds relation test event) :=
  succeeds_exists? fun x => (h x).ite (succeeds_ok false) (m.related relation event x)

theorem succeeds_quantify {kind : Text} (hkind : kind = Formula.existential ∨ kind = Formula.universal)
    {scope : Name → Except EvaluationError Bool} (h : ∀ x, Succeeds (scope x)) (satisfiers : List Name) :
    Succeeds (quantify kind scope satisfiers) := by
  unfold quantify
  split
  · exact succeeds_exists? h
  · rename_i hexistential
    rw [if_pos (hkind.resolve_left hexistential)]
    exact succeeds_forall? h

end Succeeds

def Covers (m : Model) (indices : Set Int) : Prop := ∀ index ∈ indices, (m.assignment? index).isSome

theorem Covers.assign {m : Model} {indices : Set Int} (h : m.Covers indices) (index : Int) (e : Name) :
    (m.assign index e).Covers (insert index indices) := by
  intro j hj
  rw [assignment?_assign]
  split
  · rfl
  · rename_i hne
    exact h j (hj.resolve_left (Ne.symm hne))

theorem succeeds_of_isPredicate {m : Model} {indices : Set Int} (hm : m.Covers indices) {f : Formula}
    (h : f.IsPredicate indices) (d : Name) : Succeeds (hasValue f m (.individual d)) := by
  induction h generalizing d with
  | const name => exact succeeds_ok _
  | quantifier kind => exact succeeds_ok _
  | @var index hindex =>
    obtain ⟨entity, hentity⟩ := Option.isSome_iff_exists.mp (hm index hindex)
    rw [hasValue, variableHolds, hentity]
    exact succeeds_ok _
  | close _ ih => exact ih d
  | internal _ ih => exact m.succeeds_roleHolds internalRole ih d
  | external _ ih => exact m.succeeds_roleHolds externalRole ih d
  | and hleft _ _ ihl ihr =>
    rw [hasValue_and hleft]
    exact (ihl d).and (ihr d)

theorem succeeds_of_isSentence {m : Model} {indices : Set Int} (hm : m.Covers indices) {f : Formula}
    (h : f.IsSentence indices) (value : Bool) : Succeeds (hasValue f m (.truth value)) := by
  induction h generalizing m value with
  | const name => exact succeeds_ok _
  | quantifier kind => exact succeeds_ok _
  | close h => exact (succeeds_exists? (succeeds_of_isPredicate hm h)).atTruth value
  | internal h =>
    have hrole := m.succeeds_roleHolds internalRole (succeeds_of_isPredicate hm h)
    exact (succeeds_exists? hrole).atTruth value
  | external h =>
    have hrole := m.succeeds_roleHolds externalRole (succeeds_of_isPredicate hm h)
    exact (succeeds_exists? hrole).atTruth value
  | and hleft _ _ ihl ihr =>
    rw [hasValue_and hleft]
    exact (ihl hm value).and (ihr hm value)
  | @quantified indices kind index restrictor body hkind hr _ ih =>
    -- the body is evaluated once for each satisfier, with the index bound to it
    have hscope (e : Name) : Succeeds (hasValue body (m.assign index e) (.truth true)) :=
      ih (hm.assign index e) true
    have hsatisfiers :
        Succeeds (filter? (fun e => hasValue restrictor m (.individual e)) m.entities) :=
      succeeds_filter? (succeeds_of_isPredicate hm hr)
    exact (hsatisfiers.bind (succeeds_quantify hkind hscope)).atTruth value

/-- Evaluation never fails on what fits together: a sentence has a result at each truth value and a predicate
has one at every individual, in every model that assigns something to the indices. -/
theorem hasValue_eq_ok {m : Model} {indices : Set Int} (hm : m.Covers indices) (f : Formula) :
    (f.IsSentence indices → ∀ value, ∃ b, hasValue f m (.truth value) = .ok b) ∧
      (f.IsPredicate indices → ∀ d, ∃ b, hasValue f m (.individual d) = .ok b) :=
  ⟨succeeds_of_isSentence hm, succeeds_of_isPredicate hm⟩

/-- A quantifier whose body speaks of what it binds and of a pronoun. The clause in the body is a predicate of
events only if the index of the quantifier is bound. -/
theorem hasValue_eq_ok_every_girl_chases_him :
    let m : Model :=
      { entities := [.text "bob", .text "carol"]
        events := [.text "chasing"]
        assignments := .ofList [(1, .text "bob")]
        predicates := .ofList [("girl", .ofList [.text "carol"])]
        relations := ∅ }
    let clause : Formula := .and (.internal (.var 1)) (.external (.var (-1)))
    let f : Formula :=
      .and (.and (.quantifier "every") (.indexed (-1) (.const "girl"))) (.close clause)
    let bound := m.assign (-1) (.text "carol")
    m.Covers {1} ∧ f.IsSentence {1} ∧ (∀ value, ∃ b, hasValue f m (.truth value) = .ok b) ∧
      bound.Covers {-1, 1} ∧ clause.IsPredicate {-1, 1} ∧
        ∀ d, ∃ b, hasValue clause bound (.individual d) = .ok b := by
  intro m clause f bound
  have hm : m.Covers {1} := by
    rintro index rfl
    rfl
  have hclause : clause.IsPredicate {-1, 1} := by
    refine .and (fun _ _ h => nomatch h) ?_ ?_
    · exact .internal (.var (by simp))
    · exact .external (.var (by simp))
  have hf : f.IsSentence {1} := .quantified (.inr rfl) (.const _) (.close hclause)
  have hbound : bound.Covers {-1, 1} := hm.assign (-1) _
  exact ⟨hm, hf, (hasValue_eq_ok hm f).1 hf, hbound, hclause, (hasValue_eq_ok hbound clause).2 hclause⟩

end Model
end MinimalistGrammar
