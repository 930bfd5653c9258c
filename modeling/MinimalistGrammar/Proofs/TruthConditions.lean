import Mathlib.Data.Set.Basic
import MinimalistGrammar.Proofs.Except
import MinimalistGrammar.Truth.Evaluation

/-! Truth conditions of formulas without an order of evaluation, over sets of entities and events. Evaluation
stops as soon as it knows its result and may pass over a part that is an error; whenever it has a result, that
is the one of the truth conditions. -/
namespace MinimalistGrammar

/-- What there is, what each predicate holds of, and who bears a role in an event. -/
structure World where
  entities : Set Name
  events : Set Name
  extension : Text → Set Name
  bearers : Text → Name → Set Name

abbrev Bindings := Int → Option Name

namespace Formula

/-- A quantifier relates what satisfies its restrictor to what satisfies its scope. -/
def Quantifies (kind : Text) (restrictor scope : Set Name) : Prop :=
  kind = existential ∧ (∃ x ∈ restrictor, x ∈ scope) ∨ kind = universal ∧ restrictor ⊆ scope

@[simp] theorem quantifies_existential {restrictor scope : Set Name} :
    Quantifies existential restrictor scope ↔ ∃ x ∈ restrictor, x ∈ scope := by
  simp [Quantifies, (by decide : existential ≠ universal)]

@[simp] theorem quantifies_universal {restrictor scope : Set Name} :
    Quantifies universal restrictor scope ↔ restrictor ⊆ scope := by
  simp [Quantifies, (by decide : universal ≠ existential)]

def HoldsOf (w : World) (g : Bindings) : Formula → Name → Prop
  | const name, d => d ∈ w.extension name ∨ d = .text name ∧ d ∈ w.entities
  | var index, d => ∃ e, g index = some e ∧ Name.equals e d
  | and left right, d => left.HoldsOf w g d ∧ right.HoldsOf w g d
  | close operand, d => operand.HoldsOf w g d
  | internal operand, d =>
    ∃ x ∈ w.entities, x ∈ w.bearers Model.internalRole d ∧ operand.HoldsOf w g x
  | external operand, d =>
    ∃ x ∈ w.entities, x ∈ w.bearers Model.externalRole d ∧ operand.HoldsOf w g x
  | _, _ => False

def IsTrue (w : World) : Formula → Bindings → Prop
  | and (and (quantifier kind) (indexed index restrictor)) body, g =>
    Quantifies kind { x ∈ w.entities | restrictor.HoldsOf w g x }
      { x | body.IsTrue w (Function.update g index (some x)) }
  | and left right, g => left.IsTrue w g ∧ right.IsTrue w g
  | close operand, g => ∃ e ∈ w.events, (close operand).HoldsOf w g e
  | internal operand, g => ∃ e ∈ w.events, (internal operand).HoldsOf w g e
  | external operand, g => ∃ e ∈ w.events, (external operand).HoldsOf w g e
  | _, _ => False

/-- The formula is false, which is more than not true: a conjunction is false if both of its sides are, and
predicates of individuals are neither. -/
def IsFalse (w : World) : Formula → Bindings → Prop
  | and (and (quantifier kind) (indexed index restrictor)) body, g =>
    ¬(and (and (quantifier kind) (indexed index restrictor)) body).IsTrue w g
  | and left right, g => left.IsFalse w g ∧ right.IsFalse w g
  | close operand, g => ¬(close operand).IsTrue w g
  | internal operand, g => ¬(internal operand).IsTrue w g
  | external operand, g => ¬(external operand).IsTrue w g
  | _, _ => False

def Has (w : World) (g : Bindings) (f : Formula) : Value → Prop
  | .truth true => f.IsTrue w g
  | .truth false => f.IsFalse w g
  | .individual d => f.HoldsOf w g d

theorem has_and {w : World} {g : Bindings} {left right : Formula}
    (h : ∀ kind restrictor, left ≠ and (quantifier kind) restrictor) (v : Value) :
    (and left right).Has w g v ↔ left.Has w g v ∧ right.Has w g v := by
  match v with
  | .truth true =>
    rw [Has, IsTrue]
    · rfl
    · rintro kind index restrictor rfl
      exact h _ _ rfl
  | .truth false =>
    rw [Has, IsFalse]
    · rfl
    · rintro kind index restrictor rfl
      exact h _ _ rfl
  | .individual d => rfl

end Formula

namespace Model

/-- If a test has a result, it tells whether the proposition holds. -/
def Decides {ε : Type} (p : Prop) (test : Except ε Bool) : Prop :=
  ∀ b, test = .ok b → (b = true ↔ p)

section Decides
variable {ε α : Type} {p q : Prop} {r s : Except ε Bool} {test : α → Except ε Bool} {P : α → Prop}
  {values : List α}

theorem decides_ok {b : Bool} (h : b = true ↔ p) : Decides p (.ok b : Except ε Bool) := by
  intro b' hb
  cases hb
  exact h

theorem decides_error (e : ε) : Decides p (.error e : Except ε Bool) := fun _ hb => nomatch hb

theorem Decides.congr (h : Decides p r) (hpq : p ↔ q) : Decides q r :=
  fun b hb => (h b hb).trans hpq

theorem Decides.not (h : Decides p r) : Decides (¬p) (r.map (!·)) := by
  cases r with
  | error e => exact decides_error e
  | ok b => exact decides_ok (by simp [← h b rfl])

theorem Decides.atTruth (h : Decides p r) (value : Bool) :
    Decides (if value then p else ¬p) (atTruth value r) := by
  cases value with
  | false => exact h.not
  | true => exact h

/-- The second test is not made if the first one tells enough. -/
theorem Decides.and (h : Decides p r) (h' : Decides q s) :
    Decides (p ∧ q) (do if ← r then s else .ok false) := by
  cases r with
  | error e => exact decides_error e
  | ok b =>
    have hp := h b rfl
    cases b with
    | false => exact decides_ok (by simp [← hp])
    | true => exact h'.congr (by simp [← hp])

theorem decides_exists? (h : ∀ a ∈ values, Decides (P a) (test a)) :
    Decides (∃ a ∈ values, P a) (exists? test values) := by
  induction values with
  | nil => exact decides_ok (by simp)
  | cons a rest ih =>
    obtain ⟨ha, hrest⟩ := List.forall_mem_cons.mp h
    rw [exists?]
    cases hr : test a with
    | error e => exact decides_error e
    | ok b =>
      have hP := ha b hr
      cases b with
      | false => exact (ih hrest).congr (by simp [← hP])
      | true => exact decides_ok (by simp [← hP])

theorem decides_forall? (h : ∀ a ∈ values, Decides (P a) (test a)) :
    Decides (∀ a ∈ values, P a) (forall? test values) := by
  induction values with
  | nil => exact decides_ok (by simp)
  | cons a rest ih =>
    obtain ⟨ha, hrest⟩ := List.forall_mem_cons.mp h
    rw [forall?]
    cases hr : test a with
    | error e => exact decides_error e
    | ok b =>
      have hP := ha b hr
      cases b with
      | false => exact decides_ok (by simp [← hP])
      | true => exact (ih hrest).congr (by simp [← hP])

theorem mem_iff_of_filter? (h : ∀ a ∈ values, Decides (P a) (test a)) {found : List α}
    (hfound : filter? test values = .ok found) (x : α) : x ∈ found ↔ x ∈ values ∧ P x := by
  induction values generalizing found with
  | nil =>
    cases hfound
    simp
  | cons a rest ih =>
    obtain ⟨ha, hrest⟩ := List.forall_mem_cons.mp h
    obtain ⟨b, hb, hfound⟩ := exists_of_bind_eq_ok hfound
    obtain ⟨others, hothers, hfound⟩ := exists_of_bind_eq_ok hfound
    have hP := ha b hb
    have hothers := ih hrest hothers
    cases hfound
    cases b with
    | false => grind
    | true => grind

end Decides

/-- The model without the order of its lists. -/
def world (m : Model) : World where
  entities := { x | x ∈ m.entities }
  events := { e | e ∈ m.events }
  extension name := { d | m.satisfies name d }
  bearers relation e := { x | m.related relation e x }

@[simp] theorem world_assign (m : Model) (index : Int) (e : Name) :
    (m.assign index e).world = m.world := rfl

theorem assignment?_assign_eq_update (m : Model) (index : Int) (e : Name) :
    (m.assign index e).assignment? = Function.update m.assignment? index (some e) := by
  funext j
  rw [assignment?_assign, Function.update_apply]
  simp only [eq_comm]

theorem isEntity_text {m : Model} {name : Text} :
    m.isEntity (.text name) ↔ .text name ∈ m.entities := by
  simp only [isEntity, List.any_eq_true, Name.same_comm (a := .text name), Name.same_text_iff,
    exists_eq_right]

theorem constantHolds_iff (m : Model) (name : Text) (v : Value) :
    m.constantHolds name v ↔ (Formula.const name).Has m.world m.assignment? v := by
  match v with
  | .truth true => exact ⟨fun h => (nomatch h), False.elim⟩
  | .truth false => exact ⟨fun h => (nomatch h), False.elim⟩
  | .individual d =>
    simp only [constantHolds, Formula.Has, Formula.HoldsOf, Bool.or_eq_true, Bool.and_eq_true,
      Name.same_text_iff]
    refine or_congr Iff.rfl (and_congr_right fun hd => ?_)
    rw [hd]
    exact isEntity_text

theorem decides_variableHolds (m : Model) (index : Int) (v : Value) :
    Decides ((Formula.var index).Has m.world m.assignment? v) (m.variableHolds index v) := by
  match v with
  | .truth value => exact decides_error _
  | .individual d =>
    simp only [variableHolds, Formula.Has, Formula.HoldsOf]
    cases m.assignment? index with
    | none => exact decides_error _
    | some e => exact decides_ok (by simp)

theorem decides_roleHolds {ε : Type} (m : Model) (relation : Text) {test : Name → Except ε Bool}
    {P : Name → Prop} (h : ∀ x, Decides (P x) (test x)) (event : Name) :
    Decides (∃ x ∈ m.world.entities, x ∈ m.world.bearers relation event ∧ P x)
      (m.roleHolds relation test event) := by
  refine decides_exists? fun x _ => ?_
  by_cases hr : m.related relation event x
  · rw [if_pos hr]
    exact (h x).congr ⟨fun hx => ⟨hr, hx⟩, fun hx => hx.2⟩
  · rw [if_neg hr]
    exact decides_ok ⟨fun hb => (nomatch hb), fun hx => absurd hx.1 hr⟩

theorem decides_quantify {kind : Text} {scope : Name → Except EvaluationError Bool}
    {satisfiers : List Name} {R S : Set Name} (hR : ∀ x, x ∈ satisfiers ↔ x ∈ R)
    (hS : ∀ x, Decides (x ∈ S) (scope x)) :
    Decides (Formula.Quantifies kind R S) (quantify kind scope satisfiers) := by
  unfold quantify
  split
  · rename_i hkind
    rw [hkind, Formula.quantifies_existential]
    exact (decides_exists? fun x _ => hS x).congr (by simp only [hR])
  · split
    · rename_i hkind
      rw [hkind, Formula.quantifies_universal]
      exact (decides_forall? fun x _ => hS x).congr (by simp only [hR, Set.subset_def])
    · exact decides_error _

/-- Evaluation decides the truth conditions, by induction along the evaluation. -/
theorem decides_hasValue (f : Formula) (m : Model) (v : Value) :
    Decides (f.Has m.world m.assignment? v) (hasValue f m v) := by
  fun_induction hasValue f m v with
  | case1 => exact decides_error _
  | case2 kind body m value index operand ih ihbody =>
    have htrue : Decides
        ((((Formula.quantifier kind).and (.indexed index operand)).and body).IsTrue m.world
          m.assignment?)
        (do
          let satisfiers ← filter? (fun e => hasValue operand m (.individual e)) m.entities
          quantify kind (fun e => hasValue body (m.assign index e) (.truth true)) satisfiers) := by
      intro b hb
      obtain ⟨satisfiers, hsatisfiers, hb⟩ := exists_of_bind_eq_ok hb
      have hR := mem_iff_of_filter? (fun e _ => ih e) hsatisfiers
      refine decides_quantify hR (fun x => ?_) b hb
      have hbody := ihbody x
      rw [world_assign, assignment?_assign_eq_update] at hbody
      exact hbody
    refine (htrue.atTruth value).congr ?_
    cases value <;> rfl
  | case3 => exact decides_error _
  | case4 name m v => exact decides_ok (m.constantHolds_iff name v)
  | case5 left right m v hprefix ihl ihr => exact (ihl.and ihr).congr (Formula.has_and hprefix v).symm
  | case6 operand m e ih => exact ih
  | case7 operand m value ih =>
    refine ((decides_exists? fun e _ => ih e).atTruth value).congr ?_
    cases value <;> rfl
  | case8 operand m e ih => exact m.decides_roleHolds _ ih e
  | case9 operand m value ih =>
    refine ((decides_exists? fun e _ => m.decides_roleHolds _ ih e).atTruth value).congr ?_
    cases value <;> rfl
  | case10 operand m e ih => exact m.decides_roleHolds _ ih e
  | case11 operand m value ih =>
    refine ((decides_exists? fun e _ => m.decides_roleHolds _ ih e).atTruth value).congr ?_
    cases value <;> rfl
  | case12 index m v => exact m.decides_variableHolds index v
  | case13 => exact decides_error _
  | case14 kind m v =>
    refine decides_ok ⟨fun h => (nomatch h), ?_⟩
    match v with
    | .truth true => exact False.elim
    | .truth false => exact False.elim
    | .individual d => exact False.elim
  | case15 => exact decides_error _

/-- Whenever evaluation has a result, it is the one of the truth conditions. -/
theorem has_iff_of_hasValue {f : Formula} {m : Model} {v : Value} {b : Bool}
    (h : hasValue f m v = .ok b) : b = true ↔ f.Has m.world m.assignment? v :=
  decides_hasValue f m v b h

/-- A quantifier over one girl, who runs. -/
theorem has_iff_of_hasValue_every_girl_runs :
    let m : Model :=
      { entities := [.text "bob", .text "carol"]
        events := [.text "running"]
        assignments := ∅
        predicates := .ofList [("girl", .ofList [.text "carol"]), ("run", .ofList [.text "running"])]
        relations := .ofList [("ext", .ofList [⟨.text "running", .text "carol"⟩])] }
    let f : Formula := .and (.and (.quantifier "every") (.indexed (-1) (.const "girl")))
      (.close (.and (.const "run") (.external (.var (-1)))))
    hasValue f m (.truth true) = .ok true ∧ f.Has m.world m.assignment? (.truth true) := by
  intro m f
  have h : hasValue f m (.truth true) = .ok true := rfl
  exact ⟨h, (has_iff_of_hasValue h).mp rfl⟩

end Model
end MinimalistGrammar
