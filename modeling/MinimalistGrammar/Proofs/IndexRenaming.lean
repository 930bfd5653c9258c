import MinimalistGrammar.Proofs.Binding
import MinimalistGrammar.Proofs.Except
import MinimalistGrammar.Proofs.Renaming
import MinimalistGrammar.Proofs.Sets

/-! Evaluation of formulas with other indices. Evaluation compares indices with each other and with those that a model
assigns, so that a formula and a model whose indices are renamed alike give the same truth value, or the same error
but for the indices that it names. -/
namespace MinimalistGrammar

def EvaluationError.mapIndices (ρ : Int → Int) : EvaluationError → EvaluationError
  | indexedRole role => indexedRole (role.mapIndices ρ)
  | quantifiedIndividual name => quantifiedIndividual name
  | restrictor kind found => restrictor kind (found.mapIndices ρ)
  | unknownQuantifier kind => unknownQuantifier kind
  | variableTruth index => variableTruth (ρ index)
  | unboundVariable index => unboundVariable (ρ index)
  | notAFormula => notAFormula

@[simp] theorem EvaluationError.isSome_message?_mapIndices (ρ : Int → Int) (e : EvaluationError) :
    (e.mapIndices ρ).message?.isSome = e.message?.isSome := by
  cases e <;> rfl

namespace Model

section Errors
variable {ε ε' α : Type} (made : ε → ε')

theorem exists?_mapError (test : α → Except ε Bool) (values : List α) :
    exists? (fun a => (test a).mapError made) values = (exists? test values).mapError made := by
  induction values with
  | nil => rfl
  | cons a rest ih =>
    rw [exists?, exists?, mapError_bind, ih]
    congr 1
    funext holds
    cases holds <;> rfl

theorem forall?_mapError (test : α → Except ε Bool) (values : List α) :
    forall? (fun a => (test a).mapError made) values = (forall? test values).mapError made := by
  induction values with
  | nil => rfl
  | cons a rest ih =>
    rw [forall?, forall?, mapError_bind, ih]
    congr 1
    funext holds
    cases holds <;> rfl

theorem filter?_mapError (test : α → Except ε Bool) (values : List α) :
    filter? (fun a => (test a).mapError made) values = (filter? test values).mapError made := by
  induction values with
  | nil => rfl
  | cons a rest ih =>
    rw [filter?, filter?, mapError_bind, ih]
    congr 1
    funext holds
    rw [mapError_bind]
    rfl

theorem atTruth_mapError (value : Bool) (r : Except ε Bool) :
    atTruth value (r.mapError made) = (atTruth value r).mapError made := by
  cases value <;> cases r <;> rfl

theorem roleHolds_mapError (m : Model) (relation : Text) (test : Name → Except ε Bool) :
    m.roleHolds relation (fun x => (test x).mapError made) =
      fun event => (m.roleHolds relation test event).mapError made := by
  funext event
  rw [roleHolds, roleHolds, ← exists?_mapError]
  congr 1
  funext bearer
  split <;> rfl

end Errors

structure Renames (ρ : Int → Int) (m m' : Model) : Prop extends AgreesOn ∅ m m' where
  assignment?_map : ∀ index, m'.assignment? (ρ index) = m.assignment? index

namespace Renames
variable {ρ : Int → Int} {m m' : Model}

theorem assign (hρ : Function.Injective ρ) (h : m.Renames ρ m') (index : Int) (e : Name) :
    (m.assign index e).Renames ρ (m'.assign (ρ index) e) where
  entities_eq := h.entities_eq
  events_eq := h.events_eq
  predicates_eq := h.predicates_eq
  relations_eq := h.relations_eq
  assignment_eq := fun _ hindex => absurd hindex (Finset.notMem_empty _)
  assignment?_map := fun j => by
    simp only [assignment?_assign, hρ.eq_iff, h.assignment?_map]

theorem roleHolds_eq (h : m.Renames ρ m') {ε ε' : Type} {made : ε → ε'} (relation : Text)
    {test : Name → Except ε Bool} {test' : Name → Except ε' Bool} (htest : ∀ x, test' x = (test x).mapError made) :
    m'.roleHolds relation test' = fun event => (m.roleHolds relation test event).mapError made := by
  rw [← roleHolds_mapError]
  exact (h.toAgreesOn.roleHolds_eq relation fun x => (htest x).symm).symm

theorem variableHolds_eq (h : m.Renames ρ m') (index : Int) (v : Value) :
    m'.variableHolds (ρ index) v = (m.variableHolds index v).mapError (EvaluationError.mapIndices ρ) := by
  cases v with
  | truth value => rfl
  | individual d =>
    unfold variableHolds
    dsimp only
    rw [h.assignment?_map]
    split <;> rfl

end Renames

def mapIndices (ρ : Int → Int) (m : Model) : Model :=
  { m with assignments := .ofList (m.assignments.entries.map fun e => (ρ e.1, e.2)) }

theorem renames_mapIndices {ρ : Int → Int} (hρ : Function.Injective ρ) (m : Model) : m.Renames ρ (m.mapIndices ρ) where
  entities_eq := rfl
  events_eq := rfl
  predicates_eq := rfl
  relations_eq := rfl
  assignment_eq := fun _ hindex => absurd hindex (Finset.notMem_empty _)
  assignment?_map := fun index => by
    unfold assignment? mapIndices
    dsimp only
    rw [SortedMap.find?_ofList_map hρ, SortedMap.ofList_entries]

theorem quantify_mapError (ρ : Int → Int) (kind : Text) (scope : Name → Except EvaluationError Bool)
    (satisfiers : List Name) : quantify kind (fun e => (scope e).mapError (EvaluationError.mapIndices ρ)) satisfiers =
      (quantify kind scope satisfiers).mapError (EvaluationError.mapIndices ρ) := by
  unfold quantify
  rw [exists?_mapError, forall?_mapError]
  split
  · rfl
  · split <;> rfl

/-- Only a quantifier over an indexed role becomes one. -/
theorem mapIndices_ne_and_quantifier {left : Formula}
    (h : ∀ kind restrictor, left ≠ .and (.quantifier kind) restrictor) (ρ : Int → Int) (kind : Text)
    (restrictor : Formula) : left.mapIndices ρ ≠ .and (.quantifier kind) restrictor := by
  intro heq
  cases left with
  | and first second =>
    obtain ⟨hfirst, -⟩ := Formula.and.inj heq
    cases first with
    | quantifier kind' => exact h kind' second rfl
    | _ => cases hfirst
  | _ => cases heq

/-- Renamed alike, a formula and a model give what they gave, by induction along the evaluation. -/
theorem hasValue_mapIndices {ρ : Int → Int} (hρ : Function.Injective ρ) {f : Formula} {m m' : Model}
    (h : m.Renames ρ m') (v : Value) :
    hasValue (f.mapIndices ρ) m' v = (hasValue f m v).mapError (EvaluationError.mapIndices ρ) := by
  fun_induction hasValue f m v generalizing m' with
  | case1 body m kind restrictor name => simp only [Formula.mapIndices, hasValue]; rfl
  | case2 kind body m value index operand ih ihbody =>
    have hoperand (e : Name) := ih e h
    have hbody (e : Name) := ihbody e (h.assign hρ index e)
    simp only [Formula.mapIndices, hasValue, hoperand, hbody, ← h.entities_eq, filter?_mapError, quantify_mapError,
      ← mapError_bind, atTruth_mapError]
  | case3 kind body m value restrictor hindexed =>
    cases restrictor with
    | indexed index operand => exact absurd rfl (hindexed index operand)
    | _ => simp only [Formula.mapIndices, hasValue]; rfl
  | case4 name m v =>
    rw [Formula.mapIndices, hasValue, h.constantHolds_eq]
    rfl
  | case5 left right m v hleft ihl ihr =>
    have hne (kind : Text) (restrictor : Formula) : left ≠ .and (.quantifier kind) restrictor :=
      fun heq => hleft kind restrictor heq
    rw [Formula.mapIndices, hasValue_and (mapIndices_ne_and_quantifier hne ρ), ihl h, ihr h, mapError_bind]
    congr 1
    funext holds
    cases holds <;> rfl
  | case6 operand m e ih => exact ih h
  | case7 operand m value ih =>
    have hoperand (e : Name) := ih e h
    simp only [Formula.mapIndices, hasValue, hoperand, ← h.events_eq, exists?_mapError, atTruth_mapError]
  | case8 operand m e ih =>
    have hrole := h.roleHolds_eq internalRole fun x => ih x h
    simp only [Formula.mapIndices, hasValue, hrole]
  | case9 operand m value ih =>
    have hrole := h.roleHolds_eq internalRole fun x => ih x h
    simp only [Formula.mapIndices, hasValue, hrole, ← h.events_eq, exists?_mapError, atTruth_mapError]
  | case10 operand m e ih =>
    have hrole := h.roleHolds_eq externalRole fun x => ih x h
    simp only [Formula.mapIndices, hasValue, hrole]
  | case11 operand m value ih =>
    have hrole := h.roleHolds_eq externalRole fun x => ih x h
    simp only [Formula.mapIndices, hasValue, hrole, ← h.events_eq, exists?_mapError, atTruth_mapError]
  | case12 index m v => exact h.variableHolds_eq index v
  | case13 => rfl
  | case14 kind m v => rfl
  | case15 => rfl

/-- It does not matter what indices are called. With other indices in a formula and in the assignment of a model,
different ones for different ones, the formula has the truth value that it had, or gives the error that it gave but for
the indices in it. -/
theorem hasValue_mapIndices_mapIndices {ρ : Int → Int} (hρ : Function.Injective ρ) (f : Formula) (m : Model)
    (v : Value) :
    hasValue (f.mapIndices ρ) (m.mapIndices ρ) v = (hasValue f m v).mapError (EvaluationError.mapIndices ρ) :=
  hasValue_mapIndices hρ (m.renames_mapIndices hρ) v

/-- The order of indices is turned around, and the one that is bound is also assigned by the model. -/
theorem hasValue_mapIndices_mapIndices_reversed :
    let ρ : Int → Int := fun index => 3 - 2 * index
    let m : Model :=
      { entities := [.text "bob", .text "carol"]
        events := [.text "chasing"]
        assignments := .ofList [(-1, .text "bob"), (1, .text "bob")]
        predicates := .ofList [("girl", .ofList [.text "carol"])]
        relations := .ofList [("int", .ofList [⟨.text "chasing", .text "bob"⟩]),
          ("ext", .ofList [⟨.text "chasing", .text "carol"⟩])] }
    let f : Formula := .and (.and (.quantifier "every") (.indexed (-1) (.const "girl")))
      (.close (.and (.internal (.var 1)) (.external (.var (-1)))))
    Function.Injective ρ ∧ hasValue f m (.truth true) = .ok true ∧
      (m.mapIndices ρ).assignments.keys = [1, 5] ∧
      hasValue (f.mapIndices ρ) (m.mapIndices ρ) (.truth true) = .ok true := by
  intro ρ m f
  have hρ : Function.Injective ρ := fun i j (hij : 3 - 2 * i = 3 - 2 * j) => by omega
  have hf : hasValue f m (.truth true) = .ok true := rfl
  refine ⟨hρ, hf, by decide, ?_⟩
  rw [hasValue_mapIndices_mapIndices hρ, hf]
  rfl

end Model
end MinimalistGrammar
