import Mathlib.Data.Finset.Basic
import MinimalistGrammar.Proofs.TruthConditions

/-! Free indices. Evaluation asks the assignment of a model only for the indices that are free in a formula,
so that what a quantifier binds is known in its body and nowhere else. -/
namespace MinimalistGrammar
namespace Formula

/-- The indices of the variables that no quantifier binds. A quantifier binds its index in its body and not in
its restrictor. -/
def freeIndices : Formula → Finset Int
  | and (and (quantifier _) (indexed index restrictor)) body =>
    restrictor.freeIndices ∪ body.freeIndices.erase index
  | and left right => left.freeIndices ∪ right.freeIndices
  | var index => {index}
  | internal operand => operand.freeIndices
  | indexed _ operand => operand.freeIndices
  | external operand => operand.freeIndices
  | close operand => operand.freeIndices
  | const _ => ∅
  | quantifier _ => ∅
  | foreign _ => ∅

end Formula

namespace Model

structure AgreesOn (indices : Finset Int) (m m' : Model) : Prop where
  entities_eq : m.entities = m'.entities
  events_eq : m.events = m'.events
  predicates_eq : m.predicates = m'.predicates
  relations_eq : m.relations = m'.relations
  assignment_eq : ∀ index ∈ indices, m.assignment? index = m'.assignment? index

namespace AgreesOn
variable {indices indices' : Finset Int} {m m' : Model}

theorem mono (h : AgreesOn indices m m') (hsub : indices' ⊆ indices) : AgreesOn indices' m m' :=
  { h with assignment_eq := fun index hindex => h.assignment_eq index (hsub hindex) }

/-- Models that are bound alike agree on the bound index, whatever they assigned to it before. -/
theorem assign {index : Int} (h : AgreesOn (indices.erase index) m m') (e : Name) :
    AgreesOn indices (m.assign index e) (m'.assign index e) := by
  refine { h with assignment_eq := fun j hj => ?_ }
  rw [assignment?_assign, assignment?_assign]
  split
  · rfl
  · rename_i hne
    exact h.assignment_eq j (Finset.mem_erase.mpr ⟨Ne.symm hne, hj⟩)

theorem constantHolds_eq (h : AgreesOn indices m m') (name : Text) (v : Value) :
    m.constantHolds name v = m'.constantHolds name v := by
  cases v with
  | truth value => rfl
  | individual d => simp only [constantHolds, satisfies, isEntity, h.predicates_eq, h.entities_eq]

theorem variableHolds_eq {index : Int} (h : AgreesOn {index} m m') (v : Value) :
    m.variableHolds index v = m'.variableHolds index v := by
  cases v with
  | truth value => rfl
  | individual d =>
    simp only [variableHolds, h.assignment_eq index (Finset.mem_singleton_self index)]

theorem related_eq (h : AgreesOn indices m m') : m.related = m'.related := by
  unfold related
  rw [h.relations_eq]

theorem roleHolds_eq {ε : Type} (h : AgreesOn indices m m') (relation : Text)
    {test test' : Name → Except ε Bool} (htest : ∀ x, test x = test' x) :
    m.roleHolds relation test = m'.roleHolds relation test' := by
  unfold roleHolds
  rw [h.related_eq, h.entities_eq, funext htest]

end AgreesOn

/-- Evaluation is the same in both models, by induction along the evaluation in one of them. -/
theorem AgreesOn.hasValue_eq {f : Formula} {m m' : Model} (h : AgreesOn f.freeIndices m m') (v : Value) :
    hasValue f m v = hasValue f m' v := by
  fun_induction hasValue f m v generalizing m' with
  | case1 body m kind restrictor name => rw [hasValue]
  | case2 kind body m value index operand ih ihbody =>
    rw [Formula.freeIndices] at h
    have hoperand (e : Name) := ih e (h.mono Finset.subset_union_left)
    have hbody (e : Name) := ihbody e ((h.mono Finset.subset_union_right).assign e)
    simp only [hasValue, hoperand, hbody, h.entities_eq]
  | case3 kind body m value restrictor hindexed =>
    rw [hasValue]
    exact hindexed
  | case4 name m v => rw [hasValue, h.constantHolds_eq]
  | case5 left right m v hleft ihl ihr =>
    have hfree : (Formula.and left right).freeIndices = left.freeIndices ∪ right.freeIndices := by
      rw [Formula.freeIndices]
      rintro kind index restrictor rfl
      exact hleft _ _ rfl
    rw [hfree] at h
    rw [hasValue_and hleft, ihl (h.mono Finset.subset_union_left), ihr (h.mono Finset.subset_union_right)]
  | case6 operand m e ih => exact ih h
  | case7 operand m value ih =>
    have hoperand (e : Name) := ih e h
    simp only [hasValue, hoperand, h.events_eq]
  | case8 operand m e ih => exact congrFun (h.roleHolds_eq _ fun x => ih x h) e
  | case9 operand m value ih =>
    have hrole := h.roleHolds_eq internalRole fun x => ih x h
    simp only [hasValue, hrole, h.events_eq]
  | case10 operand m e ih => exact congrFun (h.roleHolds_eq _ fun x => ih x h) e
  | case11 operand m value ih =>
    have hrole := h.roleHolds_eq externalRole fun x => ih x h
    simp only [hasValue, hrole, h.events_eq]
  | case12 index m v => exact h.variableHolds_eq v
  | case13 => rfl
  | case14 kind m v => rfl
  | case15 => rfl

/-- No binding is seen but those of free indices: in models of the same facts whose assignments agree on them,
evaluation has the same result, or fails with the same error. -/
theorem hasValue_congr {f : Formula} {m m' : Model} (hentities : m.entities = m'.entities)
    (hevents : m.events = m'.events) (hpredicates : m.predicates = m'.predicates)
    (hrelations : m.relations = m'.relations)
    (hassignment : ∀ index ∈ f.freeIndices, m.assignment? index = m'.assignment? index) (v : Value) :
    hasValue f m v = hasValue f m' v :=
  AgreesOn.hasValue_eq ⟨hentities, hevents, hpredicates, hrelations, hassignment⟩ v

/-- The models differ on an index that is bound in the body and free in neither part, and agree on a pronoun. -/
theorem hasValue_congr_shadowed_index :
    let m : Model :=
      { entities := [.text "bob", .text "carol"]
        events := [.text "chasing"]
        assignments := .ofList [(1, .text "bob"), (2, .text "bob")]
        predicates := .ofList [("girl", .ofList [.text "carol"])]
        relations := .ofList [("int", .ofList [⟨.text "chasing", .text "bob"⟩]),
          ("ext", .ofList [⟨.text "chasing", .text "carol"⟩])] }
    let m' := m.assign 1 (.text "carol")
    let f : Formula := .and (.and (.quantifier "every") (.indexed 1 (.const "girl")))
      (.close (.and (.internal (.var 2)) (.external (.var 1))))
    m.assignment? 1 ≠ m'.assignment? 1 ∧
      (∀ index ∈ f.freeIndices, m.assignment? index = m'.assignment? index) ∧
      hasValue f m (.truth true) = hasValue f m' (.truth true) := by
  intro m m' f
  have hfree : ∀ index ∈ f.freeIndices, m.assignment? index = m'.assignment? index := by decide
  have hentities : m.entities = m'.entities := rfl
  have hevents : m.events = m'.events := rfl
  have hpredicates : m.predicates = m'.predicates := rfl
  have hrelations : m.relations = m'.relations := rfl
  exact ⟨by decide, hfree,
    hasValue_congr hentities hevents hpredicates hrelations hfree (.truth true)⟩

end Model
end MinimalistGrammar
