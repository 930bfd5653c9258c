import Mathlib.Data.List.Pairwise
import MinimalistGrammar.Proofs.Combination
import MinimalistGrammar.Proofs.Operation

/-! Which operators on one expression exclude each other. Merging needs an outer licensor, and a child is merged for
the last time or to move on and never both. Spelling out is for licensees, but a head with two arguments is spelled out
whatever feature comes first, so that one that selects a third argument can be spelled out as well as merged. -/
namespace MinimalistGrammar

/-- Where no two of several tries succeed, the first that does is found in any order. -/
theorem findSome?_eq_of_perm {α β : Type} {f : α → Option β} {s t : List α} (hperm : s.Perm t)
    (hunique : ∀ a ∈ s, ∀ b ∈ s, (f a).isSome → (f b).isSome → a = b) : s.findSome? f = t.findSome? f := by
  induction hperm with
  | nil => rfl
  | cons a _ ih =>
    rw [List.findSome?_cons, List.findSome?_cons, ih fun b hb c hc =>
      hunique b (List.mem_cons_of_mem a hb) c (List.mem_cons_of_mem a hc)]
  | swap a b s =>
    simp only [List.findSome?_cons]
    cases ha : f a with
    | none => rfl
    | some made =>
      cases hb : f b with
      | none => rfl
      | some other =>
        have heq : a = b := hunique a (by simp) b (by simp) (by simp [ha]) (by simp [hb])
        rw [heq, hb] at ha
        rw [ha]
  | trans hperm _ ih ih' =>
    exact (ih hunique).trans
      (ih' fun a ha b hb => hunique a (hperm.mem_iff.mpr ha) b (hperm.mem_iff.mpr hb))

namespace Expression
variable {e : Expression}

def selectsThird (e : Expression) : Bool := e.outerIs .licensor && e.arguments.length = 2

theorem isSome_spellOut?_iff (categories : PhraseCategories) (index : Int) (e : Expression) :
    (e.spellOut? categories index).isSome ↔
      e.arguments.length = 2 ∨ e.arguments.length = 1 ∧ e.outerIs .licensee := by
  rw [outerIs_iff]
  unfold spellOut?
  match ha : e.arguments, hc : e.outerCategory? .licensee with
  | [], _ => simp
  | [_], none => simp
  | [_], some category => simp
  | [_, _], category? => simp
  | _ :: _ :: _ :: _, _ => simp

theorem not_outerIs_licensee (h : e.outerIs .licensor) : ¬e.outerIs .licensee := by
  intro h'
  obtain ⟨category, hc⟩ := outerIs_iff.mp h
  obtain ⟨category', hc'⟩ := outerIs_iff.mp h'
  exact nomatch (eq_of_outerCategory? hc hc').1

theorem isSome_spellOut?_of_licensor (h : e.outerIs .licensor) (categories : PhraseCategories) (index : Int) :
    (e.spellOut? categories index).isSome ↔ e.arguments.length = 2 := by
  rw [isSome_spellOut?_iff]
  exact or_iff_left fun hone => not_outerIs_licensee h hone.2

theorem outerIs_of_features {kind : FeatureKind} {category : Text} {features : List Feature}
    (hf : e.features = ⟨kind, category⟩ :: features) : e.outerIs kind :=
  outerIs_iff.mpr ⟨category, outerCategory?_eq_some_iff.mpr ⟨features, hf⟩⟩

theorem outerIs_licensor_of_mergeFinal? {token? : Option Text} (h : (e.mergeFinal? token?).isSome) :
    e.outerIs .licensor := by
  obtain ⟨result, hr⟩ := Option.isSome_iff_exists.mp h
  obtain ⟨category, features, child, hf, -⟩ := mergeFinal?_eq_some_iff.mp hr
  exact outerIs_of_features hf

theorem outerIs_licensor_of_mergeMover? (h : e.mergeMover?.isSome) : e.outerIs .licensor := by
  obtain ⟨result, hr⟩ := Option.isSome_iff_exists.mp h
  obtain ⟨category, features, child, meaning, hf, -⟩ := mergeMover?_eq_some_iff.mp hr
  exact outerIs_of_features hf

/-- The only child with the licensee has more features or has none; a child that has none is among those with the
licensee. -/
theorem mergeMover?_eq_none_of_mergeFinal? {token? : Option Text} (h : (e.mergeFinal? token?).isSome) :
    e.mergeMover? = none := by
  obtain ⟨result, hr⟩ := Option.isSome_iff_exists.mp h
  obtain ⟨category, features, child, hf, hchild, -⟩ := mergeFinal?_eq_some_iff.mp hr
  by_contra hsome
  obtain ⟨result', hr'⟩ := Option.ne_none_iff_exists'.mp hsome
  obtain ⟨category', features', mover, meaning, hf', hmover, hlength, -⟩ := mergeMover?_eq_some_iff.mp hr'
  obtain ⟨hcategory, -⟩ := List.cons.inj (hf.symm.trans hf')
  cases hcategory
  obtain ⟨hmem, hfinal⟩ := List.mem_filter.mp (hchild ▸ List.mem_singleton_self child)
  have hfeatures : child.features = [⟨.licensee, category⟩] := of_decide_eq_true hfinal
  have houter : child.outerIsOf .licensee category := by simp [outerIsOf, outer?, hfeatures]
  have heq : child = mover := List.mem_singleton.mp (hmover ▸ List.mem_filter.mpr ⟨hmem, houter⟩)
  rw [← heq, hfeatures] at hlength
  exact absurd hlength (Nat.not_succ_le_self 1)

theorem of_isSome_mergeFinal?_of_kind {kind : ExpressionKind} {token? : Option Text}
    (h : (if e.kind = kind then e.mergeFinal? token? else none).isSome) :
    e.kind = kind ∧ (e.mergeFinal? token?).isSome := by
  obtain ⟨result, hr⟩ := Option.isSome_iff_exists.mp h
  obtain ⟨hkind, hfinal⟩ := Option.ite_none_right_eq_some.mp hr
  exact ⟨hkind, Option.isSome_of_eq_some hfinal⟩

theorem of_mergeComplement? (h : e.mergeComplement?.isSome) : e.kind = .lexical ∧ (e.mergeFinal? none).isSome :=
  of_isSome_mergeFinal?_of_kind h

theorem of_mergeSpecifier? (h : e.mergeSpecifier?.isSome) :
    e.kind = .derived ∧ (e.mergeFinal? (some Argument.placeholder)).isSome :=
  of_isSome_mergeFinal?_of_kind h

end Expression

namespace Operation

/-- The two operators do not both apply to the expression, whatever the next index is. -/
def Excludes (e : Expression) (op op' : Text × UnaryOperator) : Prop :=
  ∀ index index', ¬((op.2 index e).isSome ∧ (op'.2 index' e).isSome)

instance (e : Expression) : Std.Symm (Excludes e) where
  symm _ _ h index index' happly := h index' index happly.symm

@[simp] theorem isSome_withoutIndex (merge : Expression → Option Expression) (index : Int) (e : Expression) :
    (withoutIndex merge index e).isSome = (merge e).isSome :=
  Option.isSome_map

theorem excludes_withoutIndex {e : Expression} {merge merge' : Expression → Option Expression}
    (h : (merge e).isSome → ¬(merge' e).isSome) (name name' : Text) :
    Excludes e (name, withoutIndex merge) (name', withoutIndex merge') := by
  rintro index index' ⟨hsome, hsome'⟩
  rw [isSome_withoutIndex] at hsome hsome'
  exact h hsome hsome'

theorem pairwise_excludes_merges (e : Expression) : merges.Pairwise (Excludes e) := by
  have hmover {token? : Option Text} (h : (e.mergeFinal? token?).isSome) : ¬e.mergeMover?.isSome := by
    simp [Expression.mergeMover?_eq_none_of_mergeFinal? h]
  refine List.pairwise_cons.mpr
    ⟨List.forall_mem_cons.mpr ⟨?_, List.forall_mem_singleton.mpr ?_⟩, List.pairwise_pair.mpr ?_⟩
  · refine excludes_withoutIndex (fun hcomplement hspecifier => ?_) _ _
    have hlexical := (Expression.of_mergeComplement? hcomplement).1
    rw [(Expression.of_mergeSpecifier? hspecifier).1] at hlexical
    cases hlexical
  · exact excludes_withoutIndex (fun hcomplement => hmover (Expression.of_mergeComplement? hcomplement).2) _ _
  · exact excludes_withoutIndex (fun hspecifier => hmover (Expression.of_mergeSpecifier? hspecifier).2) _ _

theorem outerIs_licensor_of_merges {e : Expression} {op : Text × UnaryOperator} (hop : op ∈ merges) {index : Int}
    (h : (op.2 index e).isSome) : e.outerIs .licensor := by
  obtain ⟨name, operator⟩ := op
  rcases mem_merges_iff.mp hop with ⟨-, rfl⟩ | ⟨-, rfl⟩ | ⟨-, rfl⟩ <;> simp only [isSome_withoutIndex] at h
  · exact Expression.outerIs_licensor_of_mergeFinal? (Expression.of_mergeComplement? h).2
  · exact Expression.outerIs_licensor_of_mergeFinal? (Expression.of_mergeSpecifier? h).2
  · exact Expression.outerIs_licensor_of_mergeMover? h

/-- Spelling out excludes merging, except for a head that selects a third argument. -/
theorem pairwise_excludes_unary {e : Expression} (h : e.selectsThird = false) (categories : PhraseCategories) :
    (unary categories).Pairwise (Excludes e) := by
  rw [unary_eq_cons, List.pairwise_cons]
  refine ⟨fun op hop index index' ⟨hspelled, hmerged⟩ => ?_, pairwise_excludes_merges e⟩
  have hlicensor := outerIs_licensor_of_merges hop hmerged
  have htwo := (Expression.isSome_spellOut?_of_licensor hlicensor categories index).mp hspelled
  simp [Expression.selectsThird, hlicensor, htwo] at h

theorem findSome?_applyUnary?_eq_of_perm {entry : ChartEntry} {ops order : List (Text × UnaryOperator)}
    (h : ops.Pairwise (Excludes entry.expression)) (horder : order.Perm ops) (counters : Counters) :
    (order.findSome? fun op => entry.applyUnary? op.1 op.2 counters) =
      ops.findSome? fun op => entry.applyUnary? op.1 op.2 counters := by
  have happlies {op : Text × UnaryOperator} (hop : (entry.applyUnary? op.1 op.2 counters).isSome) :
      (op.2 counters.nextIndex entry.expression).isSome := by
    obtain ⟨made, hmade⟩ := Option.isSome_iff_exists.mp hop
    obtain ⟨-, expression, nextIndex, hr, -⟩ := ChartEntry.applyUnary?_eq_some_iff.mp hmade
    exact Option.isSome_of_eq_some hr
  refine findSome?_eq_of_perm horder fun op hop op' hop' hsome hsome' => ?_
  by_contra hne
  exact h.forall (horder.mem_iff.mp hop) (horder.mem_iff.mp hop') hne _ _ ⟨happlies hsome, happlies hsome'⟩

/-- Of the operators on one expression at most one applies, and so it does not matter in which order they are tried,
unless the expression is a head that selects a third argument. A head that selects is spelled out if it selects a third
argument, and only then. -/
theorem excludes_unary (categories : PhraseCategories) (entry : ChartEntry) :
    merges.Pairwise (Excludes entry.expression) ∧
      (entry.expression.outerIs .licensor → ∀ index,
        (entry.expression.spellOut? categories index).isSome = entry.expression.selectsThird) ∧
      (entry.expression.selectsThird = false →
        (unary categories).Pairwise (Excludes entry.expression) ∧
          ∀ order : List (Text × UnaryOperator), order.Perm (unary categories) → ∀ counters,
            (order.findSome? fun op => entry.applyUnary? op.1 op.2 counters) =
              (unary categories).findSome? fun op => entry.applyUnary? op.1 op.2 counters) := by
  refine ⟨pairwise_excludes_merges _, fun h index => ?_, fun h => ?_⟩
  · rw [Bool.eq_iff_iff, Expression.isSome_spellOut?_of_licensor h]
    simp [Expression.selectsThird, h]
  · have hexcludes := pairwise_excludes_unary h categories
    exact ⟨hexcludes, fun order horder => findSome?_applyUnary?_eq_of_perm hexcludes horder⟩

/-- A subject moves on from a verb that has its object. -/
theorem excludes_unary_moving_subject :
    let chase : Expression :=
      { phon := "chase", kind := .derived, features := [⟨.licensor, "d"⟩, ⟨.licensee, "v"⟩], meaning := .const "chase"
        arguments := [⟨"bob", "d", .const "bob"⟩]
        children := [.ofItem ⟨"alice", [⟨.licensee, "d"⟩, ⟨.licensee, "k"⟩], .const "alice"⟩] }
    let entry : ChartEntry := ⟨3, chase, some "insert", [], ∅⟩
    chase.outerIs .licensor ∧ chase.selectsThird = false ∧ (chase.spellOut? {} (-1)).isSome = false ∧
      chase.mergeMover?.isSome ∧
      ((unary {}).reverse.findSome? fun op => entry.applyUnary? op.1 op.2 ⟨4, -1⟩) =
        (unary {}).findSome? fun op => entry.applyUnary? op.1 op.2 ⟨4, -1⟩ := by
  intro chase entry
  have hlicensor : chase.outerIs .licensor := by decide
  have hthird : chase.selectsThird = false := by decide
  obtain ⟨-, hspelled, horder⟩ := excludes_unary {} entry
  exact ⟨hlicensor, hthird, (hspelled hlicensor (-1)).trans hthird, by decide,
    (horder hthird).2 _ (unary {}).reverse_perm _⟩

/-- A head that selects a third argument, which is attached, is spelled out with two arguments and could be merged with
the third, so that the order in which this is tried tells. -/
theorem exists_spelled_and_merged :
    let gave : Expression :=
      { phon := "gave", kind := .derived, features := [⟨.licensor, "d"⟩, ⟨.licensee, "v"⟩], meaning := .const "gave"
        arguments := [⟨"_", "d", .const "bob"⟩, ⟨"book", "d", .const "book"⟩]
        children := [.ofItem ⟨"alice", [⟨.licensee, "d"⟩], .const "alice"⟩] }
    let entry : ChartEntry := ⟨3, gave, some "insert", [], ∅⟩
    gave.outerIs .licensor ∧ (gave.spellOut? {} (-1)).isSome ∧ gave.mergeSpecifier?.isSome ∧
      ((unary {}).reverse.findSome? fun op => entry.applyUnary? op.1 op.2 ⟨4, -1⟩) ≠
        (unary {}).findSome? fun op => entry.applyUnary? op.1 op.2 ⟨4, -1⟩ := by
  decide

end Operation
end MinimalistGrammar
