import MinimalistGrammar.Proofs.Operation

/-! What is attached in an expression, at any depth. The operations attach what they are given, let go of what
they merge or spell out, and take the first feature of what moves on; so what holds of all that is attached goes
on to hold if it holds of what is attached next and does not hang on a first feature. -/
namespace MinimalistGrammar
namespace Expression

inductive AllAttached (p : Expression → Prop) : Expression → Prop where
  | intro {e : Expression} (h : ∀ child ∈ e.children, p child)
      (hattached : ∀ child ∈ e.children, AllAttached p child) : AllAttached p e

namespace AllAttached
variable {p : Expression → Prop} {e result : Expression}

theorem iff_forall_children :
    e.AllAttached p ↔ ∀ child ∈ e.children, p child ∧ child.AllAttached p := by
  constructor
  · rintro ⟨h, hattached⟩ child hc
    exact ⟨h child hc, hattached child hc⟩
  · exact fun h => ⟨fun child hc => (h child hc).1, fun child hc => (h child hc).2⟩

theorem forall_children (h : e.AllAttached p) : ∀ child ∈ e.children, p child ∧ child.AllAttached p :=
  iff_forall_children.mp h

theorem of_children_subset (h : e.AllAttached p) (hsub : result.children ⊆ e.children) :
    result.AllAttached p :=
  iff_forall_children.mpr fun child hc => h.forall_children child (hsub hc)

theorem ofItem (item : LexicalItem) : (Expression.ofItem item).AllAttached p :=
  iff_forall_children.mpr fun _ hc => (nomatch hc)

theorem attach {host child : Expression} (hhost : host.AllAttached p) (hchild : child.AllAttached p)
    (hp : p child) : (attach host child).AllAttached p :=
  iff_forall_children.mpr (List.forall_mem_cons.mpr ⟨⟨hp, hchild⟩, hhost.forall_children⟩)

theorem of_mergeFinal? {token? : Option Text} (he : e.AllAttached p)
    (h : e.mergeFinal? token? = some result) : result.AllAttached p := by
  obtain ⟨category, features, before, child, after, -, hc, -, rfl⟩ := Expression.of_mergeFinal? h
  have hchild := (he.forall_children child (by simp [hc])).2
  refine iff_forall_children.mpr fun d (hd : d ∈ before ++ after ++ child.children) => ?_
  -- what was attached to the child that goes is attached to the head now
  have hfrom : d ∈ e.children ∨ d ∈ child.children := by
    rw [hc]
    grind
  exact hfrom.elim (he.forall_children d) (hchild.forall_children d)

section
variable (hp : ∀ (child : Expression) (category : Text) (rest : List Feature),
  child.features = ⟨.licensee, category⟩ :: rest → rest ≠ [] → p child → p { child with features := rest })
include hp

theorem of_mergeMover? (he : e.AllAttached p) (h : e.mergeMover? = some result) :
    result.AllAttached p := by
  obtain ⟨category, features, before, child, after, rest, meaning, -, hc, hf, hrest, rfl⟩ :=
    Expression.of_mergeMover? h
  obtain ⟨hchild, hattached⟩ := he.forall_children child (by simp [hc])
  refine iff_forall_children.mpr fun d
    (hd : d ∈ before ++ { child with features := rest } :: after) => ?_
  have hfrom : d ∈ e.children ∨ d = { child with features := rest } := by
    rw [hc]
    grind
  rcases hfrom with hd | rfl
  · exact he.forall_children d hd
  · exact ⟨hp child _ rest hf hrest hchild, hattached.of_children_subset (List.Subset.refl _)⟩

theorem of_unary {categories : PhraseCategories} {name : Text} {operator : UnaryOperator}
    (hop : (name, operator) ∈ Operation.unary categories) {index next : Int} (he : e.AllAttached p)
    (h : operator index e = some (result, next)) : result.AllAttached p := by
  rcases Operation.of_unary hop h with ⟨-, h⟩ | ⟨-, ⟨token?, h⟩ | h⟩
  · obtain ⟨-, -, -, -, hc⟩ := of_spellOut? h
    exact he.of_children_subset (hc ▸ List.filter_sublist.subset)
  · exact he.of_mergeFinal? h
  · exact he.of_mergeMover? hp h

end

end AllAttached

end Expression
end MinimalistGrammar
