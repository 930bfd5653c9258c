import MinimalistGrammar.Proofs.Renaming

/-! Expressions with other indices alone: the case of other names in which the categories stay. -/
namespace MinimalistGrammar

def Argument.mapIndices (ρ : Int → Int) (a : Argument) : Argument :=
  { a with meaning := a.meaning.mapIndices ρ }

namespace Expression

mutual
def mapIndices (ρ : Int → Int) : Expression → Expression
  | ⟨phon, kind, features, meaning, arguments, children⟩ =>
    ⟨phon, kind, features, meaning.mapIndices ρ, arguments.map (·.mapIndices ρ),
      mapIndicesOfAll ρ children⟩

def mapIndicesOfAll (ρ : Int → Int) : List Expression → List Expression
  | [] => []
  | e :: rest => mapIndices ρ e :: mapIndicesOfAll ρ rest
end

theorem mapIndicesOfAll_eq_map (ρ : Int → Int) (s : List Expression) :
    mapIndicesOfAll ρ s = s.map (mapIndices ρ) := by
  induction s with
  | nil => rfl
  | cons e s ih => rw [mapIndicesOfAll, ih, List.map_cons]

section
variable (ρ : Int → Int)

theorem mapIndices_mk (phon : Text) (kind : ExpressionKind) (features : List Feature) (meaning : Formula)
    (arguments : List Argument) (children : List Expression) :
    mapIndices ρ ⟨phon, kind, features, meaning, arguments, children⟩ =
      ⟨phon, kind, features, meaning.mapIndices ρ, arguments.map (·.mapIndices ρ),
        children.map (mapIndices ρ)⟩ := by
  rw [mapIndices, mapIndicesOfAll_eq_map]

theorem mapIndices_eq_rename : ∀ e : Expression, e.mapIndices ρ = e.rename ⟨id, ρ⟩
  | ⟨phon, kind, features, meaning, arguments, children⟩ => by
    have hfeatures : features.map (·.mapCategory id) = features := by simp [Feature.mapCategory]
    have hchildren : children.map (mapIndices ρ) = children.map (rename ⟨id, ρ⟩) := by
      refine List.map_congr_left fun child hchild => ?_
      have := List.sizeOf_lt_of_mem hchild
      exact mapIndices_eq_rename child
    rw [mapIndices_mk, rename_mk, hfeatures, hchildren]
    rfl

variable (e : Expression)

@[simp] theorem phon_mapIndices : (e.mapIndices ρ).phon = e.phon := by
  cases e
  rw [mapIndices]

@[simp] theorem features_mapIndices : (e.mapIndices ρ).features = e.features := by
  cases e
  rw [mapIndices]

@[simp] theorem meaning_mapIndices : (e.mapIndices ρ).meaning = e.meaning.mapIndices ρ := by
  cases e
  rw [mapIndices]

@[simp] theorem arguments_mapIndices :
    (e.mapIndices ρ).arguments = e.arguments.map (·.mapIndices ρ) := by
  cases e
  rw [mapIndices]

@[simp] theorem outerCategory?_mapIndices (kind : FeatureKind) :
    (e.mapIndices ρ).outerCategory? kind = e.outerCategory? kind := by
  rw [outerCategory?, outer?, features_mapIndices, ← outer?, ← outerCategory?]

end

theorem mapIndices_ofItem {ρ : Int → Int} {item : LexicalItem}
    (h : ∀ index ∈ item.meaning.indices, ρ index = index) : (ofItem item).mapIndices ρ = ofItem item := by
  rw [ofItem, mapIndices_mk, Formula.mapIndices_eq_self h, List.map_nil, List.map_nil]

end Expression

namespace Operation
variable {categories : PhraseCategories} {name : Text}

theorem unary_mapIndices {operator : UnaryOperator} (hop : (name, operator) ∈ unary categories)
    {ρ : Int → Int} {index d : Int} (hindex : ρ index = index + d) (e : Expression) :
    operator (index + d) (e.mapIndices ρ) =
      (operator index e).map fun made => (made.1.mapIndices ρ, made.2 + d) := by
  have hid : Function.Injective (Renaming.mk id ρ).category := Function.injective_id
  simp only [Expression.mapIndices_eq_rename]
  rw [unary_eq_cons, List.mem_cons, Prod.mk.injEq] at hop
  rcases hop with ⟨-, rfl⟩ | hop
  · exact Expression.spellOut?_rename hid hindex categories e
  · exact merge_rename hid hop index d e

theorem binary_mapIndices {operator : BinaryOperator} (hop : (name, operator) ∈ binary)
    (ρ : Int → Int) (a b : Expression) :
    operator (a.mapIndices ρ) (b.mapIndices ρ) = (operator a b).map (Expression.mapIndices ρ) := by
  have hid : Function.Injective (Renaming.mk id ρ).category := Function.injective_id
  rw [funext (Expression.mapIndices_eq_rename ρ)]
  exact binary_rename hid hop a b

end Operation
end MinimalistGrammar
