import MinimalistGrammar.Proofs.Operation

/-! What operations use up. The weight of an expression counts the features and the arguments that are left
in it and in its children: attaching keeps it, and every operation on one expression lowers it. -/
namespace MinimalistGrammar
namespace Expression

mutual
/-- The features and the arguments of an expression and of all that is attached to it. -/
def weight : Expression → Nat
  | ⟨_, _, features, _, arguments, children⟩ =>
    features.length + arguments.length + weightOfAll children

def weightOfAll : List Expression → Nat
  | [] => 0
  | e :: rest => weight e + weightOfAll rest
end

theorem weight_eq (e : Expression) :
    e.weight = e.features.length + e.arguments.length + weightOfAll e.children := by
  cases e
  rw [weight]

@[simp] theorem weightOfAll_append (s t : List Expression) :
    weightOfAll (s ++ t) = weightOfAll s + weightOfAll t := by
  induction s with
  | nil => simp [weightOfAll]
  | cons e s ih => simp [weightOfAll, ih, Nat.add_assoc]

theorem weightOfAll_filter_add (p : Expression → Bool) (s : List Expression) :
    weightOfAll (s.filter p) + weightOfAll (s.filter (!p ·)) = weightOfAll s := by
  induction s with
  | nil => rfl
  | cons e s ih => cases hp : p e <;> simp [hp, weightOfAll] <;> omega

@[simp] theorem weight_ofItem (item : LexicalItem) :
    (ofItem item).weight = item.features.length := by
  simp [ofItem, weight, weightOfAll]

@[simp] theorem weight_attach (host child : Expression) :
    (attach host child).weight = host.weight + child.weight := by
  rw [attach, weight_eq, weight_eq host, weightOfAll]
  dsimp only
  omega

theorem weight_of_attachBy? {host child : FeatureKind} {a b result : Expression}
    (h : attachBy? host child a b = some result) : result.weight = a.weight + b.weight := by
  rcases eq_attach_of_attachBy? h with rfl | rfl
  · exact weight_attach a b
  · rw [weight_attach, Nat.add_comm]

theorem weight_of_mergeFinal? {token? : Option Text} {e result : Expression}
    (h : e.mergeFinal? token? = some result) : result.weight < e.weight := by
  obtain ⟨category, features, before, child, after, hf, hc, hchild, rfl⟩ := of_mergeFinal? h
  rw [weight_eq, weight_eq e, hf, hc]
  simp only [weightOfAll_append, weightOfAll, weight_eq child, hchild, List.length_cons]
  omega

theorem weight_of_mergeMover? {e result : Expression} (h : e.mergeMover? = some result) :
    result.weight < e.weight := by
  obtain ⟨category, features, before, child, after, rest, meaning, hf, hc, hchild, -, rfl⟩ :=
    of_mergeMover? h
  rw [weight_eq, weight_eq e, hf, hc]
  simp only [weightOfAll_append, weightOfAll, weight_eq child, weight_eq { child with features := rest },
    hchild, List.length_cons]
  omega

theorem weight_of_spellOut? {categories : PhraseCategories} {index next : Int}
    {e result : Expression} (h : e.spellOut? categories index = some (result, next)) :
    result.weight < e.weight := by
  obtain ⟨harguments, -, hf, ha, hc⟩ := of_spellOut? h
  have hsplit := weightOfAll_filter_add isAdjunct e.children
  rw [weight_eq, weight_eq e, hf, ha, hc]
  simp only [List.length_nil]
  omega

end Expression

namespace Operation

/-- Every operation on one expression lowers the weight. -/
theorem weight_of_unary {categories : PhraseCategories} {name : Text} {operator : UnaryOperator}
    (hop : (name, operator) ∈ unary categories) {index next : Int} {e result : Expression}
    (h : operator index e = some (result, next)) : result.weight < e.weight := by
  rcases of_unary hop h with ⟨-, h⟩ | ⟨-, ⟨token?, h⟩ | h⟩
  · exact Expression.weight_of_spellOut? h
  · exact Expression.weight_of_mergeFinal? h
  · exact Expression.weight_of_mergeMover? h

theorem weight_of_binary {name : Text} {operator : BinaryOperator}
    (hop : (name, operator) ∈ binary) {a b result : Expression} (h : operator a b = some result) :
    result.weight = a.weight + b.weight := by
  obtain ⟨host, child, h⟩ := of_binary hop h
  exact Expression.weight_of_attachBy? h

end Operation
end MinimalistGrammar
