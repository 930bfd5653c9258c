import MinimalistGrammar.Proofs.Operation
import MinimalistGrammar.Proofs.Search

/-! Heads and adjuncts of derivations. The features of an entry are what is left of those of one of its leaves,
its head, which gave one licensor for each argument that the entry has. A derivation with an adjunct in it that
is not the adjunct itself has also a leaf that the adjunct can modify. -/
namespace MinimalistGrammar

namespace Expression

/-- The category of the phrase that a head makes with its arguments: that of the first feature after its
licensors. -/
def phraseCategory? (e : Expression) : Option Text :=
  match e.features.dropWhile (·.kind = .licensor) with
  | ⟨.licensee, category⟩ :: _ => some category
  | _ => none

theorem phraseCategory?_of_features {e : Expression} {checked features : List Feature} {category : Text}
    (hchecked : ∀ f ∈ checked, f.kind = .licensor)
    (h : e.features = checked ++ ⟨.licensee, category⟩ :: features) :
    e.phraseCategory? = some category := by
  have hdrop : e.features.dropWhile (·.kind = .licensor) = ⟨.licensee, category⟩ :: features := by
    rw [h, List.dropWhile_append_of_pos fun f hf => decide_eq_true (hchecked f hf),
      List.dropWhile_cons_of_neg (by simp)]
  rw [phraseCategory?, hdrop]

end Expression

/-- Of the features, an operator on one expression takes none or the outer licensor, which makes an argument. -/
theorem Operation.features_of_unary {categories : PhraseCategories} {name : Text} {operator : UnaryOperator}
    (hop : (name, operator) ∈ unary categories) {index next : Int} {e result : Expression}
    (h : operator index e = some (result, next)) :
    (e.arguments ≠ [] ∧ result.features = e.features ∧ result.arguments = []) ∨
      ∃ category, e.features = ⟨.licensor, category⟩ :: result.features ∧
        result.arguments.length = e.arguments.length + 1 := by
  rcases of_unary hop h with ⟨-, h⟩ | ⟨-, ⟨token?, h⟩ | h⟩
  · obtain ⟨hlength, -, hf, ha, -⟩ := Expression.of_spellOut? h
    refine .inl ⟨fun hnil => ?_, hf, ha⟩
    simp [hnil] at hlength
  · obtain ⟨category, features, before, child, after, hf, -, -, rfl⟩ := Expression.of_mergeFinal? h
    exact .inr ⟨category, hf, rfl⟩
  · obtain ⟨category, features, before, child, after, rest, meaning, hf, -, -, -, rfl⟩ :=
      Expression.of_mergeMover? h
    exact .inr ⟨category, hf, rfl⟩

theorem Operation.outers_of_binary {name : Text} {operator : BinaryOperator}
    (hop : (name, operator) ∈ binary) {a b result : Expression} (h : operator a b = some result) :
    ∃ host child category, host ≠ .adjunct ∧ (child = .adjunct → host = .licensee) ∧
      ((a.outerCategory? host = some category ∧ b.outerCategory? child = some category ∧
          result = .attach a b) ∨
        b.outerCategory? host = some category ∧ a.outerCategory? child = some category ∧
          result = .attach b a) := by
  have hcases {host child : FeatureKind} (h : Expression.attachBy? host child a b = some result) :
      ∃ category, (a.outerCategory? host = some category ∧ b.outerCategory? child = some category ∧
          result = .attach a b) ∨
        b.outerCategory? host = some category ∧ a.outerCategory? child = some category ∧
          result = .attach b a := by
    rcases Expression.of_attachBy? h with ⟨category, h⟩ | ⟨category, h⟩
    · exact ⟨category, .inl h⟩
    · exact ⟨category, .inr h⟩
  rcases mem_binary_iff.mp hop with ⟨-, rfl⟩ | ⟨-, rfl⟩
  · obtain ⟨category, h⟩ := hcases h
    exact ⟨.licensee, .adjunct, category, by decide, fun _ => rfl, h⟩
  · obtain ⟨category, h⟩ := hcases h
    exact ⟨.licensor, .licensee, category, by decide, nofun, h⟩

namespace ChartEntry

def HasPlainWords (e : ChartEntry) : Prop :=
  ∀ leaf ∈ e.leaves, ∀ f ∈ leaf.expression.features.tail, f.kind ≠ .adjunct

/-- An entry has its features and arguments from a head, an adjunct in it has something to modify, and an
adjunct is a word alone. -/
structure IsHeaded (e : ChartEntry) : Prop where
  head : ∃ head ∈ e.leaves, ∃ checked : List Feature, (∀ f ∈ checked, f.kind = .licensor) ∧
    head.expression.features = checked ++ e.expression.features ∧
    e.expression.arguments.length ≤ checked.length
  modified : ∀ leaf ∈ e.leaves, ∀ category, leaf.expression.outerCategory? .adjunct = some category →
    (e.expression.outerCategory? .adjunct = some category ∧ e.expression.arguments = []) ∨
      ∃ other ∈ e.leaves, other.expression.phraseCategory? = some category
  adjunct : e.HasPlainWords → ∀ category, e.expression.outerCategory? .adjunct = some category →
    e.sources = [] ∧ e.expression.arguments = [] ∧ e.expression.children = []

namespace IsHeaded

theorem exists_phraseCategory {e : ChartEntry} (h : e.IsHeaded) {category : Text}
    (houter : e.expression.outerCategory? .licensee = some category) :
    ∃ head ∈ e.leaves, head.expression.phraseCategory? = some category ∧
      (e.expression.arguments ≠ [] → head.expression.outerIs .licensor) := by
  obtain ⟨head, hhead, checked, hchecked, hf, hlength⟩ := h.head
  obtain ⟨features, houter⟩ := Expression.outerCategory?_eq_some_iff.mp houter
  rw [houter] at hf
  refine ⟨head, hhead, Expression.phraseCategory?_of_features hchecked hf, fun harguments => ?_⟩
  cases checked with
  | nil => exact absurd (List.eq_nil_of_length_eq_zero (Nat.le_zero.mp hlength)) harguments
  | cons f checked => simp [Expression.outerIs, Expression.outer?, hf, hchecked f List.mem_cons_self]

theorem tail_features {e : ChartEntry} (h : e.IsHeaded) (hplain : e.HasPlainWords) :
    ∀ f ∈ e.expression.features.tail, f.kind ≠ .adjunct := by
  obtain ⟨head, hhead, checked, -, hf, -⟩ := h.head
  intro f hmem
  refine hplain head hhead f ?_
  rw [hf]
  cases checked with
  | nil => exact hmem
  | cons g checked => exact List.mem_append_right checked (List.mem_of_mem_tail hmem)

theorem lexical (id : Int) (item : LexicalItem) : IsHeaded ⟨id, .ofItem item, none, [], ∅⟩ := by
  have hleaves := leaves_lexical id item
  constructor
  · exact ⟨_, hleaves ▸ List.mem_singleton_self _, [], fun _ hf => (nomatch hf), rfl, Nat.le_refl 0⟩
  · intro leaf hleaf category houter
    rw [hleaves, List.mem_singleton] at hleaf
    exact .inl ⟨hleaf ▸ houter, rfl⟩
  · exact fun _ _ _ => ⟨rfl, rfl, rfl⟩

theorem of_applyUnary? {categories : PhraseCategories} {name : Text} {operator : UnaryOperator}
    {entry result : ChartEntry} {counters counters' : Counters}
    (hop : (name, operator) ∈ Operation.unary categories) (h : entry.IsHeaded)
    (hr : entry.applyUnary? name operator counters = some (result, counters')) : result.IsHeaded := by
  have hleaves := leaves_of_applyUnary? hr
  obtain ⟨-, expression, nextIndex, he, rfl, -⟩ := applyUnary?_eq_some_iff.mp hr
  obtain ⟨head, hhead, checked, hchecked, hf, hlength⟩ := h.head
  rcases Operation.features_of_unary hop he with ⟨harguments, hf', ha⟩ | ⟨category, hf', ha⟩
  · -- what is spelled out has arguments, so that it is no adjunct of one word
    constructor
    · rw [hleaves]
      exact ⟨head, hhead, checked, hchecked, hf' ▸ hf, by simp [ha]⟩
    · rw [hleaves]
      intro leaf hleaf category houter
      rcases h.modified leaf hleaf category houter with ⟨-, hnil⟩ | hother
      · exact absurd hnil harguments
      · exact .inr hother
    · intro hplain category houter
      rw [HasPlainWords, hleaves] at hplain
      obtain ⟨features, houter⟩ := Expression.outerCategory?_eq_some_iff.mp houter
      have houter := Expression.outerCategory?_eq_some_iff.mpr ⟨features, hf' ▸ houter⟩
      exact absurd (h.adjunct hplain category houter).2.1 harguments
  · constructor
    · rw [hleaves]
      refine ⟨head, hhead, checked ++ [⟨.licensor, category⟩], ?_, ?_, ?_⟩
      · exact List.forall_mem_append.mpr ⟨hchecked, List.forall_mem_singleton.mpr rfl⟩
      · rw [hf, hf', List.append_assoc, List.singleton_append]
      · simpa [ha] using hlength
    · rw [hleaves]
      intro leaf hleaf adjunct houter
      rcases h.modified leaf hleaf adjunct houter with ⟨hnone, -⟩ | hother
      · obtain ⟨features, hnone⟩ := Expression.outerCategory?_eq_some_iff.mp hnone
        rw [hf'] at hnone
        cases hnone
      · exact .inr hother
    · intro hplain adjunct houter
      rw [HasPlainWords, hleaves] at hplain
      obtain ⟨features, houter⟩ := Expression.outerCategory?_eq_some_iff.mp houter
      have hmem : ⟨.adjunct, adjunct⟩ ∈ head.expression.features.tail := by
        rw [hf, hf', show expression.features = _ from houter]
        cases checked <;> simp
      exact absurd rfl (hplain head hhead _ hmem)

theorem attach {host child result : ChartEntry} {hostKind childKind : FeatureKind} {category : Text}
    (hhost : host.IsHeaded) (hchild : child.IsHeaded) (hkind : hostKind ≠ .adjunct)
    (hadjunct : childKind = .adjunct → hostKind = .licensee)
    (houter : host.expression.outerCategory? hostKind = some category)
    (houter' : child.expression.outerCategory? childKind = some category)
    (hresult : result.expression = .attach host.expression child.expression)
    (hleaves : ∀ leaf, leaf ∈ result.leaves ↔ leaf ∈ host.leaves ∨ leaf ∈ child.leaves) :
    result.IsHeaded := by
  have hnone (adjunct : Text) : host.expression.outerCategory? .adjunct ≠ some adjunct :=
    fun hsome => hkind (Expression.eq_of_outerCategory? houter hsome).1
  constructor
  · obtain ⟨head, hhead, checked, hchecked, hf, hlength⟩ := hhost.head
    exact ⟨head, (hleaves head).mpr (.inl hhead), checked, hchecked, hresult ▸ hf, hresult ▸ hlength⟩
  · intro leaf hleaf adjunct hadjunctOf
    refine .inr ?_
    rcases (hleaves leaf).mp hleaf with hleaf | hleaf
    · rcases hhost.modified leaf hleaf adjunct hadjunctOf with ⟨hsome, -⟩ | ⟨other, hother, hphrase⟩
      · exact absurd hsome (hnone adjunct)
      · exact ⟨other, (hleaves other).mpr (.inl hother), hphrase⟩
    · rcases hchild.modified leaf hleaf adjunct hadjunctOf with ⟨hsome, -⟩ | ⟨other, hother, hphrase⟩
      · -- the adjunct joins its host here, whose head it modifies
        obtain ⟨hchildKind, rfl⟩ := Expression.eq_of_outerCategory? houter' hsome
        rw [hadjunct hchildKind] at houter
        obtain ⟨head, hhead, hphrase, -⟩ := hhost.exists_phraseCategory houter
        exact ⟨head, (hleaves head).mpr (.inl hhead), hphrase⟩
      · exact ⟨other, (hleaves other).mpr (.inr hother), hphrase⟩
  · intro _ adjunct hsome
    rw [hresult] at hsome
    exact absurd hsome (hnone adjunct)

theorem of_applyBinary? {name : Text} {operator : BinaryOperator} {first second result : ChartEntry}
    {counters counters' : Counters} (hop : (name, operator) ∈ Operation.binary) (hfirst : first.IsHeaded)
    (hsecond : second.IsHeaded)
    (hr : first.applyBinary? name operator second counters = some (result, counters')) :
    result.IsHeaded := by
  have hleaves (leaf : ChartEntry) :
      leaf ∈ result.leaves ↔ leaf ∈ first.leaves ∨ leaf ∈ second.leaves := by
    rw [leaves_of_applyBinary? hr, List.mem_append]
  obtain ⟨-, expression, he, hmade, -⟩ := applyBinary?_eq_some_iff.mp hr
  have hexpression : result.expression = expression := by rw [hmade]
  obtain ⟨host, child, category, hkind, hadjunct, ⟨houter, houter', hattach⟩ | ⟨houter, houter', hattach⟩⟩ :=
    Operation.outers_of_binary hop he
  · exact hfirst.attach hsecond hkind hadjunct houter houter' (hexpression.trans hattach) hleaves
  · exact hsecond.attach hfirst hkind hadjunct houter houter' (hexpression.trans hattach)
      fun leaf => (hleaves leaf).trans or_comm

end IsHeaded

theorem isInherited_isHeaded (categories : PhraseCategories) : IsInherited categories IsHeaded :=
  ⟨IsHeaded.lexical, IsHeaded.of_applyUnary?, IsHeaded.of_applyBinary?⟩

end ChartEntry
end MinimalistGrammar
