import Mathlib.Data.List.Count
import MinimalistGrammar.Proofs.Attached
import MinimalistGrammar.Proofs.Consumption

/-! The account of features. Attaching moves them, a merge takes a licensor away together with a licensee of
the same category, and spelling out takes away all that is left in adjuncts; so the features of the leaves
of a derivation are those that were taken away in it and those that are still in its expression. -/
namespace MinimalistGrammar

namespace Expression

mutual
def allFeatures : Expression → List Feature
  | ⟨_, _, features, _, _, children⟩ => features ++ featuresOfAll children

def featuresOfAll : List Expression → List Feature
  | [] => []
  | e :: rest => allFeatures e ++ featuresOfAll rest
end

theorem allFeatures_eq (e : Expression) : e.allFeatures = e.features ++ featuresOfAll e.children := by
  cases e
  rw [allFeatures]

@[simp] theorem featuresOfAll_append (s t : List Expression) :
    featuresOfAll (s ++ t) = featuresOfAll s ++ featuresOfAll t := by
  induction s with
  | nil => rfl
  | cons e s ih => rw [List.cons_append, featuresOfAll, featuresOfAll, ih, List.append_assoc]

theorem featuresOfAll_of_perm {s t : List Expression} (h : s.Perm t) :
    (featuresOfAll s).Perm (featuresOfAll t) := by
  induction h with
  | nil => exact .refl _
  | cons e _ ih => exact ih.append_left _
  | swap d e s =>
    simp only [featuresOfAll, ← List.append_assoc]
    exact List.perm_append_comm.append_right _
  | trans _ _ ihs iht => exact ihs.trans iht

theorem allFeatures_ofItem (item : LexicalItem) : (ofItem item).allFeatures = item.features := by
  rw [allFeatures_eq, ofItem, featuresOfAll, List.append_nil]

theorem featuresOfAll_ofItem (items : List LexicalItem) :
    featuresOfAll (items.map ofItem) = items.flatMap (·.features) := by
  induction items with
  | nil => rfl
  | cons item items ih =>
    rw [List.map_cons, featuresOfAll, allFeatures_ofItem, ih, List.flatMap_cons]

theorem allFeatures_attach (host child : Expression) :
    (attach host child).allFeatures.Perm (host.allFeatures ++ child.allFeatures) := by
  rw [allFeatures_eq, allFeatures_eq host, attach, featuresOfAll, List.append_assoc]
  exact List.perm_append_comm.append_left _

theorem allFeatures_of_attachBy? {host child : FeatureKind} {a b result : Expression}
    (h : attachBy? host child a b = some result) :
    (a.allFeatures ++ b.allFeatures).Perm result.allFeatures := by
  rcases eq_attach_of_attachBy? h with rfl | rfl
  · exact (allFeatures_attach a b).symm
  · exact List.perm_append_comm.trans (allFeatures_attach b a).symm

/-- What a merge takes away: the outer licensor of the head, and the licensee that it is checked against. -/
def checked (e : Expression) : List Feature :=
  match e.outerCategory? .licensor with
  | some category => [⟨.licensor, category⟩, ⟨.licensee, category⟩]
  | none => []

theorem checked_of_features {e : Expression} {category : Text} {features : List Feature}
    (h : e.features = ⟨.licensor, category⟩ :: features) :
    e.checked = [⟨.licensor, category⟩, ⟨.licensee, category⟩] := by
  simp [checked, outerCategory?, outer?, h]

theorem allFeatures_of_mergeFinal? {token? : Option Text} {e result : Expression}
    (h : e.mergeFinal? token? = some result) :
    e.allFeatures.Perm (result.allFeatures ++ e.checked) := by
  obtain ⟨category, features, before, child, after, hf, hc, hchild, rfl⟩ := of_mergeFinal? h
  rw [allFeatures_eq, allFeatures, checked_of_features hf, hf, hc, List.perm_iff_count]
  intro f
  simp only [featuresOfAll_append, featuresOfAll, allFeatures_eq child, hchild, List.count_append,
    List.count_cons, List.count_nil]
  omega

theorem allFeatures_of_mergeMover? {e result : Expression} (h : e.mergeMover? = some result) :
    e.allFeatures.Perm (result.allFeatures ++ e.checked) := by
  obtain ⟨category, features, before, child, after, rest, meaning, hf, hc, hchild, -, rfl⟩ :=
    of_mergeMover? h
  rw [allFeatures_eq, allFeatures, checked_of_features hf, hf, hc, List.perm_iff_count]
  intro f
  simp only [featuresOfAll_append, featuresOfAll, allFeatures_eq child,
    allFeatures_eq { child with features := rest }, hchild, List.count_append, List.count_cons,
    List.count_nil]
  omega

theorem allFeatures_of_spellOut? {categories : PhraseCategories} {index next : Int}
    {e result : Expression} (h : e.spellOut? categories index = some (result, next)) :
    e.allFeatures.Perm (result.allFeatures ++ featuresOfAll (e.children.filter isAdjunct)) := by
  obtain ⟨-, -, hf, -, hc⟩ := of_spellOut? h
  have hchildren := featuresOfAll_of_perm (List.filter_append_perm isAdjunct e.children).symm
  rw [featuresOfAll_append] at hchildren
  rw [allFeatures_eq, allFeatures_eq result, hf, hc, List.append_assoc]
  exact (hchildren.trans List.perm_append_comm).append_left _

inductive IsWellAttached : Expression → Prop where
  | intro {e : Expression} (hfeatures : ∀ child ∈ e.children, child.features ≠ [])
      (hchildren : ∀ child ∈ e.children, IsWellAttached child) : IsWellAttached e

theorem isWellAttached_iff {e : Expression} :
    e.IsWellAttached ↔ e.AllAttached (·.features ≠ []) := by
  constructor
  · intro h
    induction h with
    | intro hfeatures _ ih => exact ⟨hfeatures, ih⟩
  · intro h
    induction h with
    | intro hfeatures _ ih => exact ⟨hfeatures, ih⟩

namespace IsWellAttached

theorem features_ne_nil {e : Expression} (h : e.IsWellAttached) :
    ∀ child ∈ e.children, child.features ≠ [] :=
  fun child hc => ((isWellAttached_iff.mp h).forall_children child hc).1

theorem of_attachBy? {host child : FeatureKind} {a b result : Expression} (ha : a.IsWellAttached)
    (hb : b.IsWellAttached) (h : attachBy? host child a b = some result) : result.IsWellAttached := by
  obtain ⟨hfa, hfb⟩ := features_ne_nil_of_attachBy? h
  rw [isWellAttached_iff] at ha hb ⊢
  rcases eq_attach_of_attachBy? h with rfl | rfl
  · exact ha.attach hb hfb
  · exact hb.attach ha hfa

theorem featuresOfAll_eq_nil_iff {e : Expression} (h : e.IsWellAttached) :
    featuresOfAll e.children = [] ↔ e.children = [] := by
  cases hc : e.children with
  | nil => exact iff_of_true rfl rfl
  | cons child rest =>
    have hchild := h.features_ne_nil child (by simp [hc])
    rw [featuresOfAll, allFeatures_eq]
    simp [hchild]

end IsWellAttached

end Expression

namespace Operation
variable {categories : PhraseCategories} {name : Text}

def spent (name : Text) (e : Expression) : List Feature :=
  if name = "spellout" then Expression.featuresOfAll (e.children.filter Expression.isAdjunct)
  else e.checked

theorem allFeatures_of_unary {operator : UnaryOperator} (hop : (name, operator) ∈ unary categories)
    {index next : Int} {e result : Expression} (h : operator index e = some (result, next)) :
    e.allFeatures.Perm (result.allFeatures ++ spent name e) := by
  rcases of_unary hop h with ⟨hname, h⟩ | ⟨hname, ⟨token?, h⟩ | h⟩
  · rw [spent, if_pos hname]
    exact Expression.allFeatures_of_spellOut? h
  · rw [spent, if_neg hname]
    exact Expression.allFeatures_of_mergeFinal? h
  · rw [spent, if_neg hname]
    exact Expression.allFeatures_of_mergeMover? h

theorem allFeatures_of_binary {operator : BinaryOperator} (hop : (name, operator) ∈ binary)
    {a b result : Expression} (h : operator a b = some result) :
    (a.allFeatures ++ b.allFeatures).Perm result.allFeatures := by
  obtain ⟨host, child, h⟩ := of_binary hop h
  exact Expression.allFeatures_of_attachBy? h

theorem isWellAttached_of_unary {operator : UnaryOperator}
    (hop : (name, operator) ∈ unary categories) {index next : Int} {e result : Expression}
    (he : e.IsWellAttached) (h : operator index e = some (result, next)) : result.IsWellAttached := by
  rw [Expression.isWellAttached_iff] at he ⊢
  exact he.of_unary (fun _ _ _ _ hrest _ => hrest) hop h

theorem isWellAttached_of_binary {operator : BinaryOperator} (hop : (name, operator) ∈ binary)
    {a b result : Expression} (ha : a.IsWellAttached) (hb : b.IsWellAttached)
    (h : operator a b = some result) : result.IsWellAttached := by
  obtain ⟨host, child, h⟩ := of_binary hop h
  exact ha.of_attachBy? hb h

end Operation

namespace ChartEntry

def spent (entry : ChartEntry) : List Feature :=
  match entry.operator?, entry.sources with
  | some name, [source] => Operation.spent name source.expression
  | _, _ => []

/-- The features of the leaves are accounted for: they are in the expression or were taken away. -/
def IsBalanced (entry : ChartEntry) : Prop :=
  (Expression.featuresOfAll (entry.leaves.map (·.expression))).Perm
    (entry.expression.allFeatures ++ entry.nodes.flatMap spent)

theorem isBalanced_lexical (id : Int) (item : LexicalItem) :
    IsBalanced ⟨id, .ofItem item, none, [], ∅⟩ := by
  rw [IsBalanced, leaves_of_sources_eq_nil rfl, nodes_eq_cons]
  simp [descendants, spent, Expression.featuresOfAll]

theorem isBalanced_of_applyUnary? {categories : PhraseCategories} {name : Text}
    {operator : UnaryOperator} {entry result : ChartEntry} {counters counters' : Counters}
    (hop : (name, operator) ∈ Operation.unary categories) (h : entry.IsBalanced)
    (hr : entry.applyUnary? name operator counters = some (result, counters')) :
    result.IsBalanced := by
  rw [IsBalanced, nodes_of_applyUnary? hr, leaves_of_applyUnary? hr, List.flatMap_cons]
  obtain ⟨-, expression, nextIndex, he, rfl, -⟩ := applyUnary?_eq_some_iff.mp hr
  rw [← List.append_assoc]
  exact h.trans ((Operation.allFeatures_of_unary hop he).append_right _)

theorem isBalanced_of_applyBinary? {name : Text} {operator : BinaryOperator}
    {first second result : ChartEntry} {counters counters' : Counters}
    (hop : (name, operator) ∈ Operation.binary) (hf : first.IsBalanced) (hs : second.IsBalanced)
    (hr : first.applyBinary? name operator second counters = some (result, counters')) :
    result.IsBalanced := by
  rw [IsBalanced, nodes_of_applyBinary? hr, leaves_of_applyBinary? hr, List.flatMap_cons,
    List.flatMap_append, List.map_append, Expression.featuresOfAll_append]
  obtain ⟨-, expression, he, rfl, -⟩ := applyBinary?_eq_some_iff.mp hr
  have hmoved := Operation.allFeatures_of_binary hop he
  rw [List.perm_iff_count]
  intro f
  have hf := hf.count_eq f
  have hs := hs.count_eq f
  have hmoved := hmoved.count_eq f
  simp only [List.count_append, spent, List.count_nil] at hf hs hmoved ⊢
  omega

theorem isInherited_isBalanced (categories : PhraseCategories) : IsInherited categories IsBalanced :=
  ⟨isBalanced_lexical, isBalanced_of_applyUnary?, isBalanced_of_applyBinary?⟩

theorem isInherited_isWellAttached (categories : PhraseCategories) :
    IsInherited categories (·.expression.IsWellAttached) := by
  constructor
  · exact fun _ item => Expression.isWellAttached_iff.mpr (.ofItem item)
  · intro _ _ _ _ _ _ hop he hr
    obtain ⟨-, expression, nextIndex, hexpression, rfl, -⟩ := applyUnary?_eq_some_iff.mp hr
    exact Operation.isWellAttached_of_unary hop he hexpression
  · intro _ _ _ _ _ _ _ hop hf hs hr
    obtain ⟨-, expression, hexpression, rfl, -⟩ := applyBinary?_eq_some_iff.mp hr
    exact Operation.isWellAttached_of_binary hop hf hs hexpression

end ChartEntry

namespace Parsing
variable {setting : Setting} {counters : Counters} {text : Text} {e : ChartEntry}

/-- An accepted entry has one licensee of a start category left in its own features, and beside that the
features of what is still attached to it. So all others were taken away exactly if nothing is attached. -/
theorem features_of_parse (h : Outcome.entry? (setting.parse text counters) = some e) :
    let features := (itemsOf setting.grammar (tokenize text)).flatMap (·.features)
    let spent := e.nodes.flatMap ChartEntry.spent
    ∃ category ∈ setting.grammar.startCategories,
      e.expression.features = [⟨.licensee, category⟩] ∧
      features.Perm
        (⟨.licensee, category⟩ :: (Expression.featuresOfAll e.expression.children ++ spent)) ∧
      (e.expression.children = [] ↔ features.Perm (⟨.licensee, category⟩ :: spent)) := by
  intro features spent
  obtain ⟨category, hstart, hf⟩ := features_eq_of_parse h
  have hleaves : (Expression.featuresOfAll (e.leaves.map (·.expression))).Perm features := by
    have hperm := (leaves_perm_of_parse h).map (·.expression)
    rw [Setting.entries, expressions_lexicalEntries] at hperm
    have hfeatures := Expression.featuresOfAll_of_perm hperm
    rwa [Expression.featuresOfAll_ofItem] at hfeatures
  have hbalance : features.Perm
      (⟨.licensee, category⟩ :: (Expression.featuresOfAll e.expression.children ++ spent)) := by
    have hbalanced := inherits_of_parse h (ChartEntry.isInherited_isBalanced _)
    rw [ChartEntry.IsBalanced, Expression.allFeatures_eq, hf, List.append_assoc] at hbalanced
    exact hleaves.symm.trans hbalanced
  have hattached := inherits_of_parse h (ChartEntry.isInherited_isWellAttached _)
  refine ⟨category, hstart, hf, hbalance, ?_⟩
  rw [← hattached.featuresOfAll_eq_nil_iff]
  constructor
  · intro hnil
    rwa [hnil] at hbalance
  · intro hspent
    -- the two accounts differ by the features of the children
    have hlength := (hbalance.symm.trans hspent).length_eq
    rw [List.length_cons, List.length_cons, List.length_append] at hlength
    exact List.eq_nil_of_length_eq_zero (by omega)

/-- With a verb, its argument, and an adjunct of the argument. -/
theorem features_of_parse_adjunct :
    let setting : Setting := ⟨⟨[⟨"sleep", [⟨.licensor, "d"⟩, ⟨.licensee, "c"⟩], .const "sleep"⟩,
      ⟨"he", [⟨.licensee, "d"⟩], .const "he"⟩, ⟨"alone", [⟨.adjunct, "d"⟩], .const "alone"⟩],
      .ofList ["c"]⟩, {}⟩
    let features := (itemsOf setting.grammar (tokenize "sleep he alone")).flatMap (·.features)
    ∃ e, Outcome.entry? (setting.parse "sleep he alone" {}) = some e ∧
      let spent := e.nodes.flatMap ChartEntry.spent
      ∃ category ∈ setting.grammar.startCategories,
        e.expression.features = [⟨.licensee, category⟩] ∧
        features.Perm
          (⟨.licensee, category⟩ :: (Expression.featuresOfAll e.expression.children ++ spent)) ∧
        (e.expression.children = [] ↔ features.Perm (⟨.licensee, category⟩ :: spent)) := by
  intro setting features
  have hsome : Outcome.isAccepted (setting.parse "sleep he alone" {}) := by decide +kernel
  obtain ⟨e, he⟩ := Option.isSome_iff_exists.mp hsome
  exact ⟨e, he, features_of_parse he⟩

/-- A pronoun that must still move for its case: the clause is accepted with the pronoun attached and the
case unchecked. -/
theorem children_ne_nil_of_parse :
    let setting : Setting := ⟨⟨[⟨"saw", [⟨.licensor, "d"⟩, ⟨.licensee, "c"⟩], .const "saw"⟩,
      ⟨"he", [⟨.licensee, "d"⟩, ⟨.licensee, "k"⟩], .const "he"⟩], .ofList ["c"]⟩, {}⟩
    ∃ e, Outcome.entry? (setting.parse "saw he" {}) = some e ∧ e.expression.children ≠ [] ∧
      e.expression.children.map (·.features) = [[⟨.licensee, "k"⟩]] := by
  intro setting
  have hsome : Outcome.isAccepted (setting.parse "saw he" {}) := by decide +kernel
  obtain ⟨e, he⟩ := Option.isSome_iff_exists.mp hsome
  have hleft : ((Outcome.entry? (setting.parse "saw he" {})).map
      (·.expression.children.map (·.features))) = some [[⟨.licensee, "k"⟩]] := by decide +kernel
  rw [he, Option.map_some, Option.some.injEq] at hleft
  refine ⟨e, he, ?_, hleft⟩
  intro hnil
  rw [hnil] at hleft
  cases hleft

end Parsing
end MinimalistGrammar
