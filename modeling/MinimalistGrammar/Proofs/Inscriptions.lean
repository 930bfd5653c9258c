import MinimalistGrammar.Proofs.Meanings
import MinimalistGrammar.Proofs.WrittenForms

/-! The texts in the written expressions of a derivation. The operations join sounds by spaces and put meanings
together, so the expressions are written with the characters of the lexical items that went into the derivation and
with visible ones. -/
namespace MinimalistGrammar

def LexicalItem.inscriptions (item : LexicalItem) : List Text :=
  item.token :: (item.features.map (·.category) ++ item.meaning.inscriptions)

theorem Formula.isCompositional_inscriptions (p : Text → Prop) :
    IsCompositional fun f => ∀ s ∈ f.inscriptions, p s :=
  ⟨fun _ _ h => (nomatch h), fun h => h, fun _ _ h => h, fun h => h,
    fun hf hg => List.forall_mem_append.mpr ⟨hf, hg⟩, fun h => h⟩

theorem Argument.forall_mem_text {p : CodePoint → Prop} (hp : ∀ c : CodePoint, c.isGraphic → p c) {a : Argument} :
    (∀ c ∈ a.text, p c) ↔
      (∀ c ∈ a.token, p c) ∧ (∀ c ∈ a.category, p c) ∧ ∀ s ∈ a.meaning.inscriptions, ∀ c ∈ s, p c := by
  have hspace : Text.IsGraphic " " := by decide
  have hsign : Text.IsGraphic " = " := by decide
  rw [text, List.forall_mem_append, List.forall_mem_append, List.forall_mem_append, List.forall_mem_append,
    Formula.forall_mem_text hp, and_iff_left (hspace.forall_mem hp), and_iff_left (hsign.forall_mem hp), and_assoc]

namespace Expression

def AllCategories (p : Text → Prop) (e : Expression) : Prop :=
  (∀ f ∈ e.features, p f.category) ∧ ∀ a ∈ e.arguments, p a.category

namespace AllCategories
variable {p : Text → Prop} {e result : Expression}

theorem tail {category : Text} {rest : List Feature} (h : e.AllCategories p) (kind : FeatureKind)
    (hf : e.features = ⟨kind, category⟩ :: rest) : AllCategories p { e with features := rest } :=
  ⟨fun f hmem => h.1 f (hf ▸ List.mem_cons_of_mem _ hmem), h.2⟩

theorem of_selection {category : Text} {rest : List Feature} (h : e.AllCategories p)
    (hf : e.features = ⟨.licensor, category⟩ :: rest) {token : Text} {meaning : Formula}
    (hfeatures : result.features = rest) (harguments : result.arguments = ⟨token, category, meaning⟩ :: e.arguments) :
    result.AllCategories p := by
  rw [AllCategories, hfeatures, harguments]
  exact ⟨(h.tail _ hf).1, List.forall_mem_cons.mpr ⟨h.1 ⟨.licensor, category⟩ (hf ▸ List.mem_cons_self), h.2⟩⟩

theorem of_unary {categories : PhraseCategories} {name : Text} {operator : UnaryOperator}
    (hop : (name, operator) ∈ Operation.unary categories) {index next : Int} (he : e.AllCategories p)
    (h : operator index e = some (result, next)) : result.AllCategories p := by
  rcases Operation.of_unary hop h with ⟨-, h⟩ | ⟨-, ⟨token?, h⟩ | h⟩
  · obtain ⟨-, -, hfeatures, harguments, -⟩ := Expression.of_spellOut? h
    rw [AllCategories, hfeatures, harguments]
    exact ⟨he.1, fun _ ha => nomatch ha⟩
  · obtain ⟨category, features, before, child, after, hf, -, -, rfl⟩ := Expression.of_mergeFinal? h
    exact he.of_selection hf rfl rfl
  · obtain ⟨category, features, before, child, after, rest, meaning, hf, -, -, -, rfl⟩ :=
      Expression.of_mergeMover? h
    exact he.of_selection hf rfl rfl

end AllCategories

/-- All texts in an expression but for what is attached to it are written with characters that have some property. -/
structure IsWrittenWith (p : CodePoint → Prop) (e : Expression) : Prop where
  sounds : e.AllSounds fun s => ∀ c ∈ s, p c
  meanings : e.AllMeanings fun f => ∀ s ∈ f.inscriptions, ∀ c ∈ s, p c
  categories : e.AllCategories fun s => ∀ c ∈ s, p c

theorem isWrittenWith_iff {p : CodePoint → Prop} {e : Expression} : e.IsWrittenWith p ↔
    (∀ c ∈ e.phon, p c) ∧ (∀ f ∈ e.features, ∀ c ∈ f.category, p c) ∧
      (∀ s ∈ e.meaning.inscriptions, ∀ c ∈ s, p c) ∧ ∀ a ∈ e.arguments,
        (∀ c ∈ a.token, p c) ∧ (∀ c ∈ a.category, p c) ∧ ∀ s ∈ a.meaning.inscriptions, ∀ c ∈ s, p c := by
  constructor
  · rintro ⟨hsounds, hmeanings, hfeatures, hcategories⟩
    have htokens := List.forall_mem_map.mp (List.forall_mem_cons.mp hsounds).2
    have harguments := List.forall_mem_map.mp (List.forall_mem_cons.mp hmeanings).2
    exact ⟨hsounds.phon, hfeatures, hmeanings.meaning, fun a ha => ⟨htokens a ha, hcategories a ha, harguments a ha⟩⟩
  · rintro ⟨hphon, hfeatures, hmeaning, harguments⟩
    exact ⟨List.forall_mem_cons.mpr ⟨hphon, List.forall_mem_map.mpr fun a ha => (harguments a ha).1⟩,
      List.forall_mem_cons.mpr ⟨hmeaning, List.forall_mem_map.mpr fun a ha => (harguments a ha).2.2⟩,
      hfeatures, fun a ha => (harguments a ha).2.1⟩

theorem isWrittenWith_ofItem {p : CodePoint → Prop} {item : LexicalItem} :
    (ofItem item).IsWrittenWith p ↔ ∀ s ∈ item.inscriptions, ∀ c ∈ s, p c := by
  rw [isWrittenWith_iff, LexicalItem.inscriptions, List.forall_mem_cons, List.forall_mem_append, List.forall_mem_map]
  simp [ofItem]

section Written
variable {p : CodePoint → Prop} (hp : ∀ c : CodePoint, c.isGraphic → p c)
include hp

theorem isVocal_of_isGraphic : IsVocal fun s => ∀ c ∈ s, p c := by
  have hspace : Text.IsGraphic " " := by decide
  have hplaceholder : Argument.placeholder.IsGraphic := by decide
  exact ⟨fun _ h => (Text.forall_mem_join (hspace.forall_mem hp)).mpr h, hplaceholder.forall_mem hp⟩

theorem IsWrittenWith.of_unary {categories : PhraseCategories} {name : Text} {operator : UnaryOperator}
    (hop : (name, operator) ∈ Operation.unary categories) {index next : Int} {e result : Expression}
    (he : e.IsWrittenWith p) (hchildren : ∀ child ∈ e.children, child.IsWrittenWith p)
    (h : operator index e = some (result, next)) : result.IsWrittenWith p where
  sounds := he.sounds.of_unary (isVocal_of_isGraphic hp) hop (fun child hc => (hchildren child hc).sounds) h
  meanings := he.meanings.of_unary (Formula.isCompositional_inscriptions _) hop
    (fun child hc => (hchildren child hc).meanings) h
  categories := he.categories.of_unary hop h

theorem forall_mem_text_iff (e : Expression) :
    (∀ c ∈ e.text, p c) ↔ e.IsWrittenWith p ∧ ∀ s ∈ texts e.children, ∀ c ∈ s, p c := by
  obtain ⟨phon, kind, features, meaning, arguments, children⟩ := e
  have hliteral {s : Text} (hs : s.IsGraphic) : (∀ c ∈ s, p c) ↔ True := iff_true_intro (hs.forall_mem hp)
  have hcomma : Text.IsGraphic ", " := by decide
  have hseparator : kind.separator.IsGraphic := by
    unfold ExpressionKind.separator
    split <;> decide
  have hopening : Text.IsGraphic "<" := by decide
  have hsign : Text.IsGraphic " = " := by decide
  have hbrace : Text.IsGraphic ", \x7b" := by decide
  have hclosing : Text.IsGraphic "\x7d>" := by decide
  rw [text]
  simp only [List.forall_mem_append, List.forall_mem_flatMap, hliteral, hcomma, hseparator, hopening, hsign, hbrace,
    hclosing, Text.forall_mem_join, Feature.forall_mem_listText hp, Formula.forall_mem_text hp,
    Argument.forall_mem_text hp, true_and, and_true]
  simp only [isWrittenWith_iff, and_assoc]

end Written

mutual
/-- An expression is written with characters that have some property if its own texts and those of all that is
attached in it are. -/
theorem forall_mem_text {p : CodePoint → Prop} (hp : ∀ c : CodePoint, c.isGraphic → p c) : ∀ e : Expression,
    (∀ c ∈ e.text, p c) ↔ e.IsWrittenWith p ∧ e.AllAttached (IsWrittenWith p)
  | ⟨phon, kind, features, meaning, arguments, children⟩ => by
    rw [forall_mem_text_iff hp, forall_mem_texts hp children, AllAttached.iff_forall_children]

theorem forall_mem_texts {p : CodePoint → Prop} (hp : ∀ c : CodePoint, c.isGraphic → p c) :
    ∀ expressions : List Expression, (∀ s ∈ texts expressions, ∀ c ∈ s, p c) ↔
      ∀ e ∈ expressions, e.IsWrittenWith p ∧ e.AllAttached (IsWrittenWith p)
  | [] => iff_of_true (fun _ h => nomatch h) fun _ h => nomatch h
  | e :: rest => by
    rw [texts, List.forall_mem_cons, List.forall_mem_cons, forall_mem_text hp e, forall_mem_texts hp rest]
end

end Expression

section Derivations
variable {p : CodePoint → Prop} (hp : ∀ c : CodePoint, c.isGraphic → p c)
include hp

theorem ChartEntry.isInherited_isWrittenWith (categories : PhraseCategories) : IsInherited categories fun e =>
    (∀ leaf ∈ e.leaves, leaf.expression.IsWrittenWith p) →
      e.expression.IsWrittenWith p ∧ e.expression.AllAttached (Expression.IsWrittenWith p) := by
  refine isInherited_of_unary (fun child category rest hf _ h => ?_) (fun _ _ h => ?_)
    fun hop _ _ _ _ he hchildren h => ?_
  · exact ⟨h.sounds, h.meanings, h.categories.tail _ hf⟩
  · exact ⟨h.sounds, h.meanings, h.categories⟩
  · exact he.of_unary hp hop hchildren h

/-- The expressions of a derivation of a text are written with the characters of the items of the text. -/
theorem Parsing.forall_mem_text_of_parse {setting : Setting} {counters : Counters} {text : Text} {e : ChartEntry}
    (h : Outcome.entry? (setting.parse text counters) = some e) :
    (∀ node ∈ e.nodes, ∀ c ∈ node.expression.text, p c) ↔
      ∀ item ∈ itemsOf setting.grammar (tokenize text), ∀ s ∈ item.inscriptions, ∀ c ∈ s, p c := by
  have hleaf : ∀ item ∈ itemsOf setting.grammar (tokenize text),
      ∃ leaf ∈ e.leaves, leaf.expression = .ofItem item := fun item hitem =>
    List.mem_map.mp ((expressions_perm_of_parse h).symm.subset (List.mem_map_of_mem hitem))
  constructor
  · intro hnodes item hitem
    obtain ⟨leaf, hleaf, he⟩ := hleaf item hitem
    have htext := (Expression.forall_mem_text hp _).mp (hnodes leaf (List.mem_of_mem_filter hleaf))
    exact Expression.isWrittenWith_ofItem.mp (he ▸ htext.1)
  · intro hitems node hnode
    refine (Expression.forall_mem_text hp _).mpr ?_
    refine inherits_of_parse h (ChartEntry.isInherited_isWrittenWith hp _).forall_nodes node hnode fun leaf hleaf => ?_
    obtain ⟨item, hitem, he⟩ := exists_item_of_mem_leaves h (ChartEntry.leaves_subset_of_mem_nodes hnode hleaf)
    rw [he]
    exact Expression.isWrittenWith_ofItem.mpr (hitems item hitem)

end Derivations

end MinimalistGrammar
