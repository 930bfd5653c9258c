import Mathlib.Data.List.Perm.Subperm
import MinimalistGrammar.Proofs.Attached
import MinimalistGrammar.Proofs.Tokens
import MinimalistGrammar.Proofs.Words

/-! The words that a derivation is spoken with. Operations move words and put them next to each other; only a
specifier leaves a word of its own, the placeholder. So what is accepted for a text is said with words of the
text. -/
namespace MinimalistGrammar

theorem Argument.tokenize_placeholder : tokenize placeholder = [placeholder] := by decide +kernel

namespace Expression

theorem words_phraseOfOne (categories : PhraseCategories) (index : Int) (e : Expression) (category : Text)
    (argument : Argument) : (phraseOfOne categories index e category argument).1.words ≠ [] ∧
      (phraseOfOne categories index e category argument).1.words.Subperm [e.phon, argument.token] := by
  have hargument : [argument.token].Subperm [e.phon, argument.token] :=
    (List.sublist_cons_self e.phon [argument.token]).subperm
  have hswap : [argument.token, e.phon].Subperm [e.phon, argument.token] :=
    (List.Perm.swap e.phon argument.token []).subperm
  unfold phraseOfOne
  split
  · exact ⟨List.cons_ne_nil _ _, hargument⟩
  · split
    · exact ⟨List.cons_ne_nil _ _, hswap⟩
    · split <;> exact ⟨List.cons_ne_nil _ _, List.Subperm.refl _⟩

theorem words_phraseOfTwo (categories : PhraseCategories) (adjuncts : List Expression) (e : Expression)
    (category? : Option Text) (ext int : Argument) :
    (phraseOfTwo categories adjuncts e category? ext int).words ≠ [] ∧
      (phraseOfTwo categories adjuncts e category? ext int).words.Subperm
        [e.phon, ext.token, int.token] := by
  unfold phraseOfTwo
  split
  · exact ⟨List.cons_ne_nil _ _, (List.sublist_append_right [e.phon, ext.token] [int.token]).subperm⟩
  · exact ⟨List.cons_ne_nil _ _, (List.Perm.swap e.phon ext.token [int.token]).subperm⟩

theorem phon_of_spellOut? {categories : PhraseCategories} {index next : Int} {e result : Expression}
    (h : e.spellOut? categories index = some (result, next)) : ∃ words : List Text,
      words ≠ [] ∧ words.Subperm (e.phon :: e.arguments.map (·.token)) ∧
      result.phon = Text.join " " (words ++ (e.children.filter isAdjunct).map (·.phon)) := by
  unfold spellOut? at h
  split at h
  · rename_i argument category ha houter
    cases h
    obtain ⟨hne, hwords⟩ := words_phraseOfOne categories index e category argument
    exact ⟨_, hne, ha ▸ hwords, rfl⟩
  · rename_i ext int ha
    cases h
    obtain ⟨hne, hwords⟩ := words_phraseOfTwo categories (e.children.filter isAdjunct) e
      (e.outerCategory? .licensee) ext int
    exact ⟨_, hne, ha ▸ hwords, rfl⟩
  · cases h

def AllSounds (p : Text → Prop) (e : Expression) : Prop := ∀ sound ∈ e.phon :: e.arguments.map (·.token), p sound

/-- What sounds that are put next to each other have if each of them has it, and the placeholder has. -/
structure IsVocal (p : Text → Prop) : Prop where
  join : ∀ {sounds : List Text}, sounds ≠ [] → (∀ sound ∈ sounds, p sound) → p (Text.join " " sounds)
  placeholder : p Argument.placeholder

namespace AllSounds
variable {p : Text → Prop} {e result : Expression}

theorem phon (h : e.AllSounds p) : p e.phon := h e.phon List.mem_cons_self

theorem cons {argument : Argument} (h : e.AllSounds p) (hargument : p argument.token)
    (hphon : result.phon = e.phon) (harguments : result.arguments = argument :: e.arguments) :
    result.AllSounds p := by
  obtain ⟨hhead, htokens⟩ := List.forall_mem_cons.mp h
  rw [AllSounds, hphon, harguments]
  exact List.forall_mem_cons.mpr ⟨hhead, List.forall_mem_cons.mpr ⟨hargument, htokens⟩⟩

theorem of_mergeFinal? {token? : Option Text} (he : e.AllSounds p)
    (htoken : ∀ child ∈ e.children, p (token?.getD child.phon))
    (h : e.mergeFinal? token? = some result) : result.AllSounds p := by
  obtain ⟨category, features, before, child, after, -, hc, -, rfl⟩ := Expression.of_mergeFinal? h
  exact he.cons (htoken child (by simp [hc])) rfl rfl

theorem of_mergeMover? (he : e.AllSounds p) (hchildren : ∀ child ∈ e.children, child.AllSounds p)
    (h : e.mergeMover? = some result) : result.AllSounds p := by
  obtain ⟨category, features, before, child, after, rest, meaning, -, hc, -, -, rfl⟩ :=
    Expression.of_mergeMover? h
  exact he.cons (hchildren child (by simp [hc])).phon rfl rfl

theorem of_spellOut? (hp : IsVocal p) {categories : PhraseCategories} {index next : Int} (he : e.AllSounds p)
    (hchildren : ∀ child ∈ e.children, child.AllSounds p)
    (h : e.spellOut? categories index = some (result, next)) : result.AllSounds p := by
  obtain ⟨sounds, hne, hsounds, hphon⟩ := phon_of_spellOut? h
  obtain ⟨-, -, -, ha, -⟩ := Expression.of_spellOut? h
  rw [AllSounds, ha, List.map_nil, List.forall_mem_singleton, hphon]
  refine hp.join (List.append_ne_nil_of_left_ne_nil hne _) fun sound hsound => ?_
  rcases List.mem_append.mp hsound with hsound | hsound
  · exact he sound (hsounds.subset hsound)
  · obtain ⟨child, hchild, rfl⟩ := List.mem_map.mp hsound
    exact (hchildren child (List.mem_of_mem_filter hchild)).phon

theorem of_unary (hp : IsVocal p) {categories : PhraseCategories} {name : Text} {operator : UnaryOperator}
    (hop : (name, operator) ∈ Operation.unary categories)
    {index next : Int} (he : e.AllSounds p) (hchildren : ∀ child ∈ e.children, child.AllSounds p)
    (h : operator index e = some (result, next)) : result.AllSounds p := by
  rcases Operation.mem_unary_iff.mp hop with ⟨-, rfl⟩ | ⟨-, rfl⟩ | ⟨-, rfl⟩ | ⟨-, rfl⟩
  · exact he.of_spellOut? hp hchildren h
  · obtain ⟨-, h⟩ := Option.ite_none_right_eq_some.mp (Operation.withoutIndex_eq_some_iff.mp h).1
    refine he.of_mergeFinal? (fun child hc => ?_) h
    exact (hchildren child hc).phon
  · obtain ⟨-, h⟩ := Option.ite_none_right_eq_some.mp (Operation.withoutIndex_eq_some_iff.mp h).1
    refine he.of_mergeFinal? (fun _ _ => ?_) h
    exact hp.placeholder
  · exact he.of_mergeMover? hchildren (Operation.withoutIndex_eq_some_iff.mp h).1

end AllSounds

/-- An expression has no other words than some in its sound and in those of its arguments. -/
def SpeaksOnly (words : List Text) (e : Expression) : Prop :=
  ∀ sound ∈ e.phon :: e.arguments.map (·.token), tokenize sound ⊆ words

theorem SpeaksOnly.phon {words : List Text} {e : Expression} (h : e.SpeaksOnly words) : tokenize e.phon ⊆ words :=
  AllSounds.phon h

/-- Sounds that are put next to each other have the words of each of them. -/
theorem isVocal_tokenize {words : List Text} (h : Argument.placeholder ∈ words) :
    IsVocal fun sound => tokenize sound ⊆ words := by
  constructor
  · intro sounds hne hsounds
    rw [tokenize_join hne]
    intro word hword
    obtain ⟨sound, hsound, hword⟩ := List.mem_flatMap.mp hword
    exact hsounds sound hsound hword
  · rw [Argument.tokenize_placeholder]
    exact List.cons_subset.mpr ⟨h, List.nil_subset words⟩

end Expression

namespace ChartEntry

/-- A property that does not hang on first features and attached expressions goes from the leaves of a derivation to
all that there is in it, if the operations on one expression keep it. -/
theorem isInherited_of_unary {categories : PhraseCategories} {p : Expression → Prop}
    (hfeatures : ∀ (child : Expression) (category : Text) (rest : List Feature),
      child.features = ⟨.licensee, category⟩ :: rest → rest ≠ [] → p child → p { child with features := rest })
    (hattach : ∀ host child : Expression, p host → p (Expression.attach host child))
    (hunary : ∀ {name : Text} {operator : UnaryOperator}, (name, operator) ∈ Operation.unary categories →
      ∀ {index next : Int} {e result : Expression}, p e → (∀ child ∈ e.children, p child) →
        operator index e = some (result, next) → p result) :
    IsInherited categories fun e =>
      (∀ leaf ∈ e.leaves, p leaf.expression) → p e.expression ∧ e.expression.AllAttached p := by
  constructor
  · intro id item hleaves
    rw [leaves_lexical, List.forall_mem_singleton] at hleaves
    exact ⟨hleaves, .ofItem item⟩
  · intro name operator entry result counters counters' hop he hr hleaves
    rw [leaves_of_applyUnary? hr] at hleaves
    obtain ⟨hentry, hattached⟩ := he hleaves
    obtain ⟨-, expression, nextIndex, he, rfl, -⟩ := applyUnary?_eq_some_iff.mp hr
    have hchildren := fun child hc => (hattached.forall_children child hc).1
    exact ⟨hunary hop hentry hchildren he, hattached.of_unary hfeatures hop he⟩
  · intro name operator first second result counters counters' hop hf hs hr hleaves
    rw [leaves_of_applyBinary? hr] at hleaves
    obtain ⟨hfirst, hsecond⟩ := List.forall_mem_append.mp hleaves
    obtain ⟨hentry, hattached⟩ := hf hfirst
    obtain ⟨hentry', hattached'⟩ := hs hsecond
    obtain ⟨-, expression, he, rfl, -⟩ := applyBinary?_eq_some_iff.mp hr
    obtain ⟨host, child, hattachBy⟩ := Operation.of_binary hop he
    rcases Expression.eq_attach_of_attachBy? hattachBy with rfl | rfl
    · exact ⟨hattach _ _ hentry, hattached.attach hattached' hentry'⟩
    · exact ⟨hattach _ _ hentry', hattached'.attach hattached hentry⟩

theorem isInherited_speaksOnly (categories : PhraseCategories) {words : List Text}
    (hwords : Argument.placeholder ∈ words) : IsInherited categories fun e =>
      (∀ leaf ∈ e.leaves, leaf.expression.SpeaksOnly words) →
        e.expression.SpeaksOnly words ∧ e.expression.AllAttached (Expression.SpeaksOnly words) :=
  isInherited_of_unary (fun _ _ _ _ _ h => h) (fun _ _ h => h) fun hop _ _ _ _ he hchildren h =>
    Expression.AllSounds.of_unary (Expression.isVocal_tokenize hwords) hop he hchildren h

end ChartEntry

namespace Parsing
variable {setting : Setting} {counters : Counters} {text : Text} {e : ChartEntry}

theorem tokenize_token_of_mem_itemsOf {grammar : Grammar} {item : LexicalItem}
    (h : item ∈ itemsOf grammar (tokenize text)) :
    tokenize item.token = [item.token] ∧ (item.token = [] ∨ item.token ∈ tokenize text) := by
  rcases List.mem_append.mp h with h | h
  · have htoken : item.token = [] := Grammar.token_of_mem_lookup h
    rw [htoken]
    exact ⟨rfl, .inl rfl⟩
  · obtain ⟨token, htoken, hitem⟩ := List.mem_flatMap.mp h
    rw [Grammar.token_of_mem_lookup hitem]
    exact ⟨tokenize_of_mem_tokenize htoken, .inr htoken⟩

theorem speaksOnly_of_parse (h : Outcome.entry? (setting.parse text counters) = some e) :
    e.expression.SpeaksOnly ([] :: Argument.placeholder :: tokenize text) := by
  have hwords : Argument.placeholder ∈ [] :: Argument.placeholder :: tokenize text :=
    List.mem_cons_of_mem [] List.mem_cons_self
  refine (inherits_of_parse h (ChartEntry.isInherited_speaksOnly _ hwords) fun leaf hleaf => ?_).1
  obtain ⟨item, hitem, he⟩ := exists_item_of_mem_leaves h hleaf
  obtain ⟨htokens, htoken⟩ := tokenize_token_of_mem_itemsOf hitem
  have hmem : item.token ∈ [] :: Argument.placeholder :: tokenize text := by
    simp only [List.mem_cons]
    exact htoken.imp_right .inr
  rw [he]
  refine List.forall_mem_singleton.mpr ?_
  exact htokens ▸ List.cons_subset.mpr ⟨hmem, List.nil_subset _⟩

end Parsing
end MinimalistGrammar
