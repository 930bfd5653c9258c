import MinimalistGrammar.Proofs.FeatureNotation
import MinimalistGrammar.Proofs.RoundTrip
import MinimalistGrammar.Proofs.Sets
import MinimalistGrammar.Proofs.Storage

/-! Grammars as documents and in files: what is written is read back, item by item and with the same start
categories. A file holds a grammar if its texts can be written at all. -/
namespace MinimalistGrammar

/-- The notation has forms for the features, of which there is one at least, and for the meaning. -/
structure LexicalItem.IsWritable (item : LexicalItem) : Prop where
  features_ne_nil : item.features ≠ []
  features : ∀ f ∈ item.features, f.IsWritable
  meaning : item.meaning.isWritable

instance (item : LexicalItem) : Decidable item.IsWritable :=
  decidable_of_iff
    (item.features ≠ [] ∧ (∀ f ∈ item.features, f.IsWritable) ∧ item.meaning.isWritable)
    ⟨fun h => ⟨h.1, h.2.1, h.2.2⟩, fun h => ⟨h.features_ne_nil, h.features, h.meaning⟩⟩

def Grammar.lexicon (g : Grammar) : Lexicon :=
  ⟨g.items.map .ofItem, .ofList (g.startCategories.elements.map .text)⟩

section Documents

theorem LexicalEntry.ofDocument_toDocument {item : LexicalItem} (h : item.IsWritable) :
    ofDocument (ofItem item).toDocument = .ok (ofItem item) := by
  have hfeatures : readFeatures? (.str (Feature.listText item.features)) = .ok (some item.features) := by
    rw [readFeatures?, Feature.readList_listText h.features]
    rfl
  have hmeaning : readMeaning (.str item.meaning.text) = .ok item.meaning := by
    rw [readMeaning, Formula.read_text h.meaning]
    rfl
  have hparts : ofDocument (ofItem item).toDocument =
      ofParts (.str item.token) (.str (Feature.listText item.features)) (.str item.meaning.text) := rfl
  rw [hparts, ofParts, hfeatures, hmeaning]
  match hitem : item.features with
  | [] => exact absurd hitem h.features_ne_nil
  | f :: features => simp [bind, Except.bind, pure, Except.pure, ofItem, hitem]

theorem Lexicon.ofDocument_toDocument {l : Lexicon}
    (hentries : ∀ entry ∈ l.entries, LexicalEntry.ofDocument entry.toDocument = .ok entry)
    (horder : Name.haveOrder l.startSymbols.elements) : ofDocument l.toDocument = .ok l := by
  have hread : (l.entries.map LexicalEntry.toDocument).mapM LexicalEntry.ofDocument = .ok l.entries :=
    mapM_map_eq_pure hentries
  have hsymbols : (l.startSymbols.elements.map Json.scalar).mapM Json.scalar? = some l.startSymbols.elements :=
    mapM_map_eq_pure fun _ _ => rfl
  have hparts : ofParts l.entries (l.startSymbols.elements.map .scalar) = .ok l := by
    rw [ofParts, hsymbols]
    simp only [SortedSet.ofList_elements, if_pos horder]
  have hdocument : ofDocument l.toDocument =
      ((l.entries.map LexicalEntry.toDocument).mapM LexicalEntry.ofDocument >>=
        fun entries => ofParts entries (l.startSymbols.elements.map .scalar)) := rfl
  rw [hdocument, hread]
  exact hparts

theorem LexicalEntry.isWritable_of_readFeatures? (features : Json) :
    Yields (fun read? => ∀ read ∈ read?, ∀ f ∈ read, f.IsWritable) (fun _ => True) (readFeatures? features) := by
  refine .of_forall_eq_ok fun read? h => ?_
  unfold readFeatures? at h
  split at h
  · rename_i s
    cases hread : Feature.readList s with
    | error e =>
      rw [hread] at h
      cases h
    | ok read =>
      rw [hread] at h
      cases h
      exact fun _ hfound => Option.some.inj hfound ▸ Feature.isWritable_of_readList hread
  · cases h
    exact fun _ hfound => nomatch hfound

/-- Whatever an entry states besides, the categories of its features are words. -/
theorem LexicalEntry.isWritable_of_ofParts (token features meaning : Json) :
    Yields (fun entry => ∀ f ∈ entry.features.usable, f.IsWritable) (fun _ => True)
      (ofParts token features meaning) := by
  refine (isWritable_of_readFeatures? features).bind fun read? hread => ?_
  refine (Yields.trivially _).bind fun f _ => ?_
  split
  · trivial
  · exact hread _ rfl
  · split
    · trivial
    · split
      · exact fun _ hf => nomatch hf
      · trivial

theorem LexicalEntry.isWritable_of_ofDocument (entry : Json) :
    Yields (fun made => ∀ f ∈ made.features.usable, f.IsWritable) (fun _ => True) (ofDocument entry) := by
  unfold ofDocument
  split
  · split
    · exact isWritable_of_ofParts _ _ _
    · trivial
  · trivial

theorem Lexicon.entries_of_ofParts {entries : List LexicalEntry} {symbols : List Json} {l : Lexicon}
    (h : ofParts entries symbols = .ok l) : l.entries = entries := by
  unfold ofParts at h
  split at h
  · cases h
  · dsimp only at h
    split at h <;> cases h
    rfl

theorem Lexicon.isWritable_of_ofDocument {document : Json} {l : Lexicon} (h : ofDocument document = .ok l) :
    ∀ item ∈ l.grammar.items, ∀ f ∈ item.features, f.IsWritable := by
  cases document with
  | scalar | arr => cases h
  | obj members =>
    obtain ⟨stated, -, h⟩ := exists_of_bind_eq_ok h
    obtain ⟨entries, hread, h⟩ := exists_of_bind_eq_ok h
    obtain ⟨symbols, -, h⟩ := exists_of_bind_eq_ok h
    have hentries := (Yields.mapM fun entry _ => LexicalEntry.isWritable_of_ofDocument entry).gives hread
    intro item hitem
    obtain ⟨entry, hentry, hstated⟩ := List.mem_filterMap.mp hitem
    obtain ⟨token, -, rfl⟩ := Option.map_eq_some_iff.mp hstated
    exact hentries entry (entries_of_ofParts h ▸ hentry)

end Documents

namespace Grammar
variable {g : Grammar}

theorem elements_startSymbols (g : Grammar) :
    g.lexicon.startSymbols.elements = g.startCategories.elements.map .text := by
  refine SortedSet.elements_ofList (List.pairwise_map.mpr ?_)
  exact g.startCategories.ordered

theorem grammar_lexicon (g : Grammar) : g.lexicon.grammar = g := by
  have hitems : g.lexicon.entries.filterMap LexicalEntry.item? = g.items := by
    simp [lexicon, List.filterMap_map, Function.comp_def]
  have hcategories : g.lexicon.startSymbols.elements.filterMap Json.Scalar.text? = g.startCategories.elements := by
    simp [elements_startSymbols, List.filterMap_map, Function.comp_def, Json.Scalar.text?]
  rw [Lexicon.grammar, hitems, hcategories, SortedSet.ofList_elements]

theorem ofDocument_lexicon (h : ∀ item ∈ g.items, item.IsWritable) :
    Lexicon.ofDocument g.lexicon.toDocument = .ok g.lexicon := by
  refine Lexicon.ofDocument_toDocument ?_ ?_
  · exact List.forall_mem_map.mpr fun item hitem => LexicalEntry.ofDocument_toDocument (h item hitem)
  · rw [elements_startSymbols]
    simp [Name.haveOrder, Name.isText]

end Grammar

section Encodable

namespace Formula

def names : Formula → List Text
  | const name => [name]
  | var _ | quantifier _ | foreign _ => []
  | internal operand | indexed _ operand | external operand | close operand => operand.names
  | and left right => left.names ++ right.names

/-- Besides names there are the two quantifiers in a formula that the notation has a form for. -/
theorem forall_inscriptions_iff {f : Formula} (h : f.isWritable) {p : Text → Prop} (hexistential : p existential)
    (huniversal : p universal) : (∀ s ∈ f.inscriptions, p s) ↔ ∀ name ∈ f.names, p name := by
  induction f with
  | const name => rfl
  | var index => rfl
  | internal f ih | indexed index f ih | external f ih | close f ih => exact ih h
  | and l r ihl ihr =>
    obtain ⟨hl, hr⟩ := Bool.and_eq_true_iff.mp h
    rw [inscriptions, names, List.forall_mem_append, List.forall_mem_append, ihl hl, ihr hr]
  | quantifier kind =>
    simp only [isWritable, Bool.or_eq_true, decide_eq_true_eq] at h
    rcases h with rfl | rfl <;> simp [inscriptions, names, hexistential, huniversal]
  | foreign value => cases h

theorem isEncodable_text {f : Formula} (h : f.isWritable) :
    f.text.IsEncodable ↔ ∀ name ∈ f.names, name.IsEncodable :=
  (forall_mem_text fun _ => CodePoint.not_isHalf_of_isGraphic).trans
    (forall_inscriptions_iff h (Text.isEncodable_ofString "some") (Text.isEncodable_ofString "every"))

end Formula

theorem Feature.isEncodable_listText {features : List Feature} :
    (listText features).IsEncodable ↔ ∀ f ∈ features, f.category.IsEncodable :=
  forall_mem_listText fun _ => CodePoint.not_isHalf_of_isGraphic

def LexicalItem.texts (item : LexicalItem) : List Text :=
  item.token :: (item.features.map (·.category) ++ item.meaning.names)

def Grammar.texts (g : Grammar) : List Text :=
  g.startCategories.elements ++ g.items.flatMap LexicalItem.texts

theorem LexicalEntry.isEncodable_toDocument {item : LexicalItem} (h : item.IsWritable) (level : Nat) :
    (Json.indentedAt level (ofItem item).toDocument).IsEncodable ↔ ∀ s ∈ item.texts, s.IsEncodable := by
  rw [toDocument, Json.isEncodable_indentedAt_obj]
  simp [LexicalItem.texts, ofItem, StatedFeatures.text, Json.isEncodable_indentedAt_str,
    Feature.isEncodable_listText, Formula.isEncodable_text h.meaning, or_imp, forall_and]

theorem Grammar.isEncodable_toDocument {g : Grammar} (h : ∀ item ∈ g.items, item.IsWritable) :
    g.lexicon.toDocument.indented.IsEncodable ↔ ∀ s ∈ g.texts, s.IsEncodable := by
  have hsymbols : (Json.indentedAt 1 (.arr (g.lexicon.startSymbols.elements.map .scalar))).IsEncodable ↔
      ∀ s ∈ g.startCategories.elements, s.IsEncodable := by
    simp [Json.isEncodable_indentedAt_arr, elements_startSymbols, Json.isEncodable_indentedAt_str]
  have hentries : (Json.indentedAt 1 (.arr (g.lexicon.entries.map LexicalEntry.toDocument))).IsEncodable ↔
      ∀ item ∈ g.items, ∀ s ∈ item.texts, s.IsEncodable := by
    rw [Json.isEncodable_indentedAt_arr, lexicon, List.map_map, List.forall_mem_map]
    exact forall₂_congr fun item hitem => LexicalEntry.isEncodable_toDocument (h item hitem) 2
  have hdocument : g.lexicon.toDocument.indented = Json.indentedAt 0 g.lexicon.toDocument := rfl
  rw [hdocument, Lexicon.toDocument, Json.isEncodable_indentedAt_obj, texts, List.forall_mem_append,
    List.forall_mem_flatMap]
  simp [hsymbols, hentries]

end Encodable

section Files

theorem LexicalEntry.isPlain_toDocument (item : LexicalItem) : (ofItem item).toDocument.IsPlain := by
  have hkeys : [("token" : Text), "features", "meaning"].Nodup := by decide
  refine .obj hkeys ?_
  simp only [List.forall_mem_cons]
  exact ⟨.str _, .str _, .str _, fun _ h => nomatch h⟩

theorem Grammar.isPlain_toDocument (g : Grammar) : g.lexicon.toDocument.IsPlain := by
  have hkeys : [("start_symbols" : Text), "lexicon"].Nodup := by decide
  refine .obj hkeys ?_
  simp only [List.forall_mem_cons]
  refine ⟨.arr ?_, .arr ?_, fun _ h => nomatch h⟩
  · rw [elements_startSymbols, List.map_map]
    exact List.forall_mem_map.mpr fun category _ => .str category
  · rw [lexicon, List.map_map]
    exact List.forall_mem_map.mpr fun item _ => LexicalEntry.isPlain_toDocument item

/-- A grammar is restored from its document, and from a file if its texts can be written at all. Else nothing is
saved. -/
theorem Grammar.lexicon_round_trip {g : Grammar} (h : ∀ item ∈ g.items, item.IsWritable) :
    g.lexicon.grammar = g ∧ Lexicon.ofDocument g.lexicon.toDocument = .ok g.lexicon ∧
      ∀ path : Text,
        ((∀ s ∈ g.texts, s.IsEncodable) → ∃ text line, g.lexicon.save path = .ok (text, line) ∧
          ∀ files : Files, Path.isPossible path → files path = .text text →
            (files.loadGrammar path).2 = .ok g.lexicon) ∧
        ((∃ s ∈ g.texts, ¬s.IsEncodable) → ∃ error, g.lexicon.save path = .error (.encoding error)) := by
  have hread := ofDocument_lexicon h
  refine ⟨g.grammar_lexicon, hread, fun path => ⟨fun hencodable => ?_, fun hnot => ?_⟩⟩
  · have hsave := Json.save_of_isEncodable ((isEncodable_toDocument h).mpr hencodable)
    refine ⟨g.lexicon.toDocument.indented, .ofGrammar ("Saved grammar to " ++ path), ?_, ?_⟩
    · rw [Lexicon.save, hsave]
      rfl
    · intro files hpath hfile
      have hdocument := Files.readDocument_eq_ok hpath g.isPlain_toDocument hfile
      simp only [Files.loadGrammar, hdocument, hread]
  · have hunwritable : ¬g.lexicon.toDocument.indented.IsEncodable := by
      rw [isEncodable_toDocument h]
      exact fun hall => hnot.elim fun s hs => hs.2 (hall s hs.1)
    obtain ⟨error, herror⟩ := Json.exists_save_eq_error_iff.mpr hunwritable
    refine ⟨error, ?_⟩
    rw [Lexicon.save, herror]
    rfl

/-- Homophones, an item without sound, meanings that look like notation and one that is empty, names of any
script, and a category that looks like a feature. -/
theorem Grammar.lexicon_round_trip_awkward :
    let g : Grammar := ⟨[⟨"bank", [⟨.licensee, "d"⟩], .const "shore"⟩,
      ⟨"bank", [⟨.licensee, "d"⟩], .const "some"⟩,
      ⟨"", [⟨.licensor, "+d"⟩, ⟨.adjunct, "дом"⟩], .and (.and (.const "") (.const "x_1")) (.var (-2))⟩,
      ⟨"a \"b\"\n", [⟨.licensor, "\x7b"⟩, ⟨.licensee, "c"⟩],
        .indexed (-1) (.and (.quantifier "every") (.const "♠"))⟩], .ofList ["c", "", "\t"]⟩
    (∀ item ∈ g.items, item.IsWritable) ∧ (∀ s ∈ g.texts, s.IsEncodable) ∧
      Lexicon.ofDocument g.lexicon.toDocument = .ok g.lexicon ∧
      ∃ text line, g.lexicon.save "g.json" = .ok (text, line) ∧
        (Files.loadGrammar (fun _ => .text text) "g.json").2 = .ok g.lexicon := by
  intro g
  have h : ∀ item ∈ g.items, item.IsWritable := by decide +kernel
  have hencodable : ∀ s ∈ g.texts, s.IsEncodable := by decide +kernel
  obtain ⟨-, hread, hfiles⟩ := lexicon_round_trip h
  obtain ⟨text, line, hsave, hload⟩ := (hfiles "g.json").1 hencodable
  exact ⟨h, hencodable, hread, text, line, hsave, hload _ (by decide) rfl⟩

/-- A token that is half of a pair stands in a document, but in no file. -/
theorem Grammar.save_lone_half :
    let g : Grammar := ⟨[⟨[.half 0], [⟨.licensee, "c"⟩], .const "a"⟩], .ofList ["c"]⟩
    (∀ item ∈ g.items, item.IsWritable) ∧ Lexicon.ofDocument g.lexicon.toDocument = .ok g.lexicon ∧
      ∀ path, g.lexicon.save path = .error (.encoding ⟨.half 0, 1, 1⟩) := by
  intro g
  have h : ∀ item ∈ g.items, item.IsWritable := by decide
  have herror : g.lexicon.toDocument.encodingError? = some ⟨.half 0, 1, 1⟩ := by decide +kernel
  refine ⟨h, ofDocument_lexicon h, fun path => ?_⟩
  rw [Lexicon.save, Json.save, herror]
  rfl

end Files

end MinimalistGrammar
