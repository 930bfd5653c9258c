import MinimalistGrammar.Proofs.Answers
import MinimalistGrammar.Proofs.Encodability

/-! What is read from documents whose texts can be encoded. A text of a lexicon or of a model is a text of its
document, or a part of one: a character, a category, a name in a formula. -/
namespace MinimalistGrammar

namespace Json
variable {value : Json}

theorem isEncodable_arr_nil : (arr []).IsEncodable := isEncodable_arr.mpr (List.forall_mem_nil _)

theorem isEncodable_obj_nil : (obj []).IsEncodable := isEncodable_obj.mpr (List.forall_mem_nil _)

theorem IsEncodable.of_elements? (h : value.IsEncodable) {items : List Json} (hitems : value.elements? = some items) :
    ∀ item ∈ items, item.IsEncodable := by
  unfold elements? at hitems
  split at hitems
  · exact Option.some.inj hitems ▸ isEncodable_arr.mp h
  · refine Option.some.inj hitems ▸ List.forall_mem_map.mpr fun c hc => isEncodable_str.mpr ?_
    exact List.forall_mem_singleton.mpr (isEncodable_str.mp h c hc)
  · refine Option.some.inj hitems ▸ List.forall_mem_map.mpr fun m hm => isEncodable_str.mpr ?_
    exact (isEncodable_obj.mp h m hm).1
  · cases hitems

theorem IsEncodable.of_text? (h : value.IsEncodable) {s : Text} (hs : value.text? = some s) : s.IsEncodable := by
  unfold text? at hs
  split at hs
  · exact Option.some.inj hs ▸ isEncodable_str.mp h
  · cases hs

theorem IsEncodable.of_member? {members : List (Text × Json)} (h : (obj members).IsEncodable) {key : Text}
    (hvalue : member? members key = some value) : value.IsEncodable := by
  obtain ⟨m, hm, rfl⟩ := Option.map_eq_some_iff.mp hvalue
  exact (isEncodable_obj.mp h m (List.mem_of_find?_eq_some hm)).2

theorem IsEncodable.getD_member? {members : List (Text × Json)} (h : (obj members).IsEncodable) (key : Text)
    {missing : Json} (hmissing : missing.IsEncodable) : ((member? members key).getD missing).IsEncodable := by
  cases hvalue : member? members key with
  | none => exact hmissing
  | some value => exact h.of_member? hvalue

theorem IsEncodable.of_scalar? (h : value.IsEncodable) {name : Scalar} (hname : value.scalar? = some name) :
    ∀ s ∈ name.text?, s.IsEncodable := by
  unfold scalar? at hname
  split at hname
  · exact fun s hs => h s (Option.mem_toList.mpr (Option.some.inj hname ▸ hs))
  · cases hname

end Json

section Grammars

theorem Text.HasRuns.isEncodable {s : Text} {runs : List Text} (h : s.HasRuns runs) (hs : s.IsEncodable) :
    ∀ run ∈ runs, run.IsEncodable := by
  induction h with
  | blank => exact List.forall_mem_nil _
  | run _ _ _ _ ih =>
    obtain ⟨hrun, hbehind⟩ := Text.isEncodable_append.mp (Text.isEncodable_append.mp hs).2
    exact List.forall_mem_cons.mpr ⟨hrun, ih hbehind⟩

/-- Categories are parts of the text that they are read from. -/
theorem Feature.isEncodable_of_readList {s : Text} {found : List Feature} (h : readList s = .ok found)
    (hs : s.IsEncodable) : ∀ f ∈ found, f.category.IsEncodable := by
  obtain ⟨runs, hruns⟩ := s.exists_hasRuns
  obtain ⟨read, hread, htext, -⟩ := readList_eq_ok_of_runs hruns (isSigned_of_readList hruns h)
  obtain rfl : found = read := Except.ok.inj (h.symm.trans hread)
  rw [← isEncodable_listText, htext]
  exact (Text.isEncodable_join (Text.isEncodable_ofString " ")).mpr (hruns.isEncodable hs)

namespace LexicalEntry

/-- What derivations see of the entry can be encoded. -/
def IsEncodable (entry : LexicalEntry) : Prop := ∀ item ∈ entry.item?, ∀ s ∈ item.texts, s.IsEncodable

theorem yields_isEncodable_readFeatures? {features : Json} (h : features.IsEncodable) :
    Yields (fun read? => ∀ list ∈ read?, ∀ f ∈ list, f.category.IsEncodable) (fun _ => True)
      (readFeatures? features) := by
  unfold readFeatures?
  split
  · rename_i s
    cases hread : Feature.readList s with
    | error e => trivial
    | ok found =>
      intro list hlist
      cases hlist
      exact Feature.isEncodable_of_readList hread (Json.isEncodable_str.mp h)
  · exact fun list hlist => nomatch hlist

theorem yields_isEncodable_readMeaning {meaning : Json} (h : meaning.IsEncodable) :
    Yields (fun f => ∀ name ∈ f.names, name.IsEncodable) (fun _ => True) (readMeaning meaning) := by
  unfold readMeaning
  split
  · rename_i s
    cases hread : Formula.read s with
    | error e => trivial
    | ok f =>
      obtain ⟨hwritable, htexts⟩ := Formula.isEncodable_of_read hread (Json.isEncodable_str.mp h)
      exact (Formula.forall_inscriptions_iff hwritable (Text.isEncodable_ofString "some")
        (Text.isEncodable_ofString "every")).mp htexts
  · exact fun name hname => nomatch hname

theorem isEncodable_of_parts {token : Json} (htoken : token.IsEncodable) {features : StatedFeatures}
    (hfeatures : ∀ f ∈ features.usable, f.category.IsEncodable) {f : Formula}
    (hf : ∀ name ∈ f.names, name.IsEncodable) : IsEncodable ⟨token, features, f⟩ := by
  intro item hitem
  obtain ⟨s, hs, rfl⟩ := Option.map_eq_some_iff.mp hitem
  exact List.forall_mem_cons.mpr ⟨htoken.of_text? hs, List.forall_mem_append.mpr
    ⟨List.forall_mem_map.mpr hfeatures, hf⟩⟩

theorem yields_isEncodable_ofDocument {entry : Json} (h : entry.IsEncodable) :
    Yields IsEncodable (fun _ => True) (ofDocument entry) := by
  unfold ofDocument
  split
  · split
    · rename_i token features htoken hfeatures
      have htoken := h.of_member? htoken
      have hmeaning := h.getD_member? "meaning" (Json.isEncodable_str.mpr Text.isEncodable_nil)
      refine (yields_isEncodable_readFeatures? (h.of_member? hfeatures)).bind fun read? hread => ?_
      refine (yields_isEncodable_readMeaning hmeaning).bind fun f hf => ?_
      split
      · trivial
      · exact isEncodable_of_parts htoken (hread _ rfl) hf
      · split
        · trivial
        · split
          · exact isEncodable_of_parts htoken (List.forall_mem_nil _) hf
          · trivial
    · trivial
  · trivial

end LexicalEntry

namespace Lexicon

theorem yields_isEncodable_decodeCollection {members : List (Text × Json)} (h : (Json.obj members).IsEncodable)
    (key : Text) :
    Yields (fun items => ∀ item ∈ items, item.IsEncodable) (fun _ => True) (decodeCollection members key) := by
  have hpart := h.getD_member? key Json.isEncodable_arr_nil
  unfold decodeCollection
  cases hitems : ((Json.member? members key).getD (.arr [])).elements? with
  | none => trivial
  | some items => exact hpart.of_elements? hitems

theorem yields_isEncodable_ofParts {entries : List LexicalEntry} (hentries : ∀ entry ∈ entries, entry.IsEncodable)
    {symbols : List Json} (hsymbols : ∀ symbol ∈ symbols, symbol.IsEncodable) :
    Yields IsEncodable (fun _ => True) (ofParts entries symbols) := by
  unfold ofParts
  split
  · trivial
  · rename_i names hnames
    dsimp only
    split
    · refine List.forall_mem_append.mpr ⟨fun s hs => ?_, List.forall_mem_flatMap.mpr fun item hitem => ?_⟩
      · obtain ⟨name, hname, htext⟩ := List.mem_filterMap.mp (SortedSet.mem_of_mem_elements_ofList hs)
        have hname := SortedSet.mem_of_mem_elements_ofList hname
        obtain ⟨symbol, hsymbol, hscalar⟩ := exists_of_mem_mapM hnames hname
        exact (hsymbols symbol hsymbol).of_scalar? hscalar s htext
      · obtain ⟨entry, hentry, hstated⟩ := List.mem_filterMap.mp hitem
        exact hentries entry hentry item hstated
    · trivial

theorem yields_isEncodable_ofDocument {document : Json} (h : document.IsEncodable) :
    Yields IsEncodable (fun _ => True) (ofDocument document) := by
  unfold ofDocument
  split
  · refine (yields_isEncodable_decodeCollection h "lexicon").bind fun items hitems => ?_
    refine (Yields.mapM fun item hitem => LexicalEntry.yields_isEncodable_ofDocument (hitems item hitem)).bind ?_
    exact fun entries hentries => (yields_isEncodable_decodeCollection h "start_symbols").bind fun symbols hsymbols =>
      yields_isEncodable_ofParts hentries hsymbols
  · trivial

end Lexicon

end Grammars

section Models

def Name.IsEncodable (name : Name) : Prop := ∀ s ∈ name.text?, s.IsEncodable

namespace Model

theorem isEncodable_iff {m : Model} : m.IsEncodable ↔ (∀ name ∈ m.entities, name.IsEncodable) ∧
    (∀ name ∈ m.events, name.IsEncodable) ∧
    (∀ entry ∈ m.predicates.entries, entry.1.IsEncodable ∧ ∀ name ∈ entry.2.elements, name.IsEncodable) ∧
    ∀ entry ∈ m.relations.entries, entry.1.IsEncodable ∧
      ∀ p ∈ entry.2.elements, p.event.IsEncodable ∧ p.bearer.IsEncodable := by
  have hnames {names : List Name} : (∀ s ∈ names.filterMap Json.Scalar.text?, s.IsEncodable) ↔
      ∀ name ∈ names, name.IsEncodable := by
    simp only [List.mem_filterMap]
    exact ⟨fun h name hname s hs => h s ⟨name, hname, hs⟩, fun h s ⟨name, hname, hs⟩ => h name hname s hs⟩
  simp only [IsEncodable, texts, List.forall_mem_append, hnames, allNames, SortedMap.keys, List.forall_mem_map,
    List.forall_mem_flatMap, List.forall_mem_cons, List.not_mem_nil, false_implies, implies_true, and_true]
  constructor
  · rintro ⟨⟨hpredicates, hrelations⟩, ⟨⟨hentities, hevents⟩, hmembers⟩, hpairs⟩
    exact ⟨hentities, hevents, fun entry he => ⟨hpredicates entry he, hmembers entry he⟩,
      fun entry he => ⟨hrelations entry he, hpairs entry he⟩⟩
  · rintro ⟨hentities, hevents, hpredicates, hrelations⟩
    exact ⟨⟨fun entry he => (hpredicates entry he).1, fun entry he => (hrelations entry he).1⟩,
      ⟨⟨hentities, hevents⟩, fun entry he => (hpredicates entry he).2⟩, fun entry he => (hrelations entry he).2⟩

theorem yields_isEncodable_readElements {value : Json} (h : value.IsEncodable) :
    Yields (fun items => ∀ item ∈ items, item.IsEncodable) (fun _ => True) (readElements value) := by
  unfold readElements
  cases hitems : value.elements? with
  | none => trivial
  | some items => exact h.of_elements? hitems

theorem yields_isEncodable_readName {value : Json} (h : value.IsEncodable) :
    Yields Name.IsEncodable (fun _ => True) (readName value) := by
  unfold readName
  cases hname : value.scalar? with
  | none => trivial
  | some name => exact h.of_scalar? hname

theorem yields_isEncodable_readNames {value : Json} (h : value.IsEncodable) :
    Yields (fun names => ∀ name ∈ names, name.IsEncodable) (fun _ => True) (readNames value) :=
  (yields_isEncodable_readElements h).bind fun _ hitems => .mapM fun item hitem =>
    yields_isEncodable_readName (hitems item hitem)

theorem yields_isEncodable_readMembers {value : Json} (h : value.IsEncodable) :
    Yields (fun members => (Json.obj members).IsEncodable) (fun _ => True) (readMembers value) := by
  unfold readMembers
  split
  · exact h
  · split
    · exact Json.isEncodable_obj_nil
    · trivial

theorem yields_isEncodable_readPredicate {predicate : Text × Json}
    (h : predicate.1.IsEncodable ∧ predicate.2.IsEncodable) :
    Yields (fun made => made.1.IsEncodable ∧ ∀ name ∈ made.2.elements, name.IsEncodable) (fun _ => True)
      (readPredicate predicate) :=
  (yields_isEncodable_readNames h.2).bind fun _ hnames =>
    ⟨h.1, fun name hname => hnames name (SortedSet.mem_of_mem_elements_ofList hname)⟩

theorem yields_isEncodable_readParticipation {pair : Json} (h : pair.IsEncodable) :
    Yields (fun p => p.event.IsEncodable ∧ p.bearer.IsEncodable) (fun _ => True) (readParticipation pair) := by
  refine (yields_isEncodable_readElements h).bind fun items hitems => ?_
  split
  · obtain ⟨hevent, hbearer, -⟩ := List.forall_mem_cons.mp hitems |>.imp_right List.forall_mem_cons.mp
    exact (yields_isEncodable_readName hevent).bind fun event hevent =>
      (yields_isEncodable_readName hbearer).bind fun bearer hbearer => ⟨hevent, hbearer⟩
  · trivial

theorem yields_isEncodable_readRelation {relation : Text × Json}
    (h : relation.1.IsEncodable ∧ relation.2.IsEncodable) :
    Yields (fun made => made.1.IsEncodable ∧ ∀ p ∈ made.2.elements, p.event.IsEncodable ∧ p.bearer.IsEncodable)
      (fun _ => True) (readRelation relation) := by
  refine (yields_isEncodable_readElements h.2).bind fun pairs hpairs => ?_
  refine (Yields.mapM fun pair hpair => yields_isEncodable_readParticipation (hpairs pair hpair)).bind ?_
  exact fun made hmade => ⟨h.1, fun p hp => hmade p (SortedSet.mem_of_mem_elements_ofList hp)⟩

theorem yields_isEncodable_ofDescription {d : ModelDescription} (hentities : d.entities.IsEncodable)
    (hevents : d.events.IsEncodable) (hpredicates : d.predicates.IsEncodable) (hrelations : d.relations.IsEncodable) :
    Yields IsEncodable (fun _ => True) (ofDescription d) := by
  refine (yields_isEncodable_readNames hentities).bind fun entities hentities => ?_
  refine (yields_isEncodable_readNames hevents).bind fun events hevents => ?_
  refine (yields_isEncodable_readMembers hpredicates).bind fun members hmembers => ?_
  refine (Yields.mapM fun m hm => yields_isEncodable_readPredicate (Json.isEncodable_obj.mp hmembers m hm)).bind
    fun predicates hpredicates => ?_
  refine (yields_isEncodable_readMembers hrelations).bind fun members hmembers => ?_
  refine (Yields.mapM fun m hm => yields_isEncodable_readRelation (Json.isEncodable_obj.mp hmembers m hm)).bind
    fun relations hrelations => ?_
  refine (Yields.trivially _).bind fun read _ => isEncodable_iff.mpr ⟨?_, ?_, ?_, ?_⟩
  · exact fun name hname => hentities name (Name.mem_of_mem_distinct hname)
  · exact fun name hname => hevents name (Name.mem_of_mem_distinct hname)
  · exact fun entry hentry => hpredicates entry (SortedMap.mem_of_mem_entries_ofList hentry)
  · exact fun entry hentry => hrelations entry (SortedMap.mem_of_mem_entries_ofList hentry)

theorem yields_isEncodable_decodePair (relation : Text) {pair : Json} (h : pair.IsEncodable) :
    Yields Json.IsEncodable (fun _ => True) (decodePair relation pair) := by
  unfold decodePair
  split
  · trivial
  · trivial
  · split
    · exact Json.isEncodable_arr.mpr (h.of_elements? ‹_›)
    · trivial

theorem yields_isEncodable_decodeRelation {entry : Text × Json} (h : entry.1.IsEncodable ∧ entry.2.IsEncodable) :
    Yields (fun made => made.1.IsEncodable ∧ made.2.IsEncodable) (fun _ => True) (decodeRelation entry) := by
  refine (yields_isEncodable_readElements h.2).bind fun pairs hpairs => ?_
  refine (Yields.mapM fun pair hpair => yields_isEncodable_decodePair entry.1 (hpairs pair hpair)).bind ?_
  exact fun made hmade => ⟨h.1, Json.isEncodable_arr.mpr hmade⟩

theorem yields_isEncodable_decodeMembers {members : List (Text × Json)} (h : (Json.obj members).IsEncodable)
    (key : Text) : Yields (fun found => (Json.obj found).IsEncodable) (fun _ => True) (decodeMembers members key) := by
  unfold decodeMembers
  split
  · exact Json.isEncodable_obj_nil
  · exact h.of_member? ‹_›
  · trivial

theorem yields_isEncodable_ofDocument {document : Json} (h : document.IsEncodable) :
    Yields IsEncodable (fun _ => True) (ofDocument document) := by
  unfold ofDocument
  split
  · have hpart (key : Text) {missing : Json} (hmissing : missing.IsEncodable) := h.getD_member? key hmissing
    refine (Yields.trivially _).bind fun found _ => (Yields.trivially _).bind fun assignments _ => ?_
    refine (yields_isEncodable_decodeMembers h "predicates2").bind fun found hfound => ?_
    refine (Yields.mapM fun m hm => yields_isEncodable_decodeRelation (Json.isEncodable_obj.mp hfound m hm)).bind
      fun relations hrelations => ?_
    exact yields_isEncodable_ofDescription (hpart "entities" Json.isEncodable_arr_nil)
      (hpart "events" Json.isEncodable_arr_nil) (hpart "predicates" Json.isEncodable_obj_nil)
      (Json.isEncodable_obj.mpr hrelations)
  · trivial

end Model

end Models

namespace Files
variable {files : Files} {path : Text}

/-- If there is a document under the path, all texts in it can be encoded. -/
def HoldsEncodable (files : Files) (path : Text) : Prop :=
  ∀ document, files.readDocument path = .ok document → document.IsEncodable

theorem HoldsEncodable.of_loadGrammar (h : files.HoldsEncodable path) {l : Lexicon}
    (hl : (files.loadGrammar path).2 = .ok l) : l.IsEncodable := by
  obtain ⟨document, hread, hdocument⟩ := exists_of_loadGrammar hl
  exact (Lexicon.yields_isEncodable_ofDocument (h document hread)).gives hdocument

theorem HoldsEncodable.of_loadModel (h : files.HoldsEncodable path) {m : Model}
    (hm : (files.loadModel path).2 = .ok m) : m.IsEncodable := by
  obtain ⟨document, hread, hdocument⟩ := exists_of_loadModel hm
  exact (Model.yields_isEncodable_ofDocument (h document hread)).gives hdocument

end Files

end MinimalistGrammar
