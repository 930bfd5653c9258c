import Mathlib.Data.List.Nodup
import MinimalistGrammar.Model.Assignment
import MinimalistGrammar.Proofs.DocumentTypes
import MinimalistGrammar.Proofs.Storage

/-! Models as documents and in files. A model that is made of texts, and whose indices are bound to its entities,
is read back from its document as it is, and from a file if its texts can be written at all. -/
namespace MinimalistGrammar

section Reading

theorem Name.same_int {i j : Int} : same (.int i) (.int j) ↔ i = j := by
  have hparts : (partsOfOne : Int) ≠ 0 := Int.natCast_ne_zero.mpr (by decide +kernel)
  have hkey (k : Int) : key (.int k) = ⟨3, k * partsOfOne, []⟩ := rfl
  rw [same_iff, hkey, hkey, ← Int.mul_eq_mul_right_iff hparts]
  exact ⟨fun h => (Key.mk.inj h).2.1, fun h => congrArg (Key.mk 3 · []) h⟩

namespace Model

theorem putAssignment_of_forall_not_same {key : Name} {value : Json} {done : List (Name × Json)}
    (h : ∀ a ∈ done, ¬Name.same a.1 key) : putAssignment key value done = done ++ [(key, value)] := by
  induction done with
  | nil => rfl
  | cons a done ih =>
    obtain ⟨ha, hdone⟩ := List.forall_mem_cons.mp h
    rw [putAssignment, if_neg ha, ih hdone, List.cons_append]

theorem foldl_putAssignment {assignments : List (Name × Json)}
    (h : assignments.Pairwise fun a b => ¬Name.same a.1 b.1) :
    assignments.foldl (fun done a => putAssignment a.1 a.2 done) [] = assignments := by
  have hput (done : List (Name × Json)) (hdone : ∀ a ∈ done, ∀ b ∈ assignments, ¬Name.same a.1 b.1) :
      assignments.foldl (fun done a => putAssignment a.1 a.2 done) done = done ++ assignments := by
    induction assignments generalizing done with
    | nil => exact (List.append_nil done).symm
    | cons a assignments ih =>
      obtain ⟨ha, hassignments⟩ := List.pairwise_cons.mp h
      rw [List.foldl_cons, putAssignment_of_forall_not_same fun b hb => hdone b hb a List.mem_cons_self,
        ih hassignments, List.append_assoc, List.singleton_append]
      refine List.forall_mem_append.mpr ⟨fun b hb c hc => hdone b hb c (List.mem_cons_of_mem a hc), ?_⟩
      exact List.forall_mem_singleton.mpr ha
  exact hput [] fun a ha => nomatch ha

theorem readNames_names (list : List Name) : readNames (names list) = .ok list :=
  mapM_map_eq_pure fun _ _ => rfl

theorem readPredicate_document (entry : Text × SortedSet Name) :
    readPredicate (entry.1, names entry.2.elements) = .ok entry := by
  rw [readPredicate, readNames_names]
  exact congrArg (fun s => Except.ok (entry.1, s)) (SortedSet.ofList_elements entry.2)

def pairsDocument (pairs : SortedSet Participation) : Json :=
  .arr (pairs.elements.map fun p => names [p.event, p.bearer])

theorem readRelation_document (entry : Text × SortedSet Participation) :
    readRelation (entry.1, pairsDocument entry.2) = .ok entry := by
  have hread : (entry.2.elements.map fun p => names [p.event, p.bearer]).mapM readParticipation =
      .ok entry.2.elements := mapM_map_eq_pure fun _ _ => rfl
  simp only [readRelation, pairsDocument, readElements, Json.elements?, Option.elim_some, bind, Except.bind, hread,
    SortedSet.ofList_elements]
  rfl

theorem decodeRelation_document (entry : Text × SortedSet Participation) :
    decodeRelation (entry.1, pairsDocument entry.2) = .ok (entry.1, pairsDocument entry.2) := by
  have hdecode : (entry.2.elements.map fun p => names [p.event, p.bearer]).mapM (decodePair entry.1) =
      .ok (entry.2.elements.map fun p => names [p.event, p.bearer]) := mapM_map_eq_pure_map fun _ _ => rfl
  simp only [decodeRelation, pairsDocument, readElements, Json.elements?, Option.elim_some, bind, Except.bind,
    hdecode]
  rfl

variable {m : Model}

theorem IsProper.ofDescription_eq_ok (h : m.IsProper) :
    ofDescription {
      entities := names m.entities, events := names m.events
      assignments := m.assignments.entries.map fun a => (.int a.1, .scalar a.2)
      predicates := .obj (m.predicates.entries.map fun entry => (entry.1, names entry.2.elements))
      relations := .obj (m.relations.entries.map fun entry => (entry.1, pairsDocument entry.2)) } = .ok m := by
  obtain ⟨hentities, hevents, -, -⟩ := isTextual_iff.mp h.isTextual
  have hpredicates : (m.predicates.entries.map fun entry => (entry.1, names entry.2.elements)).mapM readPredicate =
      .ok m.predicates.entries := mapM_map_eq_pure fun entry _ => readPredicate_document entry
  have hrelations : (m.relations.entries.map fun entry => (entry.1, pairsDocument entry.2)).mapM readRelation =
      .ok m.relations.entries := mapM_map_eq_pure fun entry _ => readRelation_document entry
  have hindices : (m.assignments.entries.map fun a => ((.int a.1 : Name), Json.scalar a.2)).Pairwise
      fun a b => ¬Name.same a.1 b.1 := by
    refine List.pairwise_map.mpr ((List.pairwise_map.mp m.assignments.nodup_keys).imp fun hne hsame => ?_)
    exact hne (Name.same_int.mp hsame)
  have hassignments : (m.assignments.entries.map fun a => ((.int a.1 : Name), Json.scalar a.2)).mapM
      (readAssignment m.entities) = .ok m.assignments.entries := by
    refine mapM_map_eq_pure fun a ha => ?_
    have hentity : m.entities.any (Name.same a.2) := h.isEntity_of_mem a ha
    simp only [readAssignment, index?, hentity, if_true]
    rfl
  simp only [ofDescription, readNames_names, readMembers, bind, Except.bind, hpredicates, hrelations,
    foldl_putAssignment hindices,
    Name.distinct_eq_self_of_isText hentities h.nodup_entities, Name.distinct_eq_self_of_isText hevents h.nodup_events,
    hassignments, SortedMap.ofList_entries]
  rfl

theorem IsProper.ofDocument_document (h : m.IsProper) : ofDocument m.document = .ok m := by
  have hindices : (m.assignments.entries.map fun a => (Text.ofInt a.1, Json.scalar a.2)).mapM decodeIndex =
      .ok (m.assignments.entries.map fun a => ((.int a.1 : Name), Json.scalar a.2)) := by
    refine mapM_map_eq_pure_map fun a _ => ?_
    rw [decodeIndex, Text.readInteger?_ofInt]
    rfl
  have hrelations : (m.relations.entries.map fun entry => (entry.1, pairsDocument entry.2)).mapM decodeRelation =
      .ok (m.relations.entries.map fun entry => (entry.1, pairsDocument entry.2)) :=
    mapM_map_eq_pure_map fun entry _ => decodeRelation_document entry
  have hdocument : ofDocument m.document =
      ((m.assignments.entries.map fun a => (Text.ofInt a.1, Json.scalar a.2)).mapM decodeIndex >>= fun assignments =>
        (m.relations.entries.map fun entry => (entry.1, pairsDocument entry.2)).mapM decodeRelation >>= fun relations =>
          ofDescription {
            assignments
            relations := .obj relations
            entities := names m.entities, events := names m.events
            predicates := .obj (m.predicates.entries.map fun entry => (entry.1, names entry.2.elements)) }) := rfl
  rw [hdocument, hindices, hrelations]
  exact h.ofDescription_eq_ok

end Model

end Reading

section Writing
variable {m : Model}

namespace Model

theorem IsTextual.hasOrder (h : m.IsTextual) : m.hasOrder := by
  obtain ⟨-, -, hpredicates, hrelations⟩ := isTextual_iff.mp h
  refine Bool.and_eq_true_iff.mpr ⟨List.all_eq_true.mpr fun entry hentry => ?_,
    List.all_eq_true.mpr fun entry hentry => Bool.and_eq_true_iff.mpr ⟨?_, ?_⟩⟩
  · exact Name.haveOrder_of_isText (hpredicates entry hentry)
  · refine Name.haveOrder_of_isText fun event hevent => ?_
    obtain ⟨p, hp, rfl⟩ := List.mem_map.mp (Name.mem_of_mem_distinct hevent)
    exact (hrelations entry hentry p hp).1
  · refine List.all_eq_true.mpr fun p _ => Name.haveOrder_of_isText fun bearer hbearer => ?_
    obtain ⟨q, hq, rfl⟩ := List.mem_map.mp hbearer
    exact (hrelations entry hentry q (List.mem_filter.mp hq).1).2

theorem isPlain_scalar {name : Name} (h : name.isText) : (Json.scalar name).IsPlain := by
  obtain ⟨s, rfl⟩ := Name.exists_of_isText h
  exact .str s

theorem isPlain_names {list : List Name} (h : ∀ name ∈ list, name.isText) : (names list).IsPlain :=
  .arr (List.forall_mem_map.mpr fun name hname => isPlain_scalar (h name hname))

theorem IsProper.mem_entities (h : m.IsProper) {a : Int × Name} (ha : a ∈ m.assignments.entries) :
    a.2 ∈ m.entities := by
  obtain ⟨entity, hentity, hsame⟩ := List.any_eq_true.mp (h.isEntity_of_mem a ha)
  obtain ⟨s, rfl⟩ := Name.exists_of_isText ((isTextual_iff.mp h.isTextual).1 entity hentity)
  rwa [Name.same_text_iff.mp hsame]

theorem IsProper.isPlain_document (h : m.IsProper) : m.document.IsPlain := by
  obtain ⟨hentities, hevents, hpredicates, hrelations⟩ := isTextual_iff.mp h.isTextual
  have hkeys : [("entities" : Text), "events", "assignments", "predicates", "predicates2"].Nodup := by decide
  have hindices : (m.assignments.entries.map fun a => (Text.ofInt a.1, Json.scalar a.2)).map (·.1) |>.Nodup := by
    have hkeys := m.assignments.nodup_keys.map Text.ofInt_injective
    rw [SortedMap.keys, List.map_map] at hkeys
    rw [List.map_map]
    exact hkeys
  refine .obj hkeys ?_
  simp only [List.forall_mem_cons]
  refine ⟨isPlain_names hentities, isPlain_names hevents, .obj hindices ?_, .obj ?_ ?_, .obj ?_ ?_,
    List.forall_mem_nil _⟩
  · exact List.forall_mem_map.mpr fun a ha => isPlain_scalar (hentities a.2 (h.mem_entities ha))
  · rw [List.map_map]
    exact m.predicates.nodup_keys
  · exact List.forall_mem_map.mpr fun entry hentry => isPlain_names (hpredicates entry hentry)
  · rw [List.map_map]
    exact m.relations.nodup_keys
  · refine List.forall_mem_map.mpr fun entry hentry => .arr (List.forall_mem_map.mpr fun p hp => ?_)
    obtain ⟨hevent, hbearer⟩ := hrelations entry hentry p hp
    refine isPlain_names ?_
    simp [hevent, hbearer]

def texts (m : Model) : List Text :=
  m.predicates.keys ++ m.relations.keys ++ m.allNames.filterMap Json.Scalar.text?

theorem isEncodable_scalar {name : Name} (h : name.isText) (level : Nat) :
    (Json.indentedAt level (.scalar name)).IsEncodable ↔ ∀ s ∈ name.text?, s.IsEncodable := by
  obtain ⟨s, rfl⟩ := Name.exists_of_isText h
  simp [Json.isEncodable_indentedAt_str, Json.Scalar.text?]

theorem isEncodable_names {list : List Name} (h : ∀ name ∈ list, name.isText) (level : Nat) :
    (Json.indentedAt level (names list)).IsEncodable ↔ ∀ name ∈ list, ∀ s ∈ name.text?, s.IsEncodable := by
  rw [names, Json.isEncodable_indentedAt_arr, List.forall_mem_map]
  exact forall₂_congr fun name hname => isEncodable_scalar (h name hname) (level + 1)

/-- The document of a proper model can be written if the texts of the model can. -/
theorem IsProper.isEncodable_document (h : m.IsProper) :
    m.document.indented.IsEncodable ↔ ∀ s ∈ m.texts, s.IsEncodable := by
  obtain ⟨hentities, hevents, hpredicates, hrelations⟩ := isTextual_iff.mp h.isTextual
  have hassignments : (∀ name ∈ m.entities, ∀ s ∈ name.text?, s.IsEncodable) →
      (Json.indentedAt 1 m.assignmentsDocument).IsEncodable := by
    intro hall
    rw [assignmentsDocument, Json.isEncodable_indentedAt_obj, List.forall_mem_map]
    refine fun a ha => ⟨Text.isEncodable_ofInt a.1, ?_⟩
    exact (isEncodable_scalar (hentities a.2 (h.mem_entities ha)) 2).mpr (hall a.2 (h.mem_entities ha))
  have hextensions : (Json.indentedAt 1 (.obj (m.predicates.entries.map fun entry =>
      (entry.1, names entry.2.elements)))).IsEncodable ↔ ∀ entry ∈ m.predicates.entries,
        entry.1.IsEncodable ∧ ∀ name ∈ entry.2.elements, ∀ s ∈ name.text?, s.IsEncodable := by
    rw [Json.isEncodable_indentedAt_obj, List.forall_mem_map]
    exact forall₂_congr fun entry hentry => and_congr_right fun _ => isEncodable_names (hpredicates entry hentry) 2
  have hpairs : (Json.indentedAt 1 (.obj (m.relations.entries.map fun entry =>
      (entry.1, pairsDocument entry.2)))).IsEncodable ↔ ∀ entry ∈ m.relations.entries,
        entry.1.IsEncodable ∧ ∀ p ∈ entry.2.elements,
          (∀ s ∈ p.event.text?, s.IsEncodable) ∧ ∀ s ∈ p.bearer.text?, s.IsEncodable := by
    rw [Json.isEncodable_indentedAt_obj, List.forall_mem_map]
    refine forall₂_congr fun entry hentry => and_congr_right fun _ => ?_
    rw [pairsDocument, Json.isEncodable_indentedAt_arr, List.forall_mem_map]
    refine forall₂_congr fun p hp => ?_
    rw [isEncodable_names]
    · simp
    · simp [hrelations entry hentry p hp]
  have htexts : (∀ s ∈ m.allNames.filterMap Json.Scalar.text?, s.IsEncodable) ↔
      ∀ name ∈ m.allNames, ∀ s ∈ name.text?, s.IsEncodable := by
    simp only [List.mem_filterMap]
    exact ⟨fun h name hname s hs => h s ⟨name, hname, hs⟩, fun h s ⟨name, hname, hs⟩ => h name hname s hs⟩
  have hdocument : m.document.indented = Json.indentedAt 0 m.document := rfl
  rw [hdocument, document, Json.isEncodable_indentedAt_obj, texts, List.forall_mem_append, List.forall_mem_append,
    htexts, allNames]
  simp only [List.forall_mem_cons, List.not_mem_nil, IsEmpty.forall_iff, implies_true, and_true, true_and,
    Text.isEncodable_ofString, Nat.zero_add, isEncodable_names hentities, isEncodable_names hevents,
    List.forall_mem_append, List.forall_mem_flatMap, SortedMap.keys, List.forall_mem_map]
  constructor
  · rintro ⟨hentities, hevents, -, hpredicates, hrelations⟩
    have hpredicates := hextensions.mp hpredicates
    have hrelations := hpairs.mp hrelations
    exact ⟨⟨fun entry he => (hpredicates entry he).1, fun entry he => (hrelations entry he).1⟩,
      ⟨⟨hentities, hevents⟩, fun entry he => (hpredicates entry he).2⟩, fun entry he => (hrelations entry he).2⟩
  · rintro ⟨⟨hpredicateKeys, hrelationKeys⟩, ⟨⟨hentities, hevents⟩, hpredicates⟩, hrelations⟩
    exact ⟨hentities, hevents, hassignments hentities,
      hextensions.mpr fun entry he => ⟨hpredicateKeys entry he, hpredicates entry he⟩,
      hpairs.mpr fun entry he => ⟨hrelationKeys entry he, hrelations entry he⟩⟩

end Model

end Writing

section Assigning

namespace Model

/-- A model that is made of texts, by its parts or by a document, and whose indices are bound to entities then. -/
inductive IsObtained : Model → Prop where
  | ofDescription {d : ModelDescription} {m : Model} (hd : d.isTextual) (hm : Model.ofDescription d = .ok m) :
      IsObtained m
  | ofDocument {document : Json} {m : Model} (hd : document.describesModel) (hm : Model.ofDocument document = .ok m) :
      IsObtained m
  | assign {m : Model} (h : IsObtained m) (index : Int) {entity : Name} (he : m.isEntity entity) :
      IsObtained (m.assign index entity)

theorem IsObtained.isProper {m : Model} (h : m.IsObtained) : m.IsProper := by
  induction h with
  | ofDescription hd hm => exact (yields_ofDescription hd).gives hm
  | ofDocument hd hm => exact (yields_ofDocument hd).gives hm
  | assign _ index he ih => exact ih.assign index he

theorem exists_of_assignText {m made : Model} {text : Text} (h : m.assignText text = .ok made) :
    ∃ a : Assignment, Assignment.ofText text = .ok a ∧ m.isEntity (.text a.entity) ∧
      made = m.assign a.index (.text a.entity) := by
  obtain ⟨a, ha, h⟩ := exists_of_bind_eq_ok h
  by_cases he : m.isEntity (.text a.entity)
  · rw [if_pos he] at h
    cases h
    exact ⟨a, ha, he, rfl⟩
  · rw [if_neg he] at h
    cases h

theorem IsObtained.assignAll {m made : Model} (h : m.IsObtained) {texts : List Text}
    (hmade : m.assignAll texts = .ok made) : made.IsObtained := by
  induction texts generalizing m with
  | nil =>
    cases hmade
    exact h
  | cons text texts ih =>
    obtain ⟨next, hnext, hmade⟩ := exists_of_bind_eq_ok hmade
    obtain ⟨a, -, he, rfl⟩ := exists_of_assignText hnext
    exact ih (h.assign a.index he) hmade

end Model

/-- Every index that is bound in a model that was made of texts is bound to an entity, whatever was bound before.
The model is restored from its document, and from a file if its texts can be written at all. Else nothing is saved. -/
theorem Model.document_round_trip {m : Model} (h : m.IsObtained) :
    (∀ index name, m.assignment? index = some name → m.isEntity name) ∧ m.entities.Nodup ∧ m.events.Nodup ∧
      m.toDocument? = some m.document ∧ Model.ofDocument m.document = .ok m ∧
      ∀ path : Text,
        ((∀ s ∈ m.texts, s.IsEncodable) → ∃ text line, m.save path = .ok (text, line) ∧
          ∀ files : Files, Path.isPossible path → files path = .text text → (files.loadModel path).2 = .ok m) ∧
        ((∃ s ∈ m.texts, ¬s.IsEncodable) → ∃ error, m.save path = .error (.encoding error)) := by
  have hproper := h.isProper
  have hread := hproper.ofDocument_document
  have hdocument : m.toDocument? = some m.document := if_pos hproper.isTextual.hasOrder
  refine ⟨?_, hproper.nodup_entities, hproper.nodup_events, hdocument, hread, fun path => ⟨?_, ?_⟩⟩
  · intro index name hname
    obtain ⟨a, ha, rfl⟩ := Option.map_eq_some_iff.mp hname
    exact hproper.isEntity_of_mem a (List.mem_of_find?_eq_some ha)
  · intro hencodable
    have hsave := Json.save_of_isEncodable (hproper.isEncodable_document.mpr hencodable)
    refine ⟨m.document.indented, .ofModel ("Saved model to " ++ path), ?_, fun files hpath hfile => ?_⟩
    · rw [Model.save, hdocument, Option.elim_some]
      simp only [bind, Except.bind, hsave]
      rfl
    · have hfound := Files.readDocument_eq_ok hpath hproper.isPlain_document hfile
      simp only [Files.loadModel, hfound, hread]
  · rintro ⟨s, hs, hnot⟩
    have hunwritable : ¬m.document.indented.IsEncodable := by
      rw [hproper.isEncodable_document]
      exact fun hall => hnot (hall s hs)
    obtain ⟨error, herror⟩ := Json.exists_save_eq_error_iff.mpr hunwritable
    refine ⟨error, ?_⟩
    rw [Model.save, hdocument, Option.elim_some]
    simp only [bind, Except.bind, herror]

/-- Names in any order and more than once, two spellings of one index, indices that are negative and large, and
predicates and relations that hold of nothing. -/
theorem Model.document_round_trip_unsorted :
    let document : Json := .obj [("entities", .strings ["b", "a", "b"]), ("events", .strings ["e"]),
      ("assignments", .obj [("7", .str "a"), (" +0_7", .str "b"), ("-1", .str "a")]),
      ("predicates", .obj [("girl", .strings ["b", "a", "b"]), ("boy", .arr [])]),
      ("predicates2", .obj [("int", .arr [.strings ["e", "b"], .str "ea", .strings ["e", "b"]]), ("ext", .arr [])])]
    let bound : Model :=
      { entities := [.text "b", .text "a"], events := [.text "e"]
        assignments := .ofList [(-18446744073709551617, .text "b"), (-1, .text "b"), (7, .text "b")]
        predicates := .ofList [("boy", ∅), ("girl", .ofList [.text "a", .text "b"])]
        relations := .ofList [("ext", ∅),
          ("int", .ofList [⟨.text "e", .text "a"⟩, ⟨.text "e", .text "b"⟩])] }
    (∃ m, Model.ofDocument document = .ok m ∧
        bound = (m.assign (-18446744073709551617) (.text "b")).assign (-1) (.text "b")) ∧
      Model.ofDocument bound.document = .ok bound ∧
      ∃ text line, bound.save "m.json" = .ok (text, line) ∧
        (Files.loadModel (fun _ => .text text) "m.json").2 = .ok bound := by
  intro document bound
  let m : Model := { bound with assignments := .ofList [(-1, .text "a"), (7, .text "b")] }
  have hm : Model.ofDocument document = .ok m := eq_ok_of_toOption_eq_some (by decide +kernel)
  have hbound : bound = (m.assign (-18446744073709551617) (.text "b")).assign (-1) (.text "b") := by decide +kernel
  have h : bound.IsObtained := by
    rw [hbound]
    exact .assign (.assign (.ofDocument (by decide) hm) _ (by decide)) _ (by decide)
  obtain ⟨-, -, -, -, hread, hfiles⟩ := document_round_trip h
  obtain ⟨text, line, hsave, hload⟩ := (hfiles "m.json").1 (by decide +kernel)
  exact ⟨⟨m, hm, hbound⟩, hread, text, line, hsave, hload _ (by decide) rfl⟩

/-- An entity that is half of a pair stands in a document, but in no file. -/
theorem Model.save_entity_of_lone_half :
    ∃ m : Model, Model.ofDescription { entities := .arr [.str [.half 0]] } = .ok m ∧ m.IsObtained ∧
      Model.ofDocument m.document = .ok m ∧ ∀ path, m.save path = .error (.encoding ⟨.half 0, 7, 1⟩) := by
  have hm : Model.ofDescription { entities := .arr [.str [.half 0]] } = .ok ⟨[.text [.half 0]], [], ∅, ∅, ∅⟩ := rfl
  have h : Model.IsObtained ⟨[.text [.half 0]], [], ∅, ∅, ∅⟩ := .ofDescription (by decide) hm
  refine ⟨_, hm, h, h.isProper.ofDocument_document, fun path => ?_⟩
  have hdocument : Model.toDocument? ⟨[.text [.half 0]], [], ∅, ∅, ∅⟩ = some _ := if_pos h.isProper.isTextual.hasOrder
  have herror : (Model.document ⟨[.text [.half 0]], [], ∅, ∅, ∅⟩).encodingError? = some ⟨.half 0, 7, 1⟩ := by
    decide +kernel
  rw [Model.save, hdocument, Option.elim_some]
  simp only [bind, Except.bind, Json.save, herror]

end Assigning

end MinimalistGrammar
