import Mathlib.Data.Set.List
import MinimalistGrammar.Grammar.Document
import MinimalistGrammar.Model.Document
import MinimalistGrammar.Proofs.Except
import MinimalistGrammar.Proofs.Recognition
import MinimalistGrammar.Proofs.RoundTrip
import MinimalistGrammar.Proofs.Sets

/-! Documents whose parts have the types that are described for them, and what is read from such documents: a
lexicon or a model in which every name is a text, or an error that has a message. -/
namespace MinimalistGrammar

theorem Name.exists_of_isText {name : Name} (h : name.isText) : ∃ s, name = .text s := by
  cases name with
  | text s => exact ⟨s, rfl⟩
  | _ => cases h

theorem Name.exists_of_forall_isText {names : List Name} (h : ∀ name ∈ names, name.isText) :
    ∃ texts : List Text, names = texts.map .text := by
  have hrange : names ∈ Set.range (List.map Json.Scalar.text) := by
    rw [Set.range_list_map]
    intro name hname
    obtain ⟨s, hs⟩ := exists_of_isText (h name hname)
    exact ⟨s, hs.symm⟩
  obtain ⟨texts, htexts⟩ := hrange
  exact ⟨texts, htexts.symm⟩

theorem Name.haveOrder_of_isText {names : List Name} (h : ∀ name ∈ names, name.isText) : haveOrder names := by
  rw [haveOrder, List.all_eq_true.mpr h]
  simp

namespace Json

def isText (value : Json) : Bool := value.text?.isSome

def isObjectOf (kind : Json → Bool) : Json → Bool
  | .obj members => members.all (kind ·.2)
  | _ => false

def elementsAre (kind : Json → Bool) (value : Json) : Bool := value.elements?.any (·.all kind)

/-- An object whose values are all of some kind, or something empty in its place. -/
def membersAre (kind : Json → Bool) (value : Json) : Bool := value.isObjectOf kind || value.isEmpty

def isTexts (value : Json) : Bool := value.elementsAre isText

theorem exists_of_isText {value : Json} (h : value.isText) : ∃ s, value = .str s := by
  unfold isText text? at h
  split at h
  · exact ⟨_, rfl⟩
  · cases h

theorem exists_of_forall_isText {values : List Json} (h : ∀ value ∈ values, value.isText) :
    ∃ texts : List Text, values = texts.map .str := by
  have hrange : values ∈ Set.range (List.map Json.str) := by
    rw [Set.range_list_map]
    intro value hvalue
    obtain ⟨s, hs⟩ := exists_of_isText (h value hvalue)
    exact ⟨s, hs.symm⟩
  obtain ⟨texts, htexts⟩ := hrange
  exact ⟨texts, htexts.symm⟩

theorem exists_of_isObjectOf {kind : Json → Bool} {value : Json} (h : value.isObjectOf kind) :
    ∃ members, value = .obj members ∧ ∀ m ∈ members, kind m.2 := by
  unfold isObjectOf at h
  split at h
  · exact ⟨_, rfl, List.all_eq_true.mp h⟩
  · cases h

theorem exists_of_elementsAre {kind : Json → Bool} {value : Json} (h : value.elementsAre kind) :
    ∃ items, value.elements? = some items ∧ ∀ item ∈ items, kind item := by
  obtain ⟨items, hitems, hall⟩ := (Option.any_eq_true _ _).mp h
  exact ⟨items, hitems, List.all_eq_true.mp hall⟩

end Json

section Names

namespace Name

theorem distinct_cons (first : Name) (rest : List Name) :
    distinct (first :: rest) = first :: distinct (rest.filter (!same · first)) := by
  simp [distinct, List.eraseDupsBy_cons]

/-- Induction along the names that are left: the first of them, and those of the others that are not one with it. -/
@[elab_as_elim]
theorem induction_distinct {motive : List Name → Prop} (nil : motive [])
    (cons : ∀ first rest, motive (rest.filter (!same · first)) → motive (first :: rest)) (names : List Name) :
    motive names := by
  induction hn : names.length using Nat.strong_induction_on generalizing names with
  | _ n ih =>
    cases names with
    | nil => exact nil
    | cons first rest =>
      have hlength : (rest.filter (!same · first)).length < n := by
        rw [← hn]
        exact Nat.lt_succ_of_le (List.length_filter_le _ _)
      exact cons first rest (ih _ hlength _ rfl)

theorem mem_of_mem_distinct {names : List Name} {name : Name} (h : name ∈ distinct names) : name ∈ names := by
  induction names using induction_distinct with
  | nil => exact h
  | cons first rest ih =>
    rw [distinct_cons] at h
    rcases List.mem_cons.mp h with rfl | h
    · exact List.mem_cons_self
    · exact List.mem_cons_of_mem first (List.mem_filter.mp (ih h)).1

theorem pairwise_distinct (names : List Name) : (distinct names).Pairwise fun a b => ¬same a b := by
  induction names using induction_distinct with
  | nil => exact .nil
  | cons first rest ih =>
    rw [distinct_cons]
    refine List.pairwise_cons.mpr ⟨fun other hother => ?_, ih⟩
    have hkept := (List.mem_filter.mp (mem_of_mem_distinct hother)).2
    rw [same_comm]
    simpa using hkept

theorem nodup_distinct (names : List Name) : (distinct names).Nodup := by
  refine (pairwise_distinct names).imp ?_
  rintro name _ hne rfl
  exact hne (same_self name)

theorem distinct_eq_self {names : List Name} (h : names.Pairwise fun a b => ¬same a b) :
    distinct names = names := by
  induction names with
  | nil => rfl
  | cons first rest ih =>
    obtain ⟨hfirst, hrest⟩ := List.pairwise_cons.mp h
    have hkept : rest.filter (!same · first) = rest := by
      refine List.filter_eq_self.mpr fun other hother => ?_
      rw [Bool.not_eq_true', ← Bool.not_eq_true, same_comm]
      exact hfirst other hother
    rw [distinct_cons, hkept, ih hrest]

/-- Texts come again only as themselves. -/
theorem distinct_eq_self_of_isText {names : List Name} (htext : ∀ name ∈ names, name.isText)
    (h : names.Nodup) : distinct names = names := by
  refine distinct_eq_self (h.imp_of_mem fun {a b} _ hb hne hsame => hne ?_)
  obtain ⟨s, rfl⟩ := exists_of_isText (htext b hb)
  exact same_text_iff.mp hsame

end Name

end Names

section Models

/-- A pair of a document. If it has two parts these are texts; an object with two keys is none. -/
def Json.isPairOfTexts (pair : Json) : Bool :=
  match pair, pair.elements? with
  | _, none => false
  | .obj members, _ => members.length ≠ 2
  | _, some parts => parts.length ≠ 2 || parts.all isText

/-- A document of a model by types. What stands for an entity in an assignment may be anything. -/
def Json.describesModel : Json → Bool
  | .obj members =>
    (member? members "entities").all isTexts && (member? members "events").all isTexts &&
      (member? members "assignments").all (isObjectOf fun _ => true) &&
      (member? members "predicates").all (membersAre isTexts) &&
      (member? members "predicates2").all (isObjectOf (elementsAre isPairOfTexts))
  | _ => false

/-- The parts of a model by types: names are texts, and indices are integers. -/
def ModelDescription.isTextual (d : ModelDescription) : Bool :=
  d.entities.isTexts && d.events.isTexts && d.predicates.membersAre Json.isTexts &&
    d.relations.membersAre (Json.elementsAre Json.isTexts) &&
    d.assignments.all fun a =>
      match a.1 with
      | .int _ => true
      | _ => false

namespace Model

def allNames (m : Model) : List Name :=
  m.entities ++ m.events ++ m.predicates.entries.flatMap (·.2.elements) ++
    m.relations.entries.flatMap (·.2.elements.flatMap fun p => [p.event, p.bearer])

def IsTextual (m : Model) : Prop := ∀ name ∈ m.allNames, name.isText

instance (m : Model) : Decidable m.IsTextual := inferInstanceAs (Decidable (∀ name ∈ m.allNames, _))

theorem isTextual_iff {m : Model} : m.IsTextual ↔ (∀ name ∈ m.entities, name.isText) ∧
    (∀ name ∈ m.events, name.isText) ∧
    (∀ entry ∈ m.predicates.entries, ∀ name ∈ entry.2.elements, name.isText) ∧
    ∀ entry ∈ m.relations.entries, ∀ p ∈ entry.2.elements, p.event.isText ∧ p.bearer.isText := by
  simp only [IsTextual, allNames, List.forall_mem_append, List.forall_mem_flatMap, List.forall_mem_cons,
    List.not_mem_nil, IsEmpty.forall_iff, implies_true, and_true, and_assoc]

structure IsProper (m : Model) : Prop where
  isTextual : m.IsTextual
  nodup_entities : m.entities.Nodup
  nodup_events : m.events.Nodup
  isEntity_of_mem : ∀ a ∈ m.assignments.entries, m.isEntity a.2

def AssignsEntities (m : Model) : Prop := ∀ a ∈ m.assignments.entries, m.isEntity a.2

theorem AssignsEntities.assign {m : Model} (h : m.AssignsEntities) (index : Int) {entity : Name}
    (he : m.isEntity entity) : (m.assign index entity).AssignsEntities := by
  intro a ha
  rcases SortedMap.mem_of_mem_entries_insert ha with rfl | hold
  · exact he
  · exact h a hold

theorem IsProper.assign {m : Model} (h : m.IsProper) (index : Int) {entity : Name} (he : m.isEntity entity) :
    (m.assign index entity).IsProper :=
  ⟨h.isTextual, h.nodup_entities, h.nodup_events, AssignsEntities.assign h.isEntity_of_mem index he⟩

section Reading
variable {fails : ModelError → Prop} {value : Json}

theorem yields_readElements {kind : Json → Bool} (h : value.elementsAre kind) :
    Yields (fun items => ∀ item ∈ items, kind item) fails (readElements value) := by
  obtain ⟨items, hitems, hall⟩ := Json.exists_of_elementsAre h
  rw [readElements, hitems]
  exact hall

theorem yields_readName (h : value.isText) : Yields (fun name => name.isText) fails (readName value) := by
  obtain ⟨s, rfl⟩ := Json.exists_of_isText h
  rfl

theorem yields_readNames (h : value.isTexts) :
    Yields (fun names => ∀ name ∈ names, name.isText) fails (readNames value) :=
  (yields_readElements h).bind fun _ hitems => .mapM fun item hitem => yields_readName (hitems item hitem)

theorem yields_readMembers {kind : Json → Bool} (h : value.membersAre kind) :
    Yields (fun members => ∀ m ∈ members, kind m.2) fails (readMembers value) := by
  rcases Bool.or_eq_true_iff.mp h with hobject | hempty
  · obtain ⟨members, rfl, hmembers⟩ := Json.exists_of_isObjectOf hobject
    exact hmembers
  · unfold readMembers
    split
    · rw [List.isEmpty_iff.mp hempty]
      exact fun m hm => nomatch hm
    · rw [if_pos hempty]
      exact fun m hm => nomatch hm

theorem yields_readPredicate {predicate : Text × Json} (h : predicate.2.isTexts) :
    Yields (fun made => ∀ name ∈ made.2.elements, name.isText) fails (readPredicate predicate) :=
  (yields_readNames h).bind fun _ hnames name hname => hnames name (SortedSet.mem_of_mem_elements_ofList hname)

/-- A pair fails only for the number of its parts. -/
theorem yields_readParticipation (h : value.isTexts) :
    Yields (fun p => p.event.isText ∧ p.bearer.isText) (fun e => e.message?.isSome) (readParticipation value) := by
  refine (yields_readElements h).bind fun items hitems => ?_
  split
  · obtain ⟨hevent, hbearer, -⟩ := List.forall_mem_cons.mp hitems |>.imp_right List.forall_mem_cons.mp
    exact (yields_readName hevent).bind fun event hevent =>
      (yields_readName hbearer).bind fun bearer hbearer => ⟨hevent, hbearer⟩
  · rfl

theorem yields_readRelation {relation : Text × Json} (h : relation.2.elementsAre Json.isTexts) :
    Yields (fun made => ∀ p ∈ made.2.elements, p.event.isText ∧ p.bearer.isText) (fun e => e.message?.isSome)
      (readRelation relation) := by
  refine (yields_readElements h).bind fun pairs hpairs => ?_
  refine (Yields.mapM fun pair hpair => yields_readParticipation (hpairs pair hpair)).bind ?_
  exact fun made hmade p hp => hmade p (SortedSet.mem_of_mem_elements_ofList hp)

theorem yields_readAssignment (entities : List Name) (a : Name × Json) :
    Yields (fun made => entities.any (Name.same made.2)) (fun e => e.message?.isSome)
      (readAssignment entities a) := by
  unfold readAssignment
  split
  · rfl
  · split
    · assumption
    · rfl
  · rfl

theorem yields_ofDescription {d : ModelDescription} (h : d.isTextual) :
    Yields IsProper (fun e => e.message?.isSome) (ofDescription d) := by
  simp only [ModelDescription.isTextual, Bool.and_eq_true] at h
  obtain ⟨⟨⟨⟨hentities, hevents⟩, hpredicates⟩, hrelations⟩, -⟩ := h
  refine (yields_readNames hentities).bind fun entities hentities => ?_
  refine (yields_readNames hevents).bind fun events hevents => ?_
  refine (yields_readMembers hpredicates).bind fun members hmembers => ?_
  refine (Yields.mapM fun m hm => yields_readPredicate (hmembers m hm)).bind fun predicates hpredicates => ?_
  refine (yields_readMembers hrelations).bind fun members hmembers => ?_
  refine (Yields.mapM fun m hm => yields_readRelation (hmembers m hm)).bind fun relations hrelations => ?_
  refine (Yields.mapM fun a _ => yields_readAssignment (Name.distinct entities) a).bind fun read hread => ?_
  refine ⟨isTextual_iff.mpr ⟨?_, ?_, ?_, ?_⟩, Name.nodup_distinct entities, Name.nodup_distinct events, ?_⟩
  · exact fun name hname => hentities name (Name.mem_of_mem_distinct hname)
  · exact fun name hname => hevents name (Name.mem_of_mem_distinct hname)
  · exact fun entry hentry => hpredicates entry (SortedMap.mem_of_mem_entries_ofList hentry)
  · exact fun entry hentry => hrelations entry (SortedMap.mem_of_mem_entries_ofList hentry)
  · exact fun a ha => hread a (SortedMap.mem_of_mem_entries_ofList ha)

theorem yields_decodePair (relation : Text) (h : value.isPairOfTexts) :
    Yields (fun pair => pair.isTexts) (fun e => e.message?.isSome) (decodePair relation value) := by
  unfold Json.isPairOfTexts at h
  split at h
  · cases h
  · rename_i members hitems
    have hlength : ¬members.length = 2 := by simpa using h
    simp only [decodePair, hlength, if_false]
    rfl
  · rename_i parts hobject hparts
    unfold decodePair
    simp only [hparts]
    by_cases hlength : parts.length = 2
    · have htexts : parts.all Json.isText := by simpa [hlength] using h
      simp only [hlength, if_true]
      exact htexts
    · simp only [hlength, if_false]
      rfl

theorem yields_decodeIndex (entry : Text × Json) :
    Yields (fun a => ∃ index, a.1 = .int index) (fun e => e.message?.isSome) (decodeIndex entry) := by
  unfold decodeIndex
  split
  · exact ⟨_, rfl⟩
  · rfl

theorem yields_decodeRelation {entry : Text × Json} (h : entry.2.elementsAre Json.isPairOfTexts) :
    Yields (fun made => made.2.elementsAre Json.isTexts) (fun e => e.message?.isSome) (decodeRelation entry) := by
  refine (yields_readElements h).bind fun pairs hpairs => ?_
  refine (Yields.mapM fun pair hpair => yields_decodePair entry.1 (hpairs pair hpair)).bind ?_
  exact fun made hmade => List.all_eq_true.mpr hmade

theorem yields_decodeMembers {kind : Json → Bool} {members : List (Text × Json)} {key : Text}
    (h : (Json.member? members key).all (Json.isObjectOf kind)) :
    Yields (fun found => ∀ entry ∈ found, kind entry.2) fails (decodeMembers members key) := by
  unfold decodeMembers
  cases hpart : Json.member? members key with
  | none => exact fun entry hentry => nomatch hentry
  | some part =>
    rw [hpart] at h
    obtain ⟨found, rfl, hfound⟩ := Json.exists_of_isObjectOf h
    exact hfound

/-- A described document is read as a proper model, or there is an error with a message. -/
theorem yields_ofDocument {document : Json} (h : document.describesModel) :
    Yields IsProper (fun e => e.message?.isSome) (ofDocument document) := by
  have hpart {part? : Option Json} {kind : Json → Bool} {missing : Json} (hpart : part?.all kind)
      (hmissing : kind missing) : kind (part?.getD missing) := by
    cases part? with
    | none => exact hmissing
    | some part => exact hpart
  unfold Json.describesModel at h
  split at h
  · rename_i members
    simp only [Bool.and_eq_true] at h
    obtain ⟨⟨⟨⟨hentities, hevents⟩, hassignments⟩, hpredicates⟩, hrelations⟩ := h
    rw [ofDocument]
    refine (yields_decodeMembers hassignments).bind fun entries _ => ?_
    refine (Yields.mapM fun entry _ => yields_decodeIndex entry).bind fun assignments hindices => ?_
    refine (yields_decodeMembers hrelations).bind fun entries hentries => ?_
    refine (Yields.mapM fun entry hentry => yields_decodeRelation (hentries entry hentry)).bind ?_
    intro relations hrelations
    refine yields_ofDescription ?_
    simp only [ModelDescription.isTextual, Bool.and_eq_true]
    refine ⟨⟨⟨⟨hpart hentities rfl, hpart hevents rfl⟩, hpart hpredicates rfl⟩, ?_⟩, ?_⟩
    · exact Bool.or_eq_true_iff.mpr (.inl (List.all_eq_true.mpr hrelations))
    · refine List.all_eq_true.mpr fun a ha => ?_
      obtain ⟨index, hindex⟩ := hindices a ha
      simp only [hindex]
  · cases h

/-- Assignments are checked in any model that is read, whatever the types of its names are. -/
theorem assignsEntities_of_ofDescription {d : ModelDescription} {m : Model} (h : ofDescription d = .ok m) :
    m.AssignsEntities := by
  obtain ⟨entities, -, h⟩ := exists_of_bind_eq_ok h
  obtain ⟨events, -, h⟩ := exists_of_bind_eq_ok h
  obtain ⟨_, -, h⟩ := exists_of_bind_eq_ok h
  obtain ⟨predicates, -, h⟩ := exists_of_bind_eq_ok h
  obtain ⟨_, -, h⟩ := exists_of_bind_eq_ok h
  obtain ⟨relations, -, h⟩ := exists_of_bind_eq_ok h
  obtain ⟨read, hread, h⟩ := exists_of_bind_eq_ok h
  cases h
  have hentities := (Yields.mapM fun a _ => yields_readAssignment (Name.distinct entities) a).gives hread
  exact fun a ha => hentities a (SortedMap.mem_of_mem_entries_ofList ha)

theorem assignsEntities_of_ofDocument {document : Json} {m : Model} (h : ofDocument document = .ok m) :
    m.AssignsEntities := by
  unfold ofDocument at h
  split at h
  · obtain ⟨_, -, h⟩ := exists_of_bind_eq_ok h
    obtain ⟨_, -, h⟩ := exists_of_bind_eq_ok h
    obtain ⟨_, -, h⟩ := exists_of_bind_eq_ok h
    obtain ⟨_, -, h⟩ := exists_of_bind_eq_ok h
    exact assignsEntities_of_ofDescription h
  · cases h

end Reading

end Model

end Models

section Grammars

theorem Formula.isWritable_of_denotes {level : Level} {s : Text} {f : Formula} (h : Denotes level s f) :
    f.isWritable := by
  induction h with
  | brackets _ ih | close _ _ ih | trimmed _ _ _ ih => exact ih
  | role hr _ _ ih => cases hr <;> exact ih
  | quoted | var | existential | universal | bare | blank => rfl
  | and _ _ _ _ _ ihl ihr => exact Bool.and_eq_true_iff.mpr ⟨ihl, ihr⟩

theorem Formula.isWritable_of_read {s : Text} {f : Formula} (h : read s = .ok f) : f.isWritable :=
  isWritable_of_denotes (denotes_of_read h)

/-- An entry by types. Without features it is refused, whatever else it has, and so is what is no entry. -/
def Json.describesEntry : Json → Bool
  | .obj members =>
    match member? members "token", member? members "features" with
    | some token, some features =>
      features.isEmpty || (token.isText && features.isText && (member? members "meaning").all isText)
    | _, _ => true
  | _ => true

def Json.describesGrammar : Json → Bool
  | .obj members =>
    (member? members "lexicon").all (elementsAre describesEntry) && (member? members "start_symbols").all isTexts
  | _ => false

def LexicalEntry.isWellFormed (entry : LexicalEntry) : Bool :=
  entry.token.isText && entry.meaning.isWritable &&
    match entry.features with
    | .features _ => true
    | .values _ => false

/-- All entries are well-formed, and the start symbols are texts. -/
def Lexicon.IsWellFormed (l : Lexicon) : Prop :=
  (∀ entry ∈ l.entries, entry.isWellFormed) ∧ ∀ symbol ∈ l.startSymbols.elements, symbol.isText

instance (l : Lexicon) : Decidable l.IsWellFormed := inferInstanceAs (Decidable (_ ∧ _))

namespace LexicalEntry
theorem yields_readMeaning (meaning : Json) :
    Yields (fun f => meaning.isText → f.isWritable) (fun e => e.message?.isSome) (readMeaning meaning) := by
  unfold readMeaning
  split
  · rename_i s
    cases hread : Formula.read s with
    | ok f => exact fun _ => Formula.isWritable_of_read hread
    | error e => rfl
  · rename_i htext
    intro h
    obtain ⟨s, rfl⟩ := Json.exists_of_isText h
    exact absurd rfl (htext s)

theorem yields_readFeatures? (features : Json) :
    Yields (fun read? => (features.isText → read?.isSome) ∧ (features.isEmpty → read?.all (· = [])))
      (fun e => e.message?.isSome) (readFeatures? features) := by
  unfold readFeatures?
  split
  · rename_i s
    cases hread : Feature.readList s with
    | error e => rfl
    | ok read =>
      refine ⟨fun _ => rfl, fun hempty => ?_⟩
      have hs : s = [] := of_decide_eq_true hempty
      rw [hs] at hread
      cases hread
      rfl
  · rename_i htext
    refine ⟨fun h => ?_, fun _ => rfl⟩
    obtain ⟨s, rfl⟩ := Json.exists_of_isText h
    exact absurd rfl (htext s)

theorem yields_ofParts_of_isEmpty (token : Json) {features : Json} (h : features.isEmpty) (meaning : Json) :
    Yields (fun entry => entry.isWellFormed) (fun e => e.message?.isSome) (ofParts token features meaning) := by
  refine (yields_readFeatures? features).bind fun read? hread => ?_
  refine (yields_readMeaning meaning).bind fun f _ => ?_
  match read?, hread.2 h with
  | none, _ =>
    simp only [h, if_true]
    rfl
  | some [], _ => rfl

theorem yields_ofParts {token features meaning : Json} (htoken : token.isText) (hfeatures : features.isText)
    (hmeaning : meaning.isText) :
    Yields (fun entry => entry.isWellFormed) (fun e => e.message?.isSome) (ofParts token features meaning) := by
  refine (yields_readFeatures? features).bind fun read? hread => ?_
  refine (yields_readMeaning meaning).bind fun f hf => ?_
  match read?, hread.1 hfeatures with
  | some [], _ => rfl
  | some (feature :: rest), _ =>
    have hmade : isWellFormed ⟨token, .features (feature :: rest), f⟩ := by
      simp [isWellFormed, htoken, hf hmeaning]
    exact hmade

theorem yields_ofDocument {entry : Json} (h : entry.describesEntry) :
    Yields (fun made => made.isWellFormed) (fun e => e.message?.isSome) (ofDocument entry) := by
  cases entry with
  | scalar | arr => rfl
  | obj members =>
    simp only [Json.describesEntry] at h
    simp only [ofDocument]
    cases htoken : Json.member? members "token" with
    | none => rfl
    | some token =>
      cases hfeatures : Json.member? members "features" with
      | none => rfl
      | some features =>
        simp only [htoken, hfeatures, Bool.or_eq_true, Bool.and_eq_true] at h
        rcases h with hempty | ⟨⟨htoken, hfeatures⟩, hmeaning⟩
        · exact yields_ofParts_of_isEmpty token hempty _
        · refine yields_ofParts htoken hfeatures ?_
          cases hfound : Json.member? members "meaning" with
          | none => rfl
          | some meaning =>
            rw [hfound] at hmeaning
            exact hmeaning

end LexicalEntry

namespace Lexicon
variable {fails : GrammarError → Prop}

theorem yields_decodeCollection {kind : Json → Bool} {members : List (Text × Json)} {key : Text}
    (h : (Json.member? members key).all (Json.elementsAre kind)) :
    Yields (fun items => ∀ item ∈ items, kind item) fails (decodeCollection members key) := by
  unfold decodeCollection
  cases hpart : Json.member? members key with
  | none => exact fun item hitem => nomatch hitem
  | some part =>
    rw [hpart] at h
    obtain ⟨items, hitems, hall⟩ := Json.exists_of_elementsAre h
    rw [Option.getD_some, hitems]
    exact hall

theorem yields_ofParts {entries : List LexicalEntry} (hentries : ∀ entry ∈ entries, entry.isWellFormed)
    {symbols : List Json} (hsymbols : ∀ symbol ∈ symbols, symbol.isText) :
    Yields IsWellFormed fails (ofParts entries symbols) := by
  obtain ⟨texts, rfl⟩ := Json.exists_of_forall_isText hsymbols
  have hread : (texts.map Json.str).mapM Json.scalar? = some (texts.map .text) :=
    mapM_map_eq_pure_map fun _ _ => rfl
  have htexts : ∀ symbol ∈ (SortedSet.ofList (texts.map Json.Scalar.text)).elements, Name.isText symbol := by
    intro symbol hsymbol
    obtain ⟨s, -, rfl⟩ := List.mem_map.mp (SortedSet.mem_of_mem_elements_ofList hsymbol)
    rfl
  rw [ofParts, hread]
  simp only [Name.haveOrder_of_isText htexts, if_true]
  exact ⟨hentries, htexts⟩

/-- A described document is read as a well-formed lexicon, or there is an error with a message. -/
theorem yields_ofDocument {document : Json} (h : document.describesGrammar) :
    Yields IsWellFormed (fun e => e.message?.isSome) (ofDocument document) := by
  unfold Json.describesGrammar at h
  split at h
  · rename_i members
    obtain ⟨hlexicon, hsymbols⟩ := Bool.and_eq_true_iff.mp h
    refine (yields_decodeCollection hlexicon).bind fun items hitems => ?_
    refine (Yields.mapM fun item hitem => LexicalEntry.yields_ofDocument (hitems item hitem)).bind ?_
    exact fun entries hentries => (yields_decodeCollection hsymbols).bind fun symbols h => yields_ofParts hentries h
  · cases h

end Lexicon

end Grammars

end MinimalistGrammar
