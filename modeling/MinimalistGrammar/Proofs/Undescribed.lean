import Mathlib.Data.List.Forall2
import MinimalistGrammar.Proofs.DocumentTypes

/-! Documents with parts of other types than those described: nothing well-formed is read from them. What is read
keeps a trace of every part, up to values that count as one, and a text counts as one with no other value. -/
namespace MinimalistGrammar

theorem forall_mem_of_forall₂ {α β : Type} {p : α → Prop} {q : β → Prop} {s : List α} {t : List β}
    (h : List.Forall₂ (fun a b => q b → p a) s t) (ht : ∀ b ∈ t, q b) : ∀ a ∈ s, p a := by
  induction h with
  | nil => exact fun a ha => nomatch ha
  | cons hab _ ih =>
    obtain ⟨hb, ht⟩ := List.forall_mem_cons.mp ht
    exact List.forall_mem_cons.mpr ⟨hab hb, ih ht⟩

theorem Yields.mapM_forall₂ {ε α β : Type} {r : β → α → Prop} {fails : ε → Prop} {s : List β}
    {next : β → Except ε α} (h : ∀ b ∈ s, Yields (r b) fails (next b)) :
    Yields (List.Forall₂ r s) fails (s.mapM next) := by
  induction s with
  | nil => exact .nil
  | cons b s ih =>
    obtain ⟨hb, hs⟩ := List.forall_mem_cons.mp h
    rw [List.mapM_cons]
    exact hb.bind fun a ha => (ih hs).bind fun made hmade => .cons ha hmade

namespace Name

theorem isText_of_same {a b : Name} (h : same a b) (hb : b.isText) : a.isText := by
  obtain ⟨s, rfl⟩ := exists_of_isText hb
  rw [same_text_iff.mp h]
  rfl

theorem exists_same_of_mem {names : List Name} {name : Name} (h : name ∈ names) :
    ∃ kept ∈ distinct names, same name kept := by
  induction names using induction_distinct with
  | nil => cases h
  | cons first rest ih =>
    rw [distinct_cons]
    by_cases hfirst : same name first
    · exact ⟨first, List.mem_cons_self, hfirst⟩
    · have hrest : name ∈ rest := (List.mem_cons.mp h).resolve_left fun heq => hfirst (heq ▸ same_self name)
      obtain ⟨kept, hkept, hsame⟩ := ih (List.mem_filter.mpr ⟨hrest, by simpa using hfirst⟩)
      exact ⟨kept, List.mem_cons_of_mem first hkept, hsame⟩

theorem isText_of_distinct {names : List Name} (h : ∀ name ∈ distinct names, name.isText) :
    ∀ name ∈ names, name.isText := by
  intro name hname
  obtain ⟨kept, hkept, hsame⟩ := exists_same_of_mem hname
  exact isText_of_same hsame (h kept hkept)

theorem isText_of_ofList {names : List Name} (h : ∀ name ∈ (SortedSet.ofList names).elements, name.isText) :
    ∀ name ∈ names, name.isText := by
  intro name hname
  obtain ⟨kept, hkept, heq⟩ := SortedSet.exists_of_mem hname
  exact isText_of_same (decide_eq_true heq) (h kept hkept)

end Name

/-- Pairs count as one if their events do and their bearers do. -/
theorem Participation.isText_of_ofList {pairs : List Participation}
    (h : ∀ p ∈ (SortedSet.ofList pairs).elements, p.event.isText ∧ p.bearer.isText) :
    ∀ p ∈ pairs, p.event.isText ∧ p.bearer.isText := by
  intro p hp
  obtain ⟨kept, hkept, heq⟩ := SortedSet.exists_of_mem hp
  obtain ⟨hevent, hbearer⟩ := compareLex_eq_eq.mp heq
  exact (h kept hkept).imp (Name.isText_of_same (decide_eq_true hevent))
    (Name.isText_of_same (decide_eq_true hbearer))

namespace Json

def hasDistinctKeys : Json → Bool
  | .obj members => (members.map (·.1)).Nodup
  | _ => true

/-- No object that is a member of the document has two members with one key. -/
def partsHaveDistinctKeys : Json → Bool
  | .obj members => members.all (hasDistinctKeys ·.2)
  | _ => true

theorem hasDistinctKeys_of_member? {members : List (Text × Json)} (h : (obj members).partsHaveDistinctKeys)
    {key : Text} {part : Json} (hpart : member? members key = some part) : part.hasDistinctKeys := by
  obtain ⟨m, hm, rfl⟩ := Option.map_eq_some_iff.mp hpart
  exact List.all_eq_true.mp h m (List.mem_of_find?_eq_some hm)

theorem elementsAre_of_elements? {kind : Json → Bool} {value : Json} {items : List Json}
    (h : value.elements? = some items) (hitems : ∀ item ∈ items, kind item) : value.elementsAre kind := by
  rw [elementsAre, h, Option.any_some]
  exact List.all_eq_true.mpr hitems

theorem membersAre_obj {kind : Json → Bool} {members : List (Text × Json)} :
    (obj members).membersAre kind ↔ ∀ m ∈ members, kind m.2 := by
  rw [membersAre, Bool.or_eq_true]
  refine ⟨fun h => h.elim List.all_eq_true.mp fun hempty => ?_, fun h => .inl (List.all_eq_true.mpr h)⟩
  rw [List.isEmpty_iff.mp hempty]
  exact fun m hm => nomatch hm

theorem eq_map_of_mapM_scalar? {values : List Json} {names : List Name} (h : values.mapM scalar? = some names) :
    values = names.map .scalar := by
  induction values generalizing names with
  | nil =>
    cases h
    rfl
  | cons value values ih =>
    rw [List.mapM_cons] at h
    obtain ⟨name, hname, h⟩ := Option.bind_eq_some_iff.mp h
    obtain ⟨rest, hrest, h⟩ := Option.bind_eq_some_iff.mp h
    cases h
    cases value with
    | scalar found =>
      cases hname
      rw [ih hrest, List.map_cons]
    | arr | obj => cases hname

end Json

section Grammars

namespace LexicalEntry

theorem isText_of_readFeatures? (features : Json) :
    Yields (fun read? => read?.isSome → features.isText) (fun _ => True) (readFeatures? features) := by
  unfold readFeatures?
  split
  · exact .of_forall_eq_ok fun _ _ _ => rfl
  · exact fun h => nomatch h

theorem isText_of_readMeaning (meaning : Json) :
    Yields (fun f => f.isWritable → meaning.isText) (fun _ => True) (readMeaning meaning) := by
  unfold readMeaning
  split
  · exact .of_forall_eq_ok fun _ _ _ => rfl
  · exact fun h => nomatch h

theorem isText_of_ofParts (token features meaning : Json) :
    Yields (fun made => made.isWellFormed → token.isText ∧ features.isText ∧ meaning.isText) (fun _ => True)
      (ofParts token features meaning) := by
  refine (isText_of_readFeatures? features).bind fun read? hfeatures => ?_
  refine (isText_of_readMeaning meaning).bind fun f hmeaning => ?_
  split
  · trivial
  · intro h
    simp only [isWellFormed, Bool.and_eq_true] at h
    exact ⟨h.1.1, hfeatures rfl, hmeaning h.1.2⟩
  · split
    · trivial
    · split
      · intro h
        simp [isWellFormed] at h
      · trivial

theorem describesEntry_of_ofDocument (entry : Json) :
    Yields (fun made => made.isWellFormed → entry.describesEntry) (fun _ => True) (ofDocument entry) := by
  unfold ofDocument
  split
  · split
    · rename_i members _ _ token features htoken hfeatures
      refine (isText_of_ofParts token features _).imp fun made hparts h => ?_
      obtain ⟨htext, hlist, hmeaning⟩ := hparts h
      simp only [Json.describesEntry, htoken, hfeatures, htext, hlist, Bool.true_and, Bool.or_eq_true]
      refine .inr ?_
      cases hpart : Json.member? members "meaning" with
      | none => rfl
      | some meaning =>
        rw [hpart] at hmeaning
        exact hmeaning
    · trivial
  · trivial

end LexicalEntry

namespace Lexicon

theorem elementsAre_of_decodeCollection (members : List (Text × Json)) (key : Text) :
    Yields (fun items => ∀ kind : Json → Bool, (∀ item ∈ items, kind item) →
      (Json.member? members key).all (Json.elementsAre kind)) (fun _ => True) (decodeCollection members key) := by
  unfold decodeCollection
  cases Json.member? members key with
  | none => exact fun _ _ => rfl
  | some part =>
    cases hitems : part.elements? with
    | none => simp [hitems, Yields]
    | some items =>
      simp only [Option.getD_some, hitems, Option.elim_some]
      exact fun kind h => Json.elementsAre_of_elements? hitems h

theorem isText_of_startSymbols (entries : List LexicalEntry) (symbols : List Json) :
    Yields (fun l => l.entries = entries ∧
      ((∀ symbol ∈ l.startSymbols.elements, symbol.isText) → ∀ symbol ∈ symbols, symbol.isText)) (fun _ => True)
      (ofParts entries symbols) := by
  unfold ofParts
  split
  · trivial
  · rename_i names hnames
    dsimp only
    split
    · refine ⟨rfl, fun h => ?_⟩
      rw [Json.eq_map_of_mapM_scalar? hnames]
      refine List.forall_mem_map.mpr fun name hname => ?_
      obtain ⟨s, rfl⟩ := Name.exists_of_isText (Name.isText_of_ofList h name hname)
      rfl
    · trivial

theorem describesGrammar_of_isWellFormed {document : Json} {l : Lexicon} (h : ofDocument document = .ok l)
    (hl : l.IsWellFormed) : document.describesGrammar := by
  unfold ofDocument at h
  split at h
  · rename_i members
    obtain ⟨items, hitems, h⟩ := exists_of_bind_eq_ok h
    obtain ⟨entries, hentries, h⟩ := exists_of_bind_eq_ok h
    obtain ⟨symbols, hsymbols, h⟩ := exists_of_bind_eq_ok h
    obtain ⟨rfl, htexts⟩ := (isText_of_startSymbols entries symbols).gives h
    have hdescribed : ∀ item ∈ items, item.describesEntry := forall_mem_of_forall₂
      ((Yields.mapM_forall₂ fun item _ => LexicalEntry.describesEntry_of_ofDocument item).gives hentries) hl.1
    refine Bool.and_eq_true_iff.mpr ⟨?_, ?_⟩
    · exact (elementsAre_of_decodeCollection members "lexicon").gives hitems _ hdescribed
    · exact (elementsAre_of_decodeCollection members "start_symbols").gives hsymbols _ (htexts hl.2)
  · cases h

end Lexicon

end Grammars

section Models

namespace Model
variable (value : Json)

theorem isText_of_readName : Yields (fun name => name.isText → value.isText) (fun _ => True) (readName value) := by
  cases value with
  | scalar name =>
    intro h
    obtain ⟨s, rfl⟩ := Name.exists_of_isText h
    rfl
  | arr | obj => trivial

theorem elements?_of_readElements :
    Yields (fun items => value.elements? = some items) (fun _ => True) (readElements value) := by
  unfold readElements
  cases hitems : value.elements? with
  | none => trivial
  | some items => rfl

theorem isTexts_of_readNames :
    Yields (fun names => (∀ name ∈ names, name.isText) → value.isTexts) (fun _ => True) (readNames value) := by
  refine (elements?_of_readElements value).bind fun items hitems => ?_
  refine (Yields.mapM_forall₂ fun item _ => isText_of_readName item).imp fun names hnames h => ?_
  exact Json.elementsAre_of_elements? hitems (forall_mem_of_forall₂ hnames h)

theorem membersAre_of_readMembers :
    Yields (fun members => (value.hasDistinctKeys → (members.map (·.1)).Nodup) ∧
      ∀ kind : Json → Bool, (∀ m ∈ members, kind m.2) → value.membersAre kind) (fun _ => True)
      (readMembers value) := by
  unfold readMembers
  split
  · refine ⟨of_decide_eq_true, fun kind h => ?_⟩
    exact Bool.or_eq_true_iff.mpr (.inl (List.all_eq_true.mpr h))
  · split
    · rename_i hempty
      exact ⟨fun _ => .nil, fun kind _ => Bool.or_eq_true_iff.mpr (.inr hempty)⟩
    · trivial

theorem isTexts_of_readPredicate (predicate : Text × Json) :
    Yields (fun made => made.1 = predicate.1 ∧ ((∀ name ∈ made.2.elements, name.isText) → predicate.2.isTexts))
      (fun _ => True) (readPredicate predicate) :=
  (isTexts_of_readNames predicate.2).bind fun _ hnames => ⟨rfl, fun h => hnames (Name.isText_of_ofList h)⟩

theorem isTexts_of_readParticipation :
    Yields (fun p => p.event.isText ∧ p.bearer.isText → value.isTexts) (fun _ => True)
      (readParticipation value) := by
  refine (elements?_of_readElements value).bind fun items hitems => ?_
  split
  · rename_i event bearer
    refine (isText_of_readName event).bind fun _ hevent => (isText_of_readName bearer).bind fun _ hbearer h => ?_
    exact Json.elementsAre_of_elements? hitems (by simp [hevent h.1, hbearer h.2])
  · trivial

theorem elementsAre_of_readRelation (relation : Text × Json) :
    Yields (fun made => made.1 = relation.1 ∧
      ((∀ p ∈ made.2.elements, p.event.isText ∧ p.bearer.isText) → relation.2.elementsAre Json.isTexts))
      (fun _ => True) (readRelation relation) := by
  refine (elements?_of_readElements relation.2).bind fun items hitems => ?_
  refine (Yields.mapM_forall₂ fun item _ => isTexts_of_readParticipation item).bind fun made hmade => ?_
  refine ⟨rfl, fun h => Json.elementsAre_of_elements? hitems ?_⟩
  exact forall_mem_of_forall₂ hmade (Participation.isText_of_ofList h)

section
variable {ν : Type} {members : List (Text × Json)} {made : List (Text × ν)}

theorem keys_eq_of_forall₂ (h : List.Forall₂ (fun m e => e.1 = m.1) members made) :
    made.map (·.1) = members.map (·.1) := by
  rw [eq_comm, ← List.forall₂_eq_eq_eq, List.forall₂_map_left_iff, List.forall₂_map_right_iff]
  exact h.imp fun _ _ h => h.symm

/-- With distinct keys every member of an object has its entry in the map that is made of it. -/
theorem forall_mem_of_ofList {p : Text × Json → Prop} {q : ν → Prop}
    (h : List.Forall₂ (fun m e => e.1 = m.1 ∧ (q e.2 → p m)) members made) (hkeys : (members.map (·.1)).Nodup)
    (hmade : ∀ e ∈ (SortedMap.ofList made).entries, q e.2) : ∀ m ∈ members, p m := by
  have hsame := keys_eq_of_forall₂ (h.imp fun _ _ h => h.1)
  refine forall_mem_of_forall₂ (h.imp fun _ _ h => h.2) fun e he => hmade e ?_
  exact SortedMap.mem_entries_ofList (hsame ▸ hkeys) he

end

theorem isTexts_of_ofDescription {d : ModelDescription}
    (hdistinct : d.predicates.hasDistinctKeys ∧ d.relations.hasDistinctKeys) :
    Yields (fun m => m.IsTextual → d.entities.isTexts ∧ d.events.isTexts ∧ d.predicates.membersAre Json.isTexts ∧
      d.relations.membersAre (Json.elementsAre Json.isTexts)) (fun _ => True) (ofDescription d) := by
  refine (isTexts_of_readNames d.entities).bind fun entities hentities => ?_
  refine (isTexts_of_readNames d.events).bind fun events hevents => ?_
  refine (membersAre_of_readMembers d.predicates).bind fun members hkinds => ?_
  refine (Yields.mapM_forall₂ fun m _ => isTexts_of_readPredicate m).bind fun predicates hpredicates => ?_
  refine (membersAre_of_readMembers d.relations).bind fun members hkinds' => ?_
  refine (Yields.mapM_forall₂ fun m _ => elementsAre_of_readRelation m).bind fun relations hrelations => ?_
  refine (Yields.trivially _).bind fun _ _ h => ?_
  obtain ⟨hentities', hevents', hpredicates', hrelations'⟩ := isTextual_iff.mp h
  refine ⟨hentities (Name.isText_of_distinct hentities'), hevents (Name.isText_of_distinct hevents'), ?_, ?_⟩
  · let q (s : SortedSet Name) : Prop := ∀ name ∈ s.elements, name.isText
    exact hkinds.2 _ (forall_mem_of_ofList (q := q) hpredicates (hkinds.1 hdistinct.1) hpredicates')
  · let q (s : SortedSet Participation) : Prop := ∀ p ∈ s.elements, p.event.isText ∧ p.bearer.isText
    exact hkinds'.2 _ (forall_mem_of_ofList (q := q) hrelations (hkinds'.1 hdistinct.2) hrelations')

theorem isPairOfTexts_of_decodePair (relation : Text) (pair : Json) :
    Yields (fun made => made.isTexts → pair.isPairOfTexts) (fun _ => True) (decodePair relation pair) := by
  unfold decodePair
  split
  · trivial
  · trivial
  · rename_i parts hobject hparts
    split
    · intro h
      unfold Json.isPairOfTexts
      simp only [hparts]
      exact Bool.or_eq_true_iff.mpr (.inr h)
    · trivial

theorem elementsAre_of_decodeRelation (entry : Text × Json) :
    Yields (fun made => made.1 = entry.1 ∧
      (made.2.elementsAre Json.isTexts → entry.2.elementsAre Json.isPairOfTexts)) (fun _ => True)
      (decodeRelation entry) := by
  refine (elements?_of_readElements entry.2).bind fun pairs hpairs => ?_
  refine (Yields.mapM_forall₂ fun pair _ => isPairOfTexts_of_decodePair entry.1 pair).bind ?_
  refine fun made hmade => ⟨rfl, fun h => Json.elementsAre_of_elements? hpairs ?_⟩
  exact forall_mem_of_forall₂ hmade (List.all_eq_true.mp h)

theorem isObjectOf_of_decodeMembers (members : List (Text × Json)) (key : Text) :
    Yields (fun found => (((Json.member? members key).getD (.obj [])).hasDistinctKeys → (found.map (·.1)).Nodup) ∧
      ∀ kind : Json → Bool, (∀ m ∈ found, kind m.2) → (Json.member? members key).all (Json.isObjectOf kind))
      (fun _ => True) (decodeMembers members key) := by
  unfold decodeMembers
  cases Json.member? members key with
  | none => exact ⟨fun _ => .nil, fun _ _ => rfl⟩
  | some part =>
    cases part with
    | obj found => exact ⟨of_decide_eq_true, fun _ h => List.all_eq_true.mpr h⟩
    | scalar | arr => trivial

theorem describesModel_of_ofDocument {document : Json} (hkeys : document.partsHaveDistinctKeys) :
    Yields (fun m => m.IsTextual → document.describesModel) (fun _ => True) (ofDocument document) := by
  unfold ofDocument
  split
  · rename_i members
    have hdistinct (key : Text) : ((Json.member? members key).getD (.obj [])).hasDistinctKeys := by
      cases hpart : Json.member? members key with
      | none => rfl
      | some part => exact Json.hasDistinctKeys_of_member? hkeys hpart
    have hstated {part? : Option Json} {kind : Json → Bool} {missing : Json} (h : kind (part?.getD missing)) :
        part?.all kind := by
      cases part? with
      | none => rfl
      | some part => exact h
    refine (isObjectOf_of_decodeMembers members "assignments").bind fun entries hassignments => ?_
    refine (Yields.trivially _).bind fun assignments _ => ?_
    refine (isObjectOf_of_decodeMembers members "predicates2").bind fun entries hentries => ?_
    refine (Yields.mapM_forall₂ fun entry _ => elementsAre_of_decodeRelation entry).bind fun relations hmade => ?_
    have hkept := hmade.imp fun _ _ h => h.1
    have hkinds := hmade.imp fun _ _ h => h.2
    have hrelated : (Json.obj relations).hasDistinctKeys := by
      refine decide_eq_true ?_
      rw [keys_eq_of_forall₂ hkept]
      exact hentries.1 (hdistinct "predicates2")
    refine (isTexts_of_ofDescription ⟨hdistinct "predicates", hrelated⟩).imp fun m hm h => ?_
    obtain ⟨hentities, hevents, hpredicates, htexts⟩ := hm h
    simp only [Json.describesModel, Bool.and_eq_true]
    refine ⟨⟨⟨⟨hstated hentities, hstated hevents⟩, hassignments.2 _ fun _ _ => rfl⟩, hstated hpredicates⟩, ?_⟩
    exact hentries.2 _ (forall_mem_of_forall₂ hkinds (Json.membersAre_obj.mp htexts))
  · trivial

theorem describesModel_of_isTextual {document : Json} {m : Model} (h : ofDocument document = .ok m)
    (hkeys : document.partsHaveDistinctKeys) (hm : m.IsTextual) : document.describesModel :=
  (describesModel_of_ofDocument hkeys).gives h hm

end Model

end Models

end MinimalistGrammar
