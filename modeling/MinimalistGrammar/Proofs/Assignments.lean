import MinimalistGrammar.CommandLine.Sentence
import MinimalistGrammar.Proofs.Except
import MinimalistGrammar.Proofs.IntegerNotation
import MinimalistGrammar.Proofs.TruthConditions

/-! Assignments in writing: what a text states, why it cannot be assigned, and what comes of several texts one after the
other. All of them are assigned or none is, and of those for one index the last counts. -/
namespace MinimalistGrammar

namespace Assignment

/-- An integer stands before the first equals sign of the text and a name behind it, with blanks around each. -/
inductive States (text : Text) : Assignment → Prop where
  | intro {before after : Text} {index : Int} (htext : text = before ++ .char '=' :: after)
      (hfirst : .char '=' ∉ before) (hindex : Text.SpellsInteger (Text.trim before) index)
      (hentity : ¬Text.IsBlanks after) : States text ⟨index, Text.trim after⟩

/-- There is no equals sign, no name behind the first one, or no integer before it. -/
inductive Misstates (text : Text) : AssignmentError → Prop where
  | unsigned (h : .char '=' ∉ text) : Misstates text (.form text)
  | unnamed {before after : Text} (htext : text = before ++ .char '=' :: after) (hfirst : .char '=' ∉ before)
      (hentity : Text.IsBlanks after) : Misstates text (.form text)
  | unindexed {before after : Text} (htext : text = before ++ .char '=' :: after) (hfirst : .char '=' ∉ before)
      (hentity : ¬Text.IsBlanks after) (hindex : ∀ index, ¬Text.SpellsInteger (Text.trim before) index) :
      Misstates text (.index text)

variable {text : Text} {a : Assignment}

theorem states_or_misstates (text : Text) : (∃ a, States text a) ∨ ∃ e, Misstates text e := by
  by_cases hsign : .char '=' ∈ text
  · obtain ⟨before, after, htext, hfirst⟩ := List.eq_append_cons_of_mem hsign
    by_cases hentity : Text.IsBlanks after
    · exact .inr ⟨_, .unnamed htext hfirst hentity⟩
    · by_cases hindex : ∃ index, Text.SpellsInteger (Text.trim before) index
      · obtain ⟨index, hindex⟩ := hindex
        exact .inl ⟨_, .intro htext hfirst hindex hentity⟩
      · exact .inr ⟨_, .unindexed htext hfirst hentity (not_exists.mp hindex)⟩
  · exact .inr ⟨_, .unsigned hsign⟩

theorem cut_of_not_mem {before : Text} (hfirst : .char '=' ∉ before) (rest : Text)
    (hrest : ∀ c ∈ rest.head?, c = .char '=') : (before ++ rest).takeWhile (· ≠ .char '=') = before ∧
      (before ++ rest).dropWhile (· ≠ .char '=') = rest := by
  have hbefore : ∀ c ∈ before, decide (c ≠ .char '=') = true := by
    intro c hc
    refine decide_eq_true ?_
    rintro rfl
    exact hfirst hc
  rw [List.takeWhile_append_of_pos hbefore, List.dropWhile_append_of_pos hbefore]
  cases rest with
  | nil => simp
  | cons c rest => simp [hrest c rfl]

theorem States.ofText_eq (h : States text a) : ofText text = .ok a := by
  cases h with
  | @intro before after index htext hfirst hindex hentity =>
    obtain ⟨htake, hdrop⟩ := cut_of_not_mem hfirst (.char '=' :: after) (by simp)
    rw [← htext] at htake hdrop
    have hread := Text.readInteger?_trim_eq_some_iff.mpr hindex
    simp only [ofText, htake, hdrop, hread]
    exact if_neg (Text.trim_eq_nil_iff.not.mpr hentity)

theorem Misstates.ofText_eq {e : AssignmentError} (h : Misstates text e) : ofText text = .error e := by
  cases h with
  | unsigned h =>
    obtain ⟨-, hdrop⟩ := cut_of_not_mem h [] (by simp)
    rw [List.append_nil] at hdrop
    simp only [ofText, hdrop]
  | @unnamed before after htext hfirst hentity =>
    obtain ⟨-, hdrop⟩ := cut_of_not_mem hfirst (.char '=' :: after) (by simp)
    rw [← htext] at hdrop
    simp only [ofText, hdrop]
    exact if_pos (Text.trim_eq_nil_iff.mpr hentity)
  | @unindexed before after htext hfirst hentity hindex =>
    obtain ⟨htake, hdrop⟩ := cut_of_not_mem hfirst (.char '=' :: after) (by simp)
    rw [← htext] at htake hdrop
    have hread : Text.readInteger? (Text.trim before) = none :=
      Option.eq_none_iff_forall_ne_some.mpr fun index h => hindex index (Text.readInteger?_trim_eq_some_iff.mp h)
    simp only [ofText, htake, hdrop, hread]
    exact if_neg (Text.trim_eq_nil_iff.not.mpr hentity)

theorem States.unique {b : Assignment} (ha : States text a) (hb : States text b) : a = b :=
  Except.ok.inj (ha.ofText_eq.symm.trans hb.ofText_eq)

end Assignment

namespace Model
variable {m made : Model} {text : Text} {texts : List Text}

def Admits (m : Model) (text : Text) (a : Assignment) : Prop :=
  Assignment.States text a ∧ .text a.entity ∈ m.entities

inductive Rejects (m : Model) (text : Text) : AssignmentError → Prop where
  | misstated {e : AssignmentError} (h : Assignment.Misstates text e) : Rejects m text e
  | notAnEntity {a : Assignment} (h : Assignment.States text a) (hentity : .text a.entity ∉ m.entities) :
      Rejects m text (.notAnEntity a.index a.entity)

theorem admits_or_rejects (m : Model) (text : Text) : (∃ a, m.Admits text a) ∨ ∃ e, m.Rejects text e := by
  rcases Assignment.states_or_misstates text with ⟨a, ha⟩ | ⟨e, he⟩
  · by_cases hentity : .text a.entity ∈ m.entities
    · exact .inl ⟨a, ha, hentity⟩
    · exact .inr ⟨_, .notAnEntity ha hentity⟩
  · exact .inr ⟨e, .misstated he⟩

theorem Admits.assignText_eq {a : Assignment} (h : m.Admits text a) :
    m.assignText text = .ok (m.assign a.index (.text a.entity)) := by
  rw [assignText, h.1.ofText_eq]
  exact if_pos (isEntity_text.mpr h.2)

theorem Rejects.assignText_eq {e : AssignmentError} (h : m.Rejects text e) : m.assignText text = .error e := by
  cases h with
  | misstated h =>
    rw [assignText, h.ofText_eq]
    rfl
  | notAnEntity h hentity =>
    rw [assignText, h.ofText_eq]
    exact if_neg fun hmem => hentity (isEntity_text.mp hmem)

theorem assignAll_append (m : Model) (before after : List Text) :
    m.assignAll (before ++ after) = m.assignAll before >>= fun made => made.assignAll after :=
  List.foldlM_append

theorem assignAll_cons (m : Model) (text : Text) (texts : List Text) :
    m.assignAll (text :: texts) = m.assignText text >>= fun made => made.assignAll texts :=
  List.foldlM_cons

theorem exists_assignAll_eq_ok (h : ∀ text ∈ texts, ∃ a, m.Admits text a) :
    ∃ made, m.assignAll texts = .ok made ∧ made = { m with assignments := made.assignments } := by
  induction texts generalizing m with
  | nil => exact ⟨m, rfl, rfl⟩
  | cons text texts ih =>
    obtain ⟨⟨a, ha⟩, hrest⟩ := List.forall_mem_cons.mp h
    obtain ⟨made, hmade, hframe⟩ := @ih (m.assign a.index (.text a.entity)) hrest
    refine ⟨made, ?_, hframe⟩
    rw [assignAll_cons, ha.assignText_eq]
    exact hmade

/-- The first text that cannot be assigned ends it, whatever comes behind. -/
theorem assignAll_eq_error {before after : List Text} {e : AssignmentError}
    (hbefore : ∀ text ∈ before, ∃ a, m.Admits text a) (h : m.Rejects text e) :
    m.assignAll (before ++ text :: after) = .error e := by
  obtain ⟨made, hmade, hframe⟩ := exists_assignAll_eq_ok hbefore
  have hreject : made.Rejects text e := by
    rw [hframe]
    cases h with
    | misstated h => exact .misstated h
    | notAnEntity h hentity => exact .notAnEntity h hentity
  rw [assignAll_append, hmade]
  have hcons := assignAll_cons made text after
  rw [hreject.assignText_eq] at hcons
  exact hcons

theorem forall_admits_or_exists_rejects (m : Model) (texts : List Text) :
    (∀ text ∈ texts, ∃ a, m.Admits text a) ∨ ∃ before text after e, texts = before ++ text :: after ∧
      (∀ earlier ∈ before, ∃ a, m.Admits earlier a) ∧ m.Rejects text e := by
  induction texts with
  | nil => exact .inl fun _ h => nomatch h
  | cons text texts ih =>
    rcases m.admits_or_rejects text with hadmits | ⟨e, he⟩
    · rcases ih with hall | ⟨before, text', after, e, rfl, hbefore, he⟩
      · exact .inl (List.forall_mem_cons.mpr ⟨hadmits, hall⟩)
      · exact .inr ⟨text :: before, text', after, e, rfl, List.forall_mem_cons.mpr ⟨hadmits, hbefore⟩, he⟩
    · exact .inr ⟨[], text, texts, e, rfl, (fun _ h => nomatch h), he⟩

theorem forall_admits_of_assignAll (h : m.assignAll texts = .ok made) : ∀ text ∈ texts, ∃ a, m.Admits text a := by
  rcases m.forall_admits_or_exists_rejects texts with hall | ⟨before, text, after, e, rfl, hbefore, he⟩
  · exact hall
  · cases h.symm.trans (assignAll_eq_error hbefore he)

theorem assignment?_of_unmentioned (hmade : m.assignAll texts = .ok made) {index : Int}
    (h : ∀ text ∈ texts, ∀ entity, ¬Assignment.States text ⟨index, entity⟩) :
    made.assignment? index = m.assignment? index := by
  induction texts generalizing m with
  | nil =>
    cases hmade
    rfl
  | cons text texts ih =>
    obtain ⟨hfirst, hrest⟩ := List.forall_mem_cons.mp h
    obtain ⟨a, ha⟩ := forall_admits_of_assignAll hmade text List.mem_cons_self
    rw [assignAll_cons, ha.assignText_eq] at hmade
    have hother : a.index ≠ index := by
      rintro rfl
      exact hfirst a.entity ha.1
    rw [@ih (m.assign a.index (.text a.entity)) hmade hrest, assignment?_assign, if_neg hother]

theorem assignment?_of_last {before after : List Text} (hmade : m.assignAll (before ++ text :: after) = .ok made)
    {a : Assignment} (ha : Assignment.States text a)
    (hlast : ∀ later ∈ after, ∀ entity, ¬Assignment.States later ⟨a.index, entity⟩) :
    made.assignment? a.index = some (.text a.entity) := by
  rw [assignAll_append] at hmade
  obtain ⟨between, -, hmade⟩ := exists_of_bind_eq_ok hmade
  obtain ⟨b, hb⟩ := forall_admits_of_assignAll hmade text List.mem_cons_self
  obtain rfl := ha.unique hb.1
  rw [assignAll_cons, hb.assignText_eq] at hmade
  rw [assignment?_of_unmentioned (m := between.assign a.index (.text a.entity)) hmade hlast, assignment?_assign,
    if_pos rfl]

end Model

/-- The commands make the assignments that they are given one after the other, and tell why one cannot be made. -/
theorem CommandLine.assignGiven_map_some (m : Model) (texts : List Text) :
    assignGiven m (texts.map some) = (m.assignAll texts).mapError fun e => .failure e.message := by
  induction texts generalizing m with
  | nil => rfl
  | cons text texts ih =>
    rw [Model.assignAll_cons, mapError_bind, ← funext ih]
    exact List.foldlM_cons

/-- Assignments in writing are all made, which takes that each states one to an entity of the model, or none is made and
the first that does not is told. Where they are made, an index is bound by the last text that states its number,
however that is written, or as it was before if none does, and the rest of the model stays as it is. -/
theorem Model.assignAll_in_order (m : Model) (texts : List Text) :
    ((∃ made, m.assignAll texts = .ok made) ↔
        ∀ text ∈ texts, ∃ a, Assignment.States text a ∧ .text a.entity ∈ m.entities) ∧
      (∀ made, m.assignAll texts = .ok made → made = { m with assignments := made.assignments } ∧
        (∀ before text after a, texts = before ++ text :: after → Assignment.States text a →
          (∀ later ∈ after, ∀ entity, ¬Assignment.States later ⟨a.index, entity⟩) →
          made.assignment? a.index = some (.text a.entity)) ∧
        ∀ index, (∀ text ∈ texts, ∀ entity, ¬Assignment.States text ⟨index, entity⟩) →
          made.assignment? index = m.assignment? index) ∧
      (∀ e, m.assignAll texts = .error e ↔ ∃ before text after, texts = before ++ text :: after ∧
        (∀ earlier ∈ before, ∃ a, Assignment.States earlier a ∧ .text a.entity ∈ m.entities) ∧ m.Rejects text e) ∧
      CommandLine.assignGiven m (texts.map some) = (m.assignAll texts).mapError fun e => .failure e.message := by
  refine ⟨⟨?_, fun h => ?_⟩, fun made hmade => ⟨?_, ?_, fun index => assignment?_of_unmentioned hmade⟩,
    fun e => ⟨fun h => ?_, ?_⟩, CommandLine.assignGiven_map_some m texts⟩
  · rintro ⟨made, hmade⟩
    exact forall_admits_of_assignAll hmade
  · obtain ⟨made, hmade, -⟩ := exists_assignAll_eq_ok h
    exact ⟨made, hmade⟩
  · obtain ⟨made', hmade', hframe⟩ := exists_assignAll_eq_ok (forall_admits_of_assignAll hmade)
    obtain rfl := Except.ok.inj (hmade.symm.trans hmade')
    exact hframe
  · rintro before text after a rfl ha hlast
    exact assignment?_of_last hmade ha hlast
  · rcases m.forall_admits_or_exists_rejects texts with hall | ⟨before, text, after, e', rfl, hbefore, he⟩
    · obtain ⟨made, hmade, -⟩ := exists_assignAll_eq_ok hall
      cases h.symm.trans hmade
    · obtain rfl := Except.error.inj (h.symm.trans (assignAll_eq_error hbefore he))
      exact ⟨before, text, after, rfl, hbefore, he⟩
  · rintro ⟨before, text, after, rfl, hbefore, he⟩
    exact assignAll_eq_error hbefore he

/-- One index in several spellings, another below zero, and an entity with an equals sign in its name. -/
example : ((⟨[.text "bob", .text "x=y"], [], .ofList [(1, .text "bob"), (4, .text "bob")], ∅, ∅⟩ : Model).assignAll
    ["1=bob", "-٢=bob", " +0_1 = x=y "]).toOption.map (·.assignments.entries) =
      some [(-2, .text "bob"), (1, .text "x=y"), (4, .text "bob")] := by decide +kernel

end MinimalistGrammar
