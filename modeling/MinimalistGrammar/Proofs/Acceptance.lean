import MinimalistGrammar.Proofs.Agenda

/-! Acceptance. The search tests an entry for acceptance when it enters it, and it goes on with the chain of
combinations after the first success. What it accepts is nevertheless what the chart says in the end: the
first entry that can be accepted, and so the one with the lowest id. -/
namespace MinimalistGrammar
namespace Parsing

namespace State
variable {categories : PhraseCategories} {accepts : ChartEntry → Bool} {s s' : State}

theorem Step.accepted?_eq (h : Step categories accepts s s')
    (hs : s.accepted? = s.chart.entries.find? accepts) :
    s'.accepted? = s'.chart.entries.find? accepts := by
  cases h with
  | take => exact hs
  | putDown => exact hs
  | refuse => exact hs
  | @enter entry result =>
    have hresult : [result].find? accepts = if accepts result then some result else none := by
      cases haccepts : accepts result <;> simp [haccepts]
    rw [Chart.entries_cons, List.find?_append, ← hs, hresult, Option.orElse_eq_orElse,
      Option.orElse_eq_or]

end State

section
variable {setting : Setting} {tokens : List Text} {counters : Counters} {s : State}

/-- Nothing went into a lexical entry, its own insertion neither, so that it is never accepted. -/
theorem Setting.not_accepts_of_mem_entries {e : ChartEntry} (he : e ∈ setting.entries tokens counters) :
    ¬setting.accepts tokens counters e := by
  intro haccepts
  have hid : e.id ∈ e.retired := (ChartEntry.isAccepting_iff.mp haccepts).2 e.id
    (SortedSet.mem_ofList.mpr (List.mem_map_of_mem he))
  rw [(isLexical_lexicalEntries _ _ e he).retired_eq] at hid
  exact SortedSet.not_mem_empty e.id hid

theorem Reachable.accepted?_eq (h : Reachable setting tokens counters s) :
    s.accepted? = s.chart.entries.find? (setting.accepts tokens counters) := by
  induction h with
  | initial =>
    rw [setting.entries_initial]
    exact (List.find?_eq_none.mpr fun _ he => Setting.not_accepts_of_mem_entries he).symm
  | step _ hs ih => exact (State.step_of_not_isFinal hs).accepted?_eq ih

theorem Reachable.isSome_accepted?_iff (h : Reachable setting tokens counters s) :
    s.accepted?.isSome ↔ ∃ e ∈ s.chart, setting.accepts tokens counters e := by
  rw [h.accepted?_eq, List.find?_isSome]
  exact exists_congr fun e => and_congr_left' List.mem_reverse

/-- Entries are in the order of their ids, so that the first one has the lowest. -/
theorem Reachable.id_le_of_accepts (h : Reachable setting tokens counters s) {accepted : ChartEntry}
    (ha : s.accepted? = some accepted) :
    ∀ e ∈ s.chart, setting.accepts tokens counters e → accepted.id ≤ e.id := by
  rw [h.accepted?_eq] at ha
  obtain ⟨-, before, after, hchart, hbefore⟩ := List.find?_eq_some_iff_append.mp ha
  have hsorted : s.chart.entries.Pairwise (·.id < ·.id) := List.pairwise_reverse.mpr h.pairwise_newestFirst
  intro e he haccepts
  have he : e ∈ s.chart.entries := List.mem_reverse.mpr he
  rw [hchart] at he hsorted
  rcases List.mem_append.mp he with he | he
  · exact absurd haccepts (by simpa using hbefore e he)
  · rcases List.mem_cons.mp he with rfl | he
    · exact Int.le_refl _
    · exact Int.le_of_lt (List.rel_of_pairwise_cons (List.pairwise_append.mp hsorted).2.1 he)

end

theorem spellOutAccepted_eq (categories : PhraseCategories) {accepted : ChartEntry} (counters : Counters)
    (h : accepted.id ∉ accepted.retired) :
    (spellOutAccepted categories accepted counters).1 =
      match accepted.expression.spellOut? categories counters.nextIndex with
      | none => accepted
      | some (expression, _) => ⟨counters.nextId, expression, some "spellout", [accepted],
          accepted.retired.insert accepted.id⟩ := by
  rw [spellOutAccepted, ChartEntry.applyUnary?, if_neg h]
  cases accepted.expression.spellOut? categories counters.nextIndex <;> rfl

namespace Setting
variable {setting : Setting}

/-- A text of known tokens is accepted exactly if the chart that its search ends with has an entry that can be
accepted. The result is the one of these with the lowest id, or what comes of spelling it out, with the id and
from the index that come after those of the chart. -/
theorem isAccepted_parse_iff (start : Counters) {text : Text}
    (hknown : ∀ token ∈ tokenize text, setting.grammar.lookup token ≠ []) :
    let lexical := SortedSet.ofList ((setting.entries (tokenize text) start).map (·.id))
    let accepts := ChartEntry.isAccepting setting.grammar.startCategories lexical
    let outcome := setting.parse text start
    (outcome.isAccepted ↔ ∃ e ∈ outcome.chart, accepts e) ∧
    ∀ result, Outcome.entry? outcome = some result →
      ∃ accepted ∈ outcome.chart, accepts accepted ∧
        (∀ e ∈ outcome.chart, accepts e → accepted.id ≤ e.id) ∧
        match accepted.expression.spellOut? setting.categories
          (start.nextIndex - outcome.chart.newestFirst.countP (·.takesIndex setting.categories)) with
        | none => result = accepted
        | some (expression, _) => result = ⟨start.nextId + outcome.chart.size, expression,
            some "spellout", [accepted], accepted.retired.insert accepted.id⟩ := by
  intro lexical accepts outcome
  have hreachable := Reachable.search setting (tokenize text) start
  have hcounters := (setting.isInOrder_run (tokenize text) start
    (stepBound (itemsOf setting.grammar (tokenize text)))).counters_eq
  obtain ⟨hchart, -, -, hend⟩ := parse_of_known start hknown
  rw [hchart, Outcome.isAccepted]
  rcases hend with ⟨ha, he, -⟩ | ⟨accepted, ha, he, -⟩
  · rw [he]
    have hnone := hreachable.isSome_accepted?_iff
    rw [ha] at hnone
    exact ⟨hnone, fun _ hsome => nomatch hsome⟩
  · rw [he]
    have hsome := hreachable.isSome_accepted?_iff
    rw [ha] at hsome
    refine ⟨hsome, fun result hresult => ?_⟩
    have hmem := hreachable.isGrown.accepted_mem accepted ha
    have hspelled := spellOutAccepted_eq setting.categories
      (setting.search (tokenize text) start).counters
      (hreachable.isGrown.built.isDisciplined accepted hmem).id_not_mem_retired
    rw [← search] at hcounters
    rw [Option.some.inj hresult, hcounters] at hspelled
    refine ⟨accepted, hmem, hreachable.isGrown.accepts_accepted accepted ha,
      hreachable.id_le_of_accepts ha, ?_⟩
    split <;> rename_i hspell <;> rw [hspell] at hspelled <;> exact hspelled

/-- A clause that is accepted and then spelled out in the same chain, so that the chart has two entries that
can be accepted. The result is made of the first one again. -/
theorem isAccepted_parse_iff_every_girl_sleeps :
    let setting : Setting := ⟨⟨[⟨"every", [⟨.licensor, "n"⟩, ⟨.licensee, "d"⟩], .quantifier "every"⟩,
      ⟨"girl", [⟨.licensee, "n"⟩], .const "girl"⟩,
      ⟨"sleeps", [⟨.licensor, "d"⟩, ⟨.licensee, "c"⟩], .const "sleep"⟩], .ofList ["c"]⟩, {}⟩
    let start : Counters := ⟨5, -3⟩
    let text : Text := "every girl sleeps"
    let lexical := SortedSet.ofList ((setting.entries (tokenize text) start).map (·.id))
    let accepts := ChartEntry.isAccepting setting.grammar.startCategories lexical
    (∀ token ∈ tokenize text, setting.grammar.lookup token ≠ []) ∧
      ∃ outcome, outcome = setting.parse text start ∧
        (outcome.isAccepted ↔ ∃ e ∈ outcome.chart, accepts e) ∧
        (outcome.chart.entries.filter accepts).map (·.id) = [12, 13] ∧
        (Outcome.entry? outcome).map (fun e => (e.id, e.sources.map (·.id))) = some (14, [12]) := by
  intro setting start text lexical accepts
  have hknown : ∀ token ∈ tokenize text, setting.grammar.lookup token ≠ [] := by decide +kernel
  have hiff := (isAccepted_parse_iff start hknown).1
  exact ⟨hknown, setting.parse text start, rfl, hiff, by decide +kernel, by decide +kernel⟩

end Setting
end Parsing
end MinimalistGrammar
