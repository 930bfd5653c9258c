import MinimalistGrammar.Proofs.Consumption
import MinimalistGrammar.Proofs.Termination

/-! The order of a search. Ids go one after the other to what enters the chart and to nothing else, and indices
only to arguments that are bound in it. The agenda holds the newest entry first, and whatever is in the chart
is either on the agenda or was taken from it, once. -/
namespace MinimalistGrammar

theorem Chart.entries_cons (entry : ChartEntry) (chart : Chart) :
    entries ⟨entry :: chart.newestFirst⟩ = chart.entries ++ [entry] := List.reverse_cons

namespace Parsing

namespace State
variable {categories : PhraseCategories} {accepts : ChartEntry → Bool} {s s' : State}

def next? (s : State) : Option ChartEntry := if s.focus?.isNone then s.agenda.head? else none

def taken (categories : PhraseCategories) (accepts : ChartEntry → Bool) :
    Nat → State → List ChartEntry
  | 0, _ => []
  | bound + 1, s =>
    if s.isFinal then []
    else s.next?.toList ++ taken categories accepts bound (s.step categories accepts)

theorem next?_of_focus {entry : ChartEntry} (h : s.focus? = some entry) : s.next? = none := by
  simp [next?, h]

theorem next?_of_agenda {entry : ChartEntry} {agenda : List ChartEntry} (hfocus : s.focus? = none)
    (hagenda : s.agenda = entry :: agenda) : s.next? = some entry := by
  simp [next?, hfocus, hagenda]

/-- A state to which a search came from some counters and some number of lexical entries, and the entries that
it took from the agenda before. -/
structure IsInOrder (categories : PhraseCategories) (start : Counters) (lexical : Nat)
    (taken : List ChartEntry) (s : State) : Prop where
  ids : s.chart.entries.map (·.id) = (List.range s.chart.size).map fun k : Nat => start.nextId + k
  counters_eq : s.counters = ⟨start.nextId + s.chart.size,
    start.nextIndex - s.chart.newestFirst.countP (·.takesIndex categories)⟩
  size_eq : s.chart.size = lexical + s.steps
  agenda_pairwise : s.agenda.Pairwise fun newer older => older.id < newer.id
  perm : (taken ++ s.agenda).Perm s.chart.newestFirst

namespace IsInOrder
variable {start : Counters} {lexical : Nat} {taken : List ChartEntry}

theorem id_lt (hs : s.IsInOrder categories start lexical taken) :
    ∀ e ∈ s.chart.newestFirst, e.id < s.counters.nextId := by
  intro e he
  have hid := List.mem_map_of_mem (f := (·.id)) (List.mem_reverse.mpr he)
  rw [← Chart.entries, hs.ids] at hid
  obtain ⟨k, hk, hid⟩ := List.mem_map.mp hid
  have hk := List.mem_range.mp hk
  have hnext : s.counters.nextId = start.nextId + s.chart.size := by rw [hs.counters_eq]
  omega

theorem nodup_newestFirst (hs : s.IsInOrder categories start lexical taken) :
    s.chart.newestFirst.Nodup := by
  have hids : (s.chart.entries.map (·.id)).Nodup := by
    rw [hs.ids]
    exact List.nodup_range.map fun k l h => by omega
  exact List.nodup_reverse.mp (hids.of_map _)

theorem mem_chart_of_agenda (hs : s.IsInOrder categories start lexical taken) :
    ∀ e ∈ s.agenda, e ∈ s.chart.newestFirst :=
  fun _ he => hs.perm.subset (List.mem_append_right taken he)

theorem nodup_taken (hs : s.IsInOrder categories start lexical taken) : taken.Nodup :=
  (hs.perm.nodup_iff.mpr hs.nodup_newestFirst).of_append_left

theorem of_step (hs : s.IsInOrder categories start lexical taken)
    (h : Step categories accepts s s') :
    s'.IsInOrder categories start lexical (taken ++ s.next?.toList) := by
  cases h with
  | take hfocus hagenda =>
    obtain ⟨hids, hcounters, hsize, hagenda', hperm⟩ := hs
    rw [hagenda] at hagenda' hperm
    rw [next?_of_agenda hfocus hagenda]
    refine ⟨hids, hcounters, hsize, (List.pairwise_cons.mp hagenda').2, ?_⟩
    simpa using hperm
  | putDown hfocus hnone =>
    rw [next?_of_focus hfocus, Option.toList_none, List.append_nil]
    exact ⟨hs.ids, hs.counters_eq, hs.size_eq, hs.agenda_pairwise, hs.perm⟩
  | refuse hfocus hresult hmem => exact absurd hmem (hresult.not_mem hs.id_lt)
  | @enter entry result counters hfocus hresult hmem =>
    have hnewer := hs.id_lt
    rw [← hresult.id_eq] at hnewer
    have hid : result.id = start.nextId + s.chart.size := by rw [hresult.id_eq, hs.counters_eq]
    rw [next?_of_focus hfocus, Option.toList_none, List.append_nil]
    constructor
    · rw [Chart.entries_cons, List.map_append, hs.ids, List.map_singleton, hid]
      exact (List.map_append.symm.trans (congrArg _ List.range_succ.symm) :)
    · rw [hresult.counters_eq, hs.counters_eq, List.countP_cons]
      simp only [Chart.size, List.length_cons, Counters.mk.injEq]
      split <;> omega
    · have hsize := hs.size_eq
      simp only [Chart.size, List.length_cons] at hsize ⊢
      omega
    · exact List.pairwise_cons.mpr ⟨fun e he => hnewer e (hs.mem_chart_of_agenda e he), hs.agenda_pairwise⟩
    · exact List.perm_middle.trans (hs.perm.cons result)

theorem run (hs : s.IsInOrder categories start lexical taken) (bound : Nat) :
    (s.run categories accepts bound).IsInOrder categories start lexical
      (taken ++ s.taken categories accepts bound) := by
  induction bound generalizing s taken with
  | zero =>
    rw [State.taken, List.append_nil]
    exact hs
  | succ bound ih =>
    rw [State.run, State.taken]
    split
    · rw [List.append_nil]
      exact hs
    · rename_i hfinal
      rw [← List.append_assoc]
      exact ih (hs.of_step (step_of_not_isFinal hfinal))

end IsInOrder

theorem nextId_spellOutAccepted {entries : List ChartEntry} (hs : s.IsGrown entries accepts)
    {accepted : ChartEntry} (ha : s.accepted? = some accepted) :
    (spellOutAccepted categories accepted s.counters).2.nextId = s.counters.nextId +
      [(spellOutAccepted categories accepted s.counters).1].countP (· ∉ s.chart) := by
  rcases spellOutAccepted_cases categories accepted s.counters with
    ⟨-, he⟩ | ⟨result, counters, hr, he⟩
  · have hmem : accepted ∈ s.chart := hs.accepted_mem accepted ha
    simp [he, hmem]
  · obtain ⟨-, expression, nextIndex, -, rfl, rfl⟩ := ChartEntry.applyUnary?_eq_some_iff.mp hr
    have hnew {e : ChartEntry} (hid : e.id = s.counters.nextId) : e ∉ s.chart :=
      fun hmem => absurd hid (Int.ne_of_lt (hs.built.id_lt e hmem))
    rw [he, List.countP_singleton, if_pos (decide_eq_true (hnew rfl))]
    rfl

end State

namespace Setting
variable (setting : Setting) (tokens : List Text) (start : Counters)

theorem entries_initial :
    (setting.initial tokens start).chart.entries = setting.entries tokens start := by
  rw [Chart.entries, setting.chart_initial, List.reverse_reverse]

theorem isInOrder_initial : (setting.initial tokens start).IsInOrder setting.categories start
    (setting.entries tokens start).length [] := by
  have hchart := setting.chart_initial tokens start
  have hsize : (setting.initial tokens start).chart.size = (setting.entries tokens start).length := by
    rw [Chart.size, hchart, List.length_reverse]
  constructor
  · rw [entries_initial, hsize, entries, ids_lexicalEntries, length_lexicalEntries, List.range_eq_range']
  · have hlexical : ∀ e ∈ (setting.initial tokens start).chart.newestFirst,
        ¬e.takesIndex setting.categories := by
      rw [hchart]
      intro e he
      have hlexical := isLexical_lexicalEntries _ _ e (List.mem_reverse.mp he)
      simp [ChartEntry.takesIndex, hlexical.operator_eq]
    rw [hsize, List.countP_eq_zero.mpr hlexical]
    simp [initial]
  · exact hsize
  · exact List.pairwise_reverse.mpr (List.pairwise_map.mp (pairwise_ids_lexicalEntries _ _))
  · rw [hchart]
    exact List.Perm.refl _

theorem isInOrder_run (bound : Nat) :
    ((setting.initial tokens start).run setting.categories (setting.accepts tokens start) bound).IsInOrder
      setting.categories start (setting.entries tokens start).length
      ((setting.initial tokens start).taken setting.categories (setting.accepts tokens start) bound) :=
  (setting.isInOrder_initial tokens start).run bound

theorem isFinal_search : (setting.search tokens start).isFinal :=
  Reachable.initial.isFinal_run (setting.work_initial_le tokens start)

variable {setting tokens start}

theorem agenda_search (h : (setting.search tokens start).accepted? = none) :
    (setting.search tokens start).agenda = [] := by
  have hfinal := setting.isFinal_search tokens start
  rw [State.isFinal, h, Option.isSome_none, Bool.or_false, Bool.and_eq_true, List.isEmpty_iff] at hfinal
  exact hfinal.2

/-- At every point of the search of a text of known tokens the chart has ids one after the other, takes every
combination that is made, and has given out all ids and indices; the agenda is sorted and no entry is taken from
it twice. In the end the sizes and the counters agree, and a search that fails has taken all of the chart. -/
theorem order_of_search (start : Counters) {text : Text}
    (hknown : ∀ token ∈ tokenize text, setting.grammar.lookup token ≠ []) :
    let categories := setting.categories
    let accepts := setting.accepts (tokenize text) start
    let initial := setting.initial (tokenize text) start
    let outcome := setting.parse text start
    initial.chart.entries = setting.entries (tokenize text) start ∧
    (∀ bound,
      let s := initial.run categories accepts bound
      let taken := initial.taken categories accepts bound
      s.chart.entries.map (·.id) = ((List.range s.chart.size).map fun k : Nat => start.nextId + k) ∧
      s.counters = ⟨start.nextId + s.chart.size,
        start.nextIndex - s.chart.newestFirst.countP (·.takesIndex categories)⟩ ∧
      (∀ entry, s.focus? = some entry →
        match entry.derive? categories s.chart s.counters with
        | none => (s.step categories accepts).counters = s.counters
        | some (result, counters) => s.chart.add? result = some ⟨result :: s.chart.newestFirst⟩ ∧
            counters = ⟨s.counters.nextId + 1,
              s.counters.nextIndex - if result.takesIndex categories then 1 else 0⟩) ∧
      s.agenda.Pairwise (fun newer older => older.id < newer.id) ∧
      (∀ e ∈ s.agenda, e ∈ s.chart) ∧
      taken.Nodup) ∧
    outcome.chart.size = outcome.lexical + outcome.steps ∧
    outcome.counters.nextId = start.nextId + outcome.chart.size +
      (Outcome.entry? outcome).toList.countP (· ∉ outcome.chart) ∧
    (Outcome.entry? outcome = none →
      (initial.taken categories accepts (stepBound (itemsOf setting.grammar (tokenize text)))).Perm
        outcome.chart.entries ∧ outcome.chart.entries.Nodup) := by
  intro categories accepts initial outcome
  obtain ⟨hchart, hsteps, hlexical, hend⟩ := parse_of_known start hknown
  have hlast := setting.isInOrder_run (tokenize text) start
    (stepBound (itemsOf setting.grammar (tokenize text)))
  refine ⟨setting.entries_initial _ _, fun bound => ?_, ?_, ?_, fun hnone => ?_⟩
  · intro s taken
    have hs : s.IsInOrder categories start _ taken := setting.isInOrder_run (tokenize text) start bound
    refine ⟨hs.ids, hs.counters_eq, fun entry hfocus => ?_, hs.agenda_pairwise, hs.mem_chart_of_agenda,
      hs.nodup_taken⟩
    split
    · rename_i hnone
      rw [State.step_of_derive?_eq_none hfocus hnone]
    · rename_i result counters hsome
      have hresult := ChartEntry.combines_of_derive? hsome
      exact ⟨if_neg (hresult.not_mem hs.id_lt), hresult.counters_eq⟩
  · rw [hchart, hsteps, hlexical]
    exact hlast.size_eq
  · have hnext : (setting.search (tokenize text) start).counters.nextId =
        start.nextId + outcome.chart.size := by
      rw [hchart]
      exact congrArg Counters.nextId hlast.counters_eq
    rw [← hnext, hchart]
    rcases hend with ⟨-, he, hcounters⟩ | ⟨accepted, ha, he, hcounters⟩
    · rw [he, hcounters]
      simp
    · rw [he, hcounters]
      exact State.nextId_spellOutAccepted (Reachable.search setting (tokenize text) start).isGrown ha
  · have ha : (setting.search (tokenize text) start).accepted? = none := by
      rcases hend with ⟨ha, -, -⟩ | ⟨accepted, -, he, -⟩
      · exact ha
      · rw [hnone] at he
        cases he
    have hperm := hlast.perm
    rw [← search, agenda_search ha, List.append_nil] at hperm
    rw [hchart]
    exact ⟨hperm.trans (List.reverse_perm _).symm, List.nodup_reverse.mpr hlast.nodup_newestFirst⟩

/-- With a quantifier, which takes an index, and a sentence that is spelled out once more in the end. -/
theorem order_of_search_every_girl_sleeps :
    let setting : Setting := ⟨⟨[⟨"every", [⟨.licensor, "n"⟩, ⟨.licensee, "d"⟩], .quantifier "every"⟩,
      ⟨"girl", [⟨.licensee, "n"⟩], .const "girl"⟩,
      ⟨"sleeps", [⟨.licensor, "d"⟩, ⟨.licensee, "c"⟩], .const "sleep"⟩], .ofList ["c"]⟩, {}⟩
    let start : Counters := ⟨5, -3⟩
    let text : Text := "every girl sleeps"
    (∀ token ∈ tokenize text, setting.grammar.lookup token ≠ []) ∧
      ∃ outcome, outcome = setting.parse text start ∧
        outcome.chart.size = outcome.lexical + outcome.steps ∧
        outcome.counters.nextId = start.nextId + outcome.chart.size +
          (Outcome.entry? outcome).toList.countP (· ∉ outcome.chart) ∧
        outcome.counters = ⟨15, -4⟩ := by
  intro setting start text
  have hknown : ∀ token ∈ tokenize text, setting.grammar.lookup token ≠ [] := by decide +kernel
  have hend := (order_of_search start hknown).2.2
  exact ⟨hknown, setting.parse text start, rfl, hend.1, hend.2.1, by decide +kernel⟩

end Setting
end Parsing
end MinimalistGrammar
