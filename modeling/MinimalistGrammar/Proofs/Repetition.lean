import MinimalistGrammar.Proofs.Agenda
import MinimalistGrammar.Proofs.Replay

/-! How often a combination is built. An entry is combined when it is entered and once more when the agenda gives
it, and what comes of it has a fresh id each time. So the chart can hold two copies of one combination, the first
of them made at once, but no third one. -/
namespace MinimalistGrammar

namespace ChartEntry

/-- The entry was made at once, when the one that it is made from had just been made itself. -/
def IsPrompt (entry head : ChartEntry) : Prop := head.sources ≠ [] ∧ entry.id = head.id + 1

theorem Combines.head?_sources {categories : PhraseCategories} {entry result : ChartEntry} {chart : Chart}
    {counters counters' : Counters} (h : entry.Combines categories chart counters result counters') :
    result.sources.head? = some entry := by
  cases h with
  | unary _ hr =>
    obtain ⟨-, expression, nextIndex, -, rfl, -⟩ := applyUnary?_eq_some_iff.mp hr
    rfl
  | binary _ _ hr =>
    obtain ⟨-, expression, -, rfl, -⟩ := applyBinary?_eq_some_iff.mp hr
    rfl

theorem isInherited_sources_ne_nil (categories : PhraseCategories) :
    IsInherited categories fun e => e.operator?.isSome → e.sources ≠ [] := by
  constructor
  · exact fun _ _ h => nomatch h
  · intro name operator entry result counters counters' _ _ hr _
    obtain ⟨-, expression, nextIndex, -, rfl, -⟩ := applyUnary?_eq_some_iff.mp hr
    exact List.cons_ne_nil _ _
  · intro name operator first second result counters counters' _ _ _ hr _
    obtain ⟨-, expression, -, rfl, -⟩ := applyBinary?_eq_some_iff.mp hr
    exact List.cons_ne_nil _ _

end ChartEntry

namespace Parsing

namespace State
variable {categories : PhraseCategories} {accepts : ChartEntry → Bool} {s s' : State} {start : Counters}
  {lexical : Nat} {taken : List ChartEntry}

/-- Every entry was combined at most once beside the combination that was made of it at once, and that only after
it was taken from the agenda. What is in focus was made just now, or taken and not combined since. -/
structure IsSparing (taken : List ChartEntry) (s : State) : Prop where
  taken_of_not_isPrompt : ∀ e ∈ s.chart.newestFirst, ∀ head, e.sources.head? = some head →
    ¬e.IsPrompt head → head ∈ taken
  eq_of_not_isPrompt : ∀ e ∈ s.chart.newestFirst, ∀ e' ∈ s.chart.newestFirst, ∀ head,
    e.sources.head? = some head → e'.sources.head? = some head → ¬e.IsPrompt head → ¬e'.IsPrompt head → e = e'
  focus : ∀ head, s.focus? = some head → head.sources ≠ [] ∧ s.counters.nextId = head.id + 1 ∨
    head ∈ taken ∧ ∀ e ∈ s.chart.newestFirst, e.sources.head? = some head → e.IsPrompt head

namespace IsSparing

theorem enter (hs : s.IsSparing taken) {entry result : ChartEntry} {counters : Counters}
    (hfocus : s.focus? = some entry)
    (hresult : entry.Combines categories s.chart s.counters result counters) :
    IsSparing taken
      { counters := counters
        chart := ⟨result :: s.chart.newestFirst⟩
        agenda := result :: s.agenda
        focus? := some result
        accepted? := s.accepted? <|> if accepts result then some result else none
        steps := s.steps + 1 } := by
  have hhead {head : ChartEntry} (h : result.sources.head? = some head) : entry = head :=
    Option.some.inj (hresult.head?_sources.symm.trans h)
  have hlate : ¬result.IsPrompt entry →
      entry ∈ taken ∧ ∀ e ∈ s.chart.newestFirst, e.sources.head? = some entry → e.IsPrompt entry := by
    intro hnot
    refine (hs.focus entry hfocus).resolve_left fun ⟨hsources, hnext⟩ => hnot ⟨hsources, ?_⟩
    rw [hresult.id_eq, hnext]
  constructor
  · intro e he head h hnot
    rcases List.mem_cons.mp he with rfl | he
    · obtain rfl := hhead h
      exact (hlate hnot).1
    · exact hs.taken_of_not_isPrompt e he head h hnot
  · intro e he e' he' head h h' hnot hnot'
    rcases List.mem_cons.mp he with rfl | hold
    · rcases List.mem_cons.mp he' with rfl | hold'
      · rfl
      · obtain rfl := hhead h
        exact absurd ((hlate hnot).2 e' hold' h') hnot'
    · rcases List.mem_cons.mp he' with rfl | hold'
      · obtain rfl := hhead h'
        exact absurd ((hlate hnot').2 e hold h) hnot
      · exact hs.eq_of_not_isPrompt e hold e' hold' head h h' hnot hnot'
  · intro head h
    obtain rfl := Option.some.inj h
    refine .inl ⟨hresult.sources_ne_nil, ?_⟩
    rw [hresult.counters_eq, hresult.id_eq]

/-- The agenda gives an entry that it did not give before, of which nothing was made but at once. -/
theorem of_step (hs : s.IsSparing taken) (horder : s.IsInOrder categories start lexical taken)
    (h : Step categories accepts s s') : s'.IsSparing (taken ++ s.next?.toList) := by
  cases h with
  | @take entry agenda hfocus hagenda =>
    rw [next?_of_agenda hfocus hagenda]
    have hnodup := horder.perm.nodup_iff.mpr horder.nodup_newestFirst
    have hnew : entry ∉ taken := fun hmem =>
      List.disjoint_of_nodup_append hnodup hmem (hagenda ▸ List.mem_cons_self)
    refine ⟨fun e he head h hnot => ?_, hs.eq_of_not_isPrompt, fun head h => .inr ?_⟩
    · exact List.mem_append_left _ (hs.taken_of_not_isPrompt e he head h hnot)
    · obtain rfl := Option.some.inj h
      refine ⟨List.mem_append_right _ List.mem_cons_self, fun e he hhead => ?_⟩
      by_contra hnot
      exact hnew (hs.taken_of_not_isPrompt e he _ hhead hnot)
  | putDown hfocus =>
    rw [next?_of_focus hfocus, Option.toList_none, List.append_nil]
    exact ⟨hs.taken_of_not_isPrompt, hs.eq_of_not_isPrompt, fun _ h => nomatch h⟩
  | refuse _ hresult hmem => exact absurd hmem (hresult.not_mem horder.id_lt)
  | enter hfocus hresult =>
    rw [next?_of_focus hfocus, Option.toList_none, List.append_nil]
    exact hs.enter hfocus hresult

theorem run (hs : s.IsSparing taken) (horder : s.IsInOrder categories start lexical taken) (bound : Nat) :
    (s.run categories accepts bound).IsSparing (taken ++ s.taken categories accepts bound) := by
  induction bound generalizing s taken with
  | zero =>
    rw [State.taken, List.append_nil]
    exact hs
  | succ bound ih =>
    rw [State.run, State.taken]
    split
    · rw [List.append_nil]
      exact hs
    · rename_i hfinal
      have hstep : Step categories accepts s (s.step categories accepts) := step_of_not_isFinal hfinal
      rw [← List.append_assoc]
      exact ih (hs.of_step horder hstep) (horder.of_step hstep)

/-- Of two combinations with one head the older one was made at once, and the head was taken for the other. -/
theorem isPrompt_of_lt (hs : s.IsSparing taken) (hbuilt : ChartEntry.Built s.chart.newestFirst s.counters)
    {e e' head : ChartEntry} (he : e ∈ s.chart.newestFirst) (he' : e' ∈ s.chart.newestFirst)
    (h : e.sources.head? = some head) (h' : e'.sources.head? = some head) (hlt : e.id < e'.id) :
    e.IsPrompt head ∧ head ∈ taken := by
  have holder : head.id < e.id := by
    have hnode : head ∈ e.descendants := ChartEntry.mem_descendants_iff.mpr
      ⟨head, List.mem_of_mem_head? h, ChartEntry.mem_nodes_self head⟩
    have hdisciplined := hbuilt.isDisciplined e he
    exact hdisciplined.lt_id _ ((hdisciplined.mem_retired_iff _).mpr ⟨head, hnode, rfl⟩)
  have hlate : ¬e'.IsPrompt head := fun hprompt => by
    have := hprompt.2
    omega
  refine ⟨?_, hs.taken_of_not_isPrompt e' he' head h' hlate⟩
  by_contra hnot
  exact absurd (congrArg ChartEntry.id (hs.eq_of_not_isPrompt e he e' he' head h h' hnot hlate)) (Int.ne_of_lt hlt)

end IsSparing
end State

namespace Setting
variable (setting : Setting) (tokens : List Text) (start : Counters)

theorem isSparing_initial : (setting.initial tokens start).IsSparing [] := by
  have hsources : ∀ e ∈ (setting.initial tokens start).chart.newestFirst, e.sources = [] := by
    rw [setting.chart_initial]
    exact fun e he => (isLexical_lexicalEntries _ _ e (List.mem_reverse.mp he)).sources_eq
  constructor
  · intro e he head h
    rw [hsources e he] at h
    cases h
  · intro e he e' _ head h
    rw [hsources e he] at h
    cases h
  · exact fun head h => nomatch h

def takenBySearch : List ChartEntry :=
  (setting.initial tokens start).taken setting.categories (setting.accepts tokens start)
    (stepBound (itemsOf setting.grammar tokens))

theorem isSparing_search : (setting.search tokens start).IsSparing (setting.takenBySearch tokens start) :=
  (setting.isSparing_initial tokens start).run (setting.isInOrder_initial tokens start) _

variable {setting tokens start}

/-- Of two copies of a combination, the older one was made at once, when its head had just been made, and the head
was then taken from the agenda. -/
theorem exists_head_of_copies {e e' : ChartEntry} (he : e ∈ (setting.search tokens start).chart.newestFirst)
    (he' : e' ∈ (setting.search tokens start).chart.newestFirst) (hoperator : e.operator?.isSome)
    (hsources : e.sources = e'.sources) (hlt : e.id < e'.id) :
    ∃ head ∈ setting.takenBySearch tokens start, e.sources.head? = some head ∧ e.IsPrompt head := by
  have hreachable := Reachable.search setting tokens start
  have hne := hreachable.forall_chart (ChartEntry.isInherited_sources_ne_nil setting.categories) e he hoperator
  obtain ⟨head, hhead⟩ := Option.isSome_iff_exists.mp (List.isSome_head?.mpr hne)
  obtain ⟨hprompt, htaken⟩ := (setting.isSparing_search tokens start).isPrompt_of_lt hreachable.isGrown.built
    he he' hhead (hsources ▸ hhead) hlt
  exact ⟨head, htaken, hhead, hprompt⟩

/-- Of three copies the oldest and the one in the middle would both be made at once. -/
theorem length_copies_le {name : Text} {sources copies : List ChartEntry}
    (hcopies : ∀ e ∈ copies, e ∈ (setting.search tokens start).chart.newestFirst ∧
      e.operator? = some name ∧ e.sources = sources)
    (hsorted : copies.Pairwise fun newer older => older.id < newer.id) : copies.length ≤ 2 := by
  match copies with
  | [] | [_] | [_, _] => simp
  | newest :: middle :: oldest :: rest =>
    obtain ⟨hnewest, -, hsources⟩ := hcopies newest (by simp)
    obtain ⟨hmiddle, hoperator, hsources'⟩ := hcopies middle (by simp)
    obtain ⟨holdest, hoperator', hsources''⟩ := hcopies oldest (by simp)
    have hmiddle_lt : middle.id < newest.id := List.rel_of_pairwise_cons hsorted (by simp)
    have holdest_lt : oldest.id < middle.id := List.rel_of_pairwise_cons (List.pairwise_cons.mp hsorted).2 (by simp)
    obtain ⟨head, -, hhead, hprompt⟩ := exists_head_of_copies hmiddle hnewest
      (hoperator ▸ rfl) (hsources'.trans hsources.symm) hmiddle_lt
    obtain ⟨head', -, hhead', hprompt'⟩ := exists_head_of_copies holdest hmiddle
      (hoperator' ▸ rfl) (hsources''.trans hsources'.symm) holdest_lt
    rw [hsources'] at hhead
    rw [hsources'', hhead] at hhead'
    cases hhead'
    exact absurd (hprompt'.2.trans hprompt.2.symm) (Int.ne_of_lt holdest_lt)

/-- No combination is built three times. If it is built twice, that is from an entry that was derived itself: at
once when this was made, so that the ids follow each other, and again when it was taken from the agenda. -/
theorem combinations_of_parse (setting : Setting) (text : Text) (start : Counters) :
    let chart := Outcome.chart (setting.parse text start)
    (∀ e ∈ chart, ∀ e' ∈ chart, e.operator?.isSome → e.operator? = e'.operator? → e.sources = e'.sources →
      e.id < e'.id →
        ∃ head ∈ setting.takenBySearch (tokenize text) start,
          e.sources.head? = some head ∧ head.sources ≠ [] ∧ e.id = head.id + 1) ∧
      ∀ name sources,
        chart.newestFirst.countP (fun e => e.operator? = some name ∧ e.sources = sources) ≤ 2 := by
  intro chart
  rcases chart_parse_cases setting text start with hchart | ⟨hchart, -⟩
  · rw [show chart = _ from hchart]
    refine ⟨fun e he e' he' hoperator _ hsources hlt => exists_head_of_copies he he' hoperator hsources hlt, ?_⟩
    intro name sources
    have hcopies : ∀ e ∈ (setting.search (tokenize text) start).chart.newestFirst.filter
        (fun e => e.operator? = some name ∧ e.sources = sources),
        e ∈ (setting.search (tokenize text) start).chart.newestFirst ∧
          e.operator? = some name ∧ e.sources = sources := by
      intro e he
      obtain ⟨he, hcopy⟩ := List.mem_filter.mp he
      exact ⟨he, of_decide_eq_true hcopy⟩
    have hsorted := (Reachable.search setting (tokenize text) start).pairwise_newestFirst
    rw [List.countP_eq_length_filter]
    exact length_copies_le hcopies (hsorted.filter _)
  · rw [show chart = _ from hchart]
    exact ⟨fun e he => (List.not_mem_nil he).elim, fun name sources => Nat.zero_le 2⟩

/-- The phrase that is made of the two words is spelled out when it is made and again when the agenda gives it. -/
theorem combinations_of_parse_two_words :
    let setting : Setting := ⟨⟨[⟨"saw", [⟨.licensor, "d"⟩, ⟨.licensee, "c"⟩], .const "saw"⟩,
      ⟨"he", [⟨.licensee, "d"⟩], .const "he"⟩], .ofList ["t"]⟩, {}⟩
    let chart := Outcome.chart (setting.parse "saw he" {})
    ∃ e ∈ chart, ∃ e' ∈ chart, e.operator? = some "spellout" ∧ e.operator? = e'.operator? ∧
      e.sources = e'.sources ∧ e.id < e'.id ∧
        ∃ head ∈ setting.takenBySearch (tokenize "saw he") {},
          e.sources.head? = some head ∧ head.sources ≠ [] ∧ e.id = head.id + 1 := by
  intro setting chart
  have hcopies : chart.newestFirst.any fun e => chart.newestFirst.any fun e' =>
      e.operator? = some "spellout" ∧ e.operator? = e'.operator? ∧ e.sources = e'.sources ∧ e.id < e'.id := by
    decide +kernel
  obtain ⟨e, he, hcopies⟩ := List.any_eq_true.mp hcopies
  obtain ⟨e', he', hcopies⟩ := List.any_eq_true.mp hcopies
  obtain ⟨hname, hoperator, hsources, hlt⟩ := of_decide_eq_true hcopies
  exact ⟨e, he, e', he', hname, hoperator, hsources, hlt,
    (combinations_of_parse setting "saw he" {}).1 e he e' he' (hname ▸ rfl) hoperator hsources hlt⟩

/-- A combination can be built twice, under different ids: the check for what is there already compares ids too. -/
theorem exists_combination_built_twice :
    let setting : Setting := ⟨⟨[⟨"saw", [⟨.licensor, "d"⟩, ⟨.licensee, "c"⟩], .const "saw"⟩,
      ⟨"he", [⟨.licensee, "d"⟩], .const "he"⟩], .ofList ["t"]⟩, {}⟩
    let chart := Outcome.chart (setting.parse "saw he" {})
    ∃ e ∈ chart, ∃ e' ∈ chart, e ≠ e' ∧ e.operator? = some "merge_comp" ∧ e'.operator? = some "merge_comp" ∧
      e.sources = e'.sources := by
  intro setting chart
  have hcopies : chart.newestFirst.any fun e => chart.newestFirst.any fun e' =>
      e ≠ e' ∧ e.operator? = some "merge_comp" ∧ e'.operator? = some "merge_comp" ∧ e.sources = e'.sources := by
    decide +kernel
  obtain ⟨e, he, hcopies⟩ := List.any_eq_true.mp hcopies
  obtain ⟨e', he', hcopies⟩ := List.any_eq_true.mp hcopies
  exact ⟨e, he, e', he', of_decide_eq_true hcopies⟩

end Setting
end Parsing
end MinimalistGrammar
