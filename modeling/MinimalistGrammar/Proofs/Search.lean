import MinimalistGrammar.Parsing.Search
import MinimalistGrammar.Proofs.Derivation
import MinimalistGrammar.Proofs.Operation
import MinimalistGrammar.Proofs.Priority

/-! The search step by step: the entries that it begins with, what one step does, and what holds in every
state that it comes to. -/
namespace MinimalistGrammar

namespace ChartEntry

/-- The combinations of an entry that are tried: with an operator on the entry alone, or with a partner from
the chart. -/
inductive Combines (categories : PhraseCategories) (entry : ChartEntry) (chart : Chart)
    (counters : Counters) : ChartEntry → Counters → Prop where
  | unary {name : Text} {operator : UnaryOperator} {result : ChartEntry} {counters' : Counters}
      (hop : (name, operator) ∈ Operation.unary categories)
      (hr : entry.applyUnary? name operator counters = some (result, counters')) :
      Combines categories entry chart counters result counters'
  | binary {name : Text} {operator : BinaryOperator} {other result : ChartEntry}
      {counters' : Counters} (hop : (name, operator) ∈ Operation.binary)
      (hother : other ∈ chart.newestFirst)
      (hr : entry.applyBinary? name operator other counters = some (result, counters')) :
      Combines categories entry chart counters result counters'

theorem Chooses.combines {categories : PhraseCategories} {entry result : ChartEntry} {chart : Chart}
    {counters counters' : Counters} (h : entry.Chooses categories chart counters result counters') :
    entry.Combines categories chart counters result counters' := by
  cases h with
  | adjunct hother hr => exact .binary List.mem_cons_self hother hr
  | spellout hr => exact .unary List.mem_cons_self hr
  | merge hop _ hr => exact .unary hop hr
  | insert _ hchart _ hr =>
    have hother := hchart ▸ List.mem_append_right _ List.mem_cons_self
    exact .binary (List.mem_cons_of_mem _ List.mem_cons_self) hother hr

theorem combines_of_derive? {categories : PhraseCategories} {entry result : ChartEntry}
    {chart : Chart} {counters counters' : Counters}
    (h : entry.derive? categories chart counters = some (result, counters')) :
    entry.Combines categories chart counters result counters' :=
  (chooses_of_derive? h).combines

theorem Combines.built {categories : PhraseCategories} {entry result : ChartEntry}
    {chart : Chart} {counters counters' : Counters}
    (h : entry.Combines categories chart counters result counters')
    (hchart : Built chart.newestFirst counters) (he : entry ∈ chart.newestFirst) :
    Built (result :: chart.newestFirst) counters' := by
  cases h with
  | unary _ hr => exact hchart.unary he hr
  | binary _ hother hr => exact hchart.binary he hother hr

theorem Combines.sources_ne_nil {categories : PhraseCategories} {entry result : ChartEntry}
    {chart : Chart} {counters counters' : Counters}
    (h : entry.Combines categories chart counters result counters') : result.sources ≠ [] := by
  cases h with
  | unary _ hr =>
    obtain ⟨-, expression, nextIndex, -, rfl, -⟩ := applyUnary?_eq_some_iff.mp hr
    exact List.cons_ne_nil _ _
  | binary _ _ hr =>
    obtain ⟨-, expression, -, rfl, -⟩ := applyBinary?_eq_some_iff.mp hr
    exact List.cons_ne_nil _ _

theorem Combines.id_eq {categories : PhraseCategories} {entry result : ChartEntry} {chart : Chart}
    {counters counters' : Counters}
    (h : entry.Combines categories chart counters result counters') : result.id = counters.nextId := by
  cases h with
  | unary _ hr =>
    obtain ⟨-, expression, nextIndex, -, rfl, -⟩ := applyUnary?_eq_some_iff.mp hr
    rfl
  | binary _ _ hr =>
    obtain ⟨-, expression, -, rfl, -⟩ := applyBinary?_eq_some_iff.mp hr
    rfl

theorem Combines.not_mem {categories : PhraseCategories} {entry result : ChartEntry} {chart : Chart}
    {counters counters' : Counters}
    (h : entry.Combines categories chart counters result counters')
    (hfresh : ∀ e ∈ chart.newestFirst, e.id < counters.nextId) : result ∉ chart.newestFirst :=
  fun hmem => absurd h.id_eq (Int.ne_of_lt (hfresh result hmem))

/-- Made by spelling out a phrase whose quantifier takes an index. -/
def takesIndex (categories : PhraseCategories) (entry : ChartEntry) : Bool :=
  entry.operator? = some "spellout" && entry.sources.any (·.expression.bindsArgument categories)

/-- A combination takes one id, and one index if it binds an argument. -/
theorem Combines.counters_eq {categories : PhraseCategories} {entry result : ChartEntry} {chart : Chart}
    {counters counters' : Counters}
    (h : entry.Combines categories chart counters result counters') :
    counters' = ⟨counters.nextId + 1,
      counters.nextIndex - if result.takesIndex categories then 1 else 0⟩ := by
  cases h with
  | @unary name operator result counters' hop hr =>
    obtain ⟨-, expression, nextIndex, he, rfl, rfl⟩ := applyUnary?_eq_some_iff.mp hr
    rw [Operation.next_of_unary hop he]
    simp [takesIndex]
  | @binary name operator other result counters' hop hother hr =>
    obtain ⟨-, expression, -, rfl, rfl⟩ := applyBinary?_eq_some_iff.mp hr
    have hname : name ≠ "spellout" := by
      rcases Operation.mem_binary_iff.mp hop with ⟨rfl, -⟩ | ⟨rfl, -⟩ <;> decide
    simp [takesIndex, hname]

/-- What lexical entries have, and what combinations of entries that have it have too. -/
structure IsInherited (categories : PhraseCategories) (P : ChartEntry → Prop) : Prop where
  lexical : ∀ (id : Int) (item : LexicalItem), P ⟨id, .ofItem item, none, [], ∅⟩
  unary : ∀ {name : Text} {operator : UnaryOperator} {entry result : ChartEntry}
    {counters counters' : Counters}, (name, operator) ∈ Operation.unary categories → P entry →
    entry.applyUnary? name operator counters = some (result, counters') → P result
  binary : ∀ {name : Text} {operator : BinaryOperator} {first second result : ChartEntry}
    {counters counters' : Counters}, (name, operator) ∈ Operation.binary → P first → P second →
    first.applyBinary? name operator second counters = some (result, counters') → P result

theorem Combines.inherits {categories : PhraseCategories} {P : ChartEntry → Prop}
    {entry result : ChartEntry} {chart : Chart} {counters counters' : Counters}
    (h : entry.Combines categories chart counters result counters') (hP : IsInherited categories P)
    (hchart : ∀ e ∈ chart.newestFirst, P e) (he : entry ∈ chart.newestFirst) : P result := by
  cases h with
  | unary hop hr => exact hP.unary hop (hchart _ he) hr
  | binary hop hother hr => exact hP.binary hop (hchart _ he) (hchart _ hother) hr

theorem IsInherited.forall_nodes {categories : PhraseCategories} {P : ChartEntry → Prop}
    (hP : IsInherited categories P) : IsInherited categories fun e => ∀ node ∈ e.nodes, P node := by
  constructor
  · intro id item
    exact List.forall_mem_singleton.mpr (hP.lexical id item)
  · intro name operator entry result counters counters' hop he hr
    rw [nodes_of_applyUnary? hr]
    exact List.forall_mem_cons.mpr ⟨hP.unary hop (he entry (mem_nodes_self entry)) hr, he⟩
  · intro name operator first second result counters counters' hop hf hs hr
    rw [nodes_of_applyBinary? hr]
    refine List.forall_mem_cons.mpr ⟨?_, List.forall_mem_append.mpr ⟨hf, hs⟩⟩
    exact hP.binary hop (hf first (mem_nodes_self first)) (hs second (mem_nodes_self second)) hr

end ChartEntry

theorem Chart.newestFirst_ofList {entries : List ChartEntry} (h : entries.Nodup) :
    (Chart.ofList entries).newestFirst = entries.reverse := by
  have hadd (chart : Chart) (hd : ∀ e ∈ entries, e ∉ chart.newestFirst) :
      (entries.foldl (fun chart entry => (chart.add? entry).getD chart) chart).newestFirst =
        entries.reverse ++ chart.newestFirst := by
    induction entries generalizing chart with
    | nil => rfl
    | cons e entries ih =>
      obtain ⟨he, h⟩ := List.nodup_cons.mp h
      have hnew : chart.add? e = some ⟨e :: chart.newestFirst⟩ := if_neg (hd e List.mem_cons_self)
      have hrest : ∀ d ∈ entries, d ∉ e :: chart.newestFirst := by
        intro d hmem hd'
        rcases List.mem_cons.mp hd' with rfl | hd'
        · exact he hmem
        · exact hd d (List.mem_cons_of_mem e hmem) hd'
      rw [List.foldl_cons, hnew, Option.getD_some, ih h _ hrest]
      simp
  rw [ofList, hadd ∅ (fun _ _ hmem => nomatch hmem)]
  exact List.append_nil _

namespace Parsing

section LexicalEntries
variable (first : Int) (items : List LexicalItem)

theorem length_lexicalEntries : (lexicalEntries first items).length = items.length := by
  rw [lexicalEntries, List.length_map, List.length_zipIdx]

theorem expressions_lexicalEntries :
    (lexicalEntries first items).map (·.expression) = items.map .ofItem := by
  conv_rhs => rw [← List.zipIdx_map_fst 0 items]
  rw [lexicalEntries, List.map_map, List.map_map]
  rfl

theorem ids_lexicalEntries :
    (lexicalEntries first items).map (·.id) =
      (List.range' 0 items.length).map fun k : Nat => first + k := by
  rw [← List.zipIdx_map_snd 0 items, lexicalEntries, List.map_map, List.map_map]
  rfl

theorem isLexical_lexicalEntries : ∀ e ∈ lexicalEntries first items, e.IsLexical := by
  intro e he
  obtain ⟨⟨item, k⟩, -, rfl⟩ := List.mem_map.mp he
  exact ⟨rfl, rfl, rfl⟩

theorem pairwise_ids_lexicalEntries :
    ((lexicalEntries first items).map (·.id)).Pairwise (· < ·) := by
  rw [ids_lexicalEntries, List.pairwise_map]
  refine List.Pairwise.imp (fun hlt => ?_) (List.pairwise_lt_range' _ Nat.one_pos)
  omega

theorem nodup_ids_lexicalEntries : ((lexicalEntries first items).map (·.id)).Nodup := by
  exact (pairwise_ids_lexicalEntries first items).imp Int.ne_of_lt

theorem id_lt_of_mem_lexicalEntries :
    ∀ e ∈ lexicalEntries first items, e.id < first + (lexicalEntries first items).length := by
  intro e he
  have hid := List.mem_map_of_mem (f := (·.id)) he
  rw [ids_lexicalEntries] at hid
  obtain ⟨k, hk, hid⟩ := List.mem_map.mp hid
  have hk := List.mem_range'_1.mp hk
  rw [length_lexicalEntries]
  omega

end LexicalEntries

namespace State
variable {categories : PhraseCategories} {accepts : ChartEntry → Bool} {s s' : State}

/-- What one step can do: take the next entry of the agenda, put an entry down that combines with nothing,
refuse a combination that is there already, or enter a combination. -/
inductive Step (categories : PhraseCategories) (accepts : ChartEntry → Bool) (s : State) :
    State → Prop where
  | take {entry : ChartEntry} {agenda : List ChartEntry} (hfocus : s.focus? = none)
      (hagenda : s.agenda = entry :: agenda) :
      Step categories accepts s { s with agenda := agenda, focus? := some entry }
  | putDown {entry : ChartEntry} (hfocus : s.focus? = some entry)
      (hnone : entry.derive? categories s.chart s.counters = none) :
      Step categories accepts s { s with focus? := none }
  | refuse {entry result : ChartEntry} {counters : Counters} (hfocus : s.focus? = some entry)
      (hresult : entry.Combines categories s.chart s.counters result counters)
      (hmem : result ∈ s.chart.newestFirst) :
      Step categories accepts s { s with counters := counters, focus? := none }
  | enter {entry result : ChartEntry} {counters : Counters} (hfocus : s.focus? = some entry)
      (hresult : entry.Combines categories s.chart s.counters result counters)
      (hmem : result ∉ s.chart.newestFirst) :
      Step categories accepts s
        { counters := counters
          chart := ⟨result :: s.chart.newestFirst⟩
          agenda := result :: s.agenda
          focus? := some result
          accepted? := s.accepted? <|> if accepts result then some result else none
          steps := s.steps + 1 }

theorem step_of_agenda {entry : ChartEntry} {agenda : List ChartEntry} (hfocus : s.focus? = none)
    (hagenda : s.agenda = entry :: agenda) :
    s.step categories accepts = { s with agenda := agenda, focus? := some entry } := by
  unfold step
  rw [hfocus, hagenda]

theorem step_of_derive?_eq_none {entry : ChartEntry} (hfocus : s.focus? = some entry)
    (h : entry.derive? categories s.chart s.counters = none) :
    s.step categories accepts = { s with focus? := none } := by
  unfold step
  rw [hfocus]
  dsimp only
  rw [h]

theorem step_of_derive?_eq_some {entry result : ChartEntry} {counters : Counters}
    (hfocus : s.focus? = some entry)
    (h : entry.derive? categories s.chart s.counters = some (result, counters)) :
    s.step categories accepts = s.enter accepts result counters := by
  unfold step
  rw [hfocus]
  dsimp only
  rw [h]

theorem enter_of_mem {result : ChartEntry} (hmem : result ∈ s.chart.newestFirst) (counters : Counters) :
    s.enter accepts result counters = { s with counters := counters, focus? := none } := by
  have hrefused : s.chart.add? result = none := if_pos hmem
  unfold enter
  rw [hrefused]

theorem enter_of_not_mem {result : ChartEntry} (hmem : result ∉ s.chart.newestFirst)
    (counters : Counters) : s.enter accepts result counters =
      { counters := counters
        chart := ⟨result :: s.chart.newestFirst⟩
        agenda := result :: s.agenda
        focus? := some result
        accepted? := s.accepted? <|> if accepts result then some result else none
        steps := s.steps + 1 } := by
  have hadded : s.chart.add? result = some ⟨result :: s.chart.newestFirst⟩ := if_neg hmem
  unfold enter
  rw [hadded]

theorem step_of_focus {entry : ChartEntry} (h : s.focus? = some entry) :
    Step categories accepts s (s.step categories accepts) := by
  cases hd : entry.derive? categories s.chart s.counters with
  | none =>
    rw [step_of_derive?_eq_none h hd]
    exact .putDown h hd
  | some made =>
    obtain ⟨result, counters⟩ := made
    have hresult := ChartEntry.combines_of_derive? hd
    rw [step_of_derive?_eq_some h hd]
    by_cases hmem : result ∈ s.chart.newestFirst
    · rw [enter_of_mem hmem]
      exact .refuse h hresult hmem
    · rw [enter_of_not_mem hmem]
      exact .enter h hresult hmem

theorem step_of_not_isFinal (h : ¬s.isFinal) :
    Step categories accepts s (s.step categories accepts) := by
  cases hf : s.focus? with
  | some entry => exact step_of_focus hf
  | none =>
    cases ha : s.agenda with
    | nil => simp [isFinal, hf, ha] at h
    | cons entry agenda =>
      rw [step_of_agenda hf ha]
      exact .take hf ha

structure IsGrown (entries : List ChartEntry) (accepts : ChartEntry → Bool) (s : State) :
    Prop where
  built : ChartEntry.Built s.chart.newestFirst s.counters
  entries_subset : entries ⊆ s.chart.newestFirst
  mem_entries : ∀ e ∈ s.chart.newestFirst, e.sources = [] → e ∈ entries
  agenda_subset : s.agenda ⊆ s.chart.newestFirst
  focus_mem : ∀ e, s.focus? = some e → e ∈ s.chart.newestFirst
  accepted_mem : ∀ e, s.accepted? = some e → e ∈ s.chart.newestFirst
  accepts_accepted : ∀ e, s.accepted? = some e → accepts e

theorem IsGrown.leaves_subset {entries : List ChartEntry} (hs : s.IsGrown entries accepts)
    {e : ChartEntry} (he : e ∈ s.chart.newestFirst) : e.leaves ⊆ entries := by
  intro leaf hleaf
  obtain ⟨hnode, hsources⟩ := List.mem_filter.mp hleaf
  exact hs.mem_entries leaf (hs.built.nodes_subset e he hnode) (List.isEmpty_iff.mp hsources)

theorem IsGrown.of_step {entries : List ChartEntry} (hs : s.IsGrown entries accepts)
    (h : Step categories accepts s s') : s'.IsGrown entries accepts := by
  cases h with
  | take hfocus hagenda =>
    have hsub := hs.agenda_subset
    rw [hagenda] at hsub
    have ⟨hentry, hrest⟩ := List.cons_subset.mp hsub
    exact { hs with agenda_subset := hrest, focus_mem := fun e he => Option.some.inj he ▸ hentry }
  | putDown hfocus hnone => exact { hs with focus_mem := fun e he => nomatch he }
  | refuse hfocus hresult hmem =>
    exact absurd hmem (hresult.not_mem hs.built.id_lt)
  | @enter entry result counters hfocus hresult hmem =>
    have haccepted : ∀ e, (s.accepted? <|> if accepts result then some result else none) = some e →
        e ∈ result :: s.chart.newestFirst ∧ accepts e := by
      intro e he
      cases ha : s.accepted? with
      | some accepted =>
        rw [ha] at he
        cases he
        exact ⟨List.mem_cons_of_mem result (hs.accepted_mem e ha), hs.accepts_accepted e ha⟩
      | none =>
        rw [ha, Option.orElse_eq_orElse, Option.orElse_none] at he
        obtain ⟨hresult, rfl⟩ := Option.ite_some_none_eq_some.mp he
        exact ⟨List.mem_cons_self, hresult⟩
    constructor
    · exact hresult.built hs.built (hs.focus_mem _ hfocus)
    · exact List.subset_cons_of_subset result hs.entries_subset
    · intro e he hsources
      rcases List.mem_cons.mp he with rfl | he
      · exact absurd hsources hresult.sources_ne_nil
      · exact hs.mem_entries e he hsources
    · exact List.cons_subset_cons result hs.agenda_subset
    · exact fun e he => Option.some.inj he ▸ List.mem_cons_self
    · exact fun e he => (haccepted e he).1
    · exact fun e he => (haccepted e he).2

theorem Step.pairwise_newestFirst (h : Step categories accepts s s')
    (hfresh : ∀ e ∈ s.chart.newestFirst, e.id < s.counters.nextId)
    (hs : s.chart.newestFirst.Pairwise fun newer older => older.id < newer.id) :
    s'.chart.newestFirst.Pairwise fun newer older => older.id < newer.id := by
  cases h with
  | take => exact hs
  | putDown => exact hs
  | refuse => exact hs
  | enter _ hresult =>
    refine List.pairwise_cons.mpr ⟨fun e he => ?_, hs⟩
    rw [hresult.id_eq]
    exact hfresh e he

end State

inductive Reachable (setting : Setting) (tokens : List Text) (counters : Counters) : State → Prop where
  | initial : Reachable setting tokens counters (setting.initial tokens counters)
  | step {s : State} (h : Reachable setting tokens counters s) (hs : ¬s.isFinal) :
      Reachable setting tokens counters
        (s.step setting.categories (setting.accepts tokens counters))

namespace Setting
variable (setting : Setting) (tokens : List Text) (counters : Counters)

theorem nodup_entries : (setting.entries tokens counters).Nodup :=
  List.Nodup.of_map _ (nodup_ids_lexicalEntries counters.nextId (itemsOf setting.grammar tokens))

theorem chart_initial : (setting.initial tokens counters).chart.newestFirst =
    (setting.entries tokens counters).reverse :=
  Chart.newestFirst_ofList (setting.nodup_entries tokens counters)

theorem isGrown_initial : (setting.initial tokens counters).IsGrown
    (setting.entries tokens counters) (setting.accepts tokens counters) := by
  have hchart := setting.chart_initial tokens counters
  constructor
  · rw [hchart]
    refine .start (fun e he => ?_) ?_ fun e he => ?_
    · exact isLexical_lexicalEntries _ _ e (List.mem_reverse.mp he)
    · rw [List.map_reverse, List.nodup_reverse]
      exact nodup_ids_lexicalEntries _ _
    · exact id_lt_of_mem_lexicalEntries _ _ e (List.mem_reverse.mp he)
  · rw [hchart]
    exact List.subset_reverse.mpr (List.Subset.refl _)
  · rw [hchart]
    exact fun e he _ => List.mem_reverse.mp he
  · rw [hchart]
    exact List.Subset.refl _
  · exact fun e he => nomatch he
  · exact fun e he => nomatch he
  · exact fun e he => nomatch he

end Setting

namespace Reachable
variable {setting : Setting} {tokens : List Text} {counters : Counters} {s : State}

theorem isGrown (h : Reachable setting tokens counters s) :
    s.IsGrown (setting.entries tokens counters) (setting.accepts tokens counters) := by
  induction h with
  | initial => exact setting.isGrown_initial tokens counters
  | step _ hs ih => exact ih.of_step (State.step_of_not_isFinal hs)

theorem run (h : Reachable setting tokens counters s) (bound : Nat) :
    Reachable setting tokens counters
      (s.run setting.categories (setting.accepts tokens counters) bound) := by
  induction bound generalizing s with
  | zero => exact h
  | succ bound ih =>
    rw [State.run]
    split
    · exact h
    · rename_i hs
      exact ih (h.step hs)

theorem search (setting : Setting) (tokens : List Text) (counters : Counters) :
    Reachable setting tokens counters (setting.search tokens counters) := initial.run _

theorem pairwise_newestFirst (h : Reachable setting tokens counters s) :
    s.chart.newestFirst.Pairwise fun newer older => older.id < newer.id := by
  induction h with
  | initial =>
    rw [setting.chart_initial, List.pairwise_reverse]
    exact List.pairwise_map.mp (pairwise_ids_lexicalEntries _ _)
  | step h hs ih =>
    exact (State.step_of_not_isFinal hs).pairwise_newestFirst h.isGrown.built.id_lt ih

/-- What the lexical entries have, and what every combination that is chosen has if the chart has it, holds of
every entry of the chart at any time. -/
theorem forall_chart_of_chooses {P : ChartEntry → Prop}
    (hlexical : ∀ e ∈ setting.entries tokens counters, P e)
    (hchooses : ∀ {s : State} {entry result : ChartEntry} {counters' : Counters},
      Reachable setting tokens counters s → (∀ e ∈ s.chart.newestFirst, P e) →
      entry ∈ s.chart.newestFirst →
      entry.Chooses setting.categories s.chart s.counters result counters' → P result)
    (h : Reachable setting tokens counters s) : ∀ e ∈ s.chart.newestFirst, P e := by
  induction h with
  | initial =>
    rw [setting.chart_initial]
    exact fun e he => hlexical e (List.mem_reverse.mp he)
  | @step s h hs ih =>
    cases hf : s.focus? with
    | none =>
      cases ha : s.agenda with
      | nil => simp [State.isFinal, hf, ha] at hs
      | cons entry agenda =>
        rw [State.step_of_agenda hf ha]
        exact ih
    | some entry =>
      cases hd : entry.derive? setting.categories s.chart s.counters with
      | none =>
        rw [State.step_of_derive?_eq_none hf hd]
        exact ih
      | some made =>
        obtain ⟨result, counters'⟩ := made
        have hmem := (ChartEntry.combines_of_derive? hd).not_mem h.isGrown.built.id_lt
        have hresult := hchooses h ih (h.isGrown.focus_mem _ hf) (ChartEntry.chooses_of_derive? hd)
        rw [State.step_of_derive?_eq_some hf hd, State.enter_of_not_mem hmem]
        exact List.forall_mem_cons.mpr ⟨hresult, ih⟩

theorem forall_chart (h : Reachable setting tokens counters s) {P : ChartEntry → Prop}
    (hP : ChartEntry.IsInherited setting.categories P) : ∀ e ∈ s.chart.newestFirst, P e := by
  refine forall_chart_of_chooses (fun e he => ?_) (fun _ hchart he hr => ?_) h
  · obtain ⟨⟨item, k⟩, -, rfl⟩ := List.mem_map.mp he
    exact hP.lexical _ item
  · exact hr.combines.inherits hP hchart he

end Reachable

end Parsing
end MinimalistGrammar
