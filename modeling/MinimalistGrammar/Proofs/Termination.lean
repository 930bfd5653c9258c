import Mathlib.Data.List.Perm.Subperm
import Mathlib.Logic.Function.Iterate
import MinimalistGrammar.Proofs.Search
import MinimalistGrammar.Proofs.Weight

/-! The end of every search. Attaching adds a node to a derivation and the operators on one expression use
up some of its weight, so that the leaves of a derivation bound its size; and since no insertion is used
twice, the leaves are no more than the lexical entries of the text. An entry that can still grow costs at
most as many steps as two that can grow less, and two more. -/
namespace MinimalistGrammar

namespace Expression

theorem weightOfAll_le_of_sublist {s t : List Expression} (h : s.Sublist t) :
    weightOfAll s ≤ weightOfAll t := by
  induction h with
  | slnil => exact Nat.le_refl _
  | cons e _ ih => exact Nat.le_trans ih (Nat.le_add_left _ _)
  | cons_cons e _ ih => exact Nat.add_le_add_left ih _

theorem weightOfAll_of_perm {s t : List Expression} (h : s.Perm t) :
    weightOfAll s = weightOfAll t := by
  induction h with
  | nil => rfl
  | cons e _ ih => rw [weightOfAll, weightOfAll, ih]
  | swap e d s => simp only [weightOfAll, Nat.add_left_comm]
  | trans _ _ ih ih' => exact ih.trans ih'

theorem weightOfAll_ofItem (items : List LexicalItem) :
    weightOfAll (items.map ofItem) = Parsing.featureCount items := by
  induction items with
  | nil => rfl
  | cons item items ih => rw [List.map_cons, weightOfAll, ih, weight_ofItem, Parsing.featureCount]

end Expression

namespace ChartEntry

def budget (entries : List ChartEntry) : Nat :=
  Expression.weightOfAll (entries.map (·.expression)) + 2 * entries.length

theorem budget_append (s t : List ChartEntry) : budget (s ++ t) = budget s + budget t := by
  simp only [budget, List.map_append, Expression.weightOfAll_append, List.length_append]
  omega

theorem budget_le_of_subset {s t : List ChartEntry} (hs : s.Nodup) (h : s ⊆ t) :
    budget s ≤ budget t := by
  obtain ⟨u, hperm, hsub⟩ := hs.subperm h
  have hweight := Expression.weightOfAll_of_perm (hperm.map (·.expression))
  have hle := Expression.weightOfAll_le_of_sublist (hsub.map (·.expression))
  have hlength := hperm.length_eq
  have hlength_le := hsub.length_le
  unfold budget
  omega

/-- The leaves of a derivation pay for its nodes and for what is left of its weight. -/
def IsPaid (entry : ChartEntry) : Prop :=
  entry.nodes.length + entry.expression.weight + 1 ≤ budget entry.leaves

theorem IsLexical.isPaid {entry : ChartEntry} (h : entry.IsLexical) : entry.IsPaid := by
  rw [IsPaid, leaves_of_sources_eq_nil h.sources_eq, nodes_eq_cons, descendants, h.sources_eq]
  simp only [List.flatMap_nil, budget, List.map_cons, List.map_nil, Expression.weightOfAll,
    List.length_cons, List.length_nil]
  omega

/-- A node more for an operator on one entry, and less weight. -/
theorem isPaid_of_applyUnary? {categories : PhraseCategories} {name : Text}
    {operator : UnaryOperator} {entry result : ChartEntry} {counters counters' : Counters}
    (hop : (name, operator) ∈ Operation.unary categories) (h : entry.IsPaid)
    (hr : entry.applyUnary? name operator counters = some (result, counters')) :
    result.IsPaid := by
  rw [IsPaid, nodes_of_applyUnary? hr, leaves_of_applyUnary? hr, List.length_cons]
  obtain ⟨-, expression, nextIndex, he, rfl, -⟩ := applyUnary?_eq_some_iff.mp hr
  have hweight := Operation.weight_of_unary hop he
  unfold IsPaid at h
  dsimp only
  omega

/-- A node more for two entries, whose leaves had each one to spare. -/
theorem isPaid_of_applyBinary? {name : Text} {operator : BinaryOperator}
    {first second result : ChartEntry} {counters counters' : Counters}
    (hop : (name, operator) ∈ Operation.binary) (hf : first.IsPaid) (hs : second.IsPaid)
    (hr : first.applyBinary? name operator second counters = some (result, counters')) :
    result.IsPaid := by
  rw [IsPaid, nodes_of_applyBinary? hr, leaves_of_applyBinary? hr, budget_append, List.length_cons,
    List.length_append]
  obtain ⟨-, expression, he, rfl, -⟩ := applyBinary?_eq_some_iff.mp hr
  have hweight := Operation.weight_of_binary hop he
  unfold IsPaid at hf hs
  dsimp only
  omega

theorem isInherited_isPaid (categories : PhraseCategories) : IsInherited categories IsPaid :=
  ⟨fun _ _ => IsLexical.isPaid ⟨rfl, rfl, rfl⟩, isPaid_of_applyUnary?, isPaid_of_applyBinary?⟩

namespace Combines
variable {categories : PhraseCategories} {entry result : ChartEntry} {chart : Chart}
  {counters counters' : Counters}

theorem length_nodes_lt (h : entry.Combines categories chart counters result counters') :
    entry.nodes.length < result.nodes.length := by
  cases h with
  | unary _ hr =>
    rw [nodes_of_applyUnary? hr, List.length_cons]
    exact Nat.lt_succ_self _
  | binary _ _ hr =>
    rw [nodes_of_applyBinary? hr, List.length_cons, List.length_append]
    omega

end Combines
end ChartEntry

namespace Parsing

/-- The largest derivation from some items. -/
def nodeLimit (items : List LexicalItem) : Nat := 2 * items.length + 2 * featureCount items

/-- The steps that an entry in focus costs at most, if its derivation can grow by that many nodes. -/
def effort : Nat → Nat
  | 0 => 1
  | growth + 1 => 2 * effort growth + 2

theorem effort_eq (growth : Nat) : effort growth + 2 = 3 * Nat.pow 2 growth := by
  induction growth with
  | zero => rfl
  | succ growth ih =>
    have hpow : Nat.pow 2 (growth + 1) = Nat.pow 2 growth * 2 := rfl
    rw [effort, hpow]
    omega

theorem effort_mono {growth growth' : Nat} (h : growth ≤ growth') :
    effort growth ≤ effort growth' := by
  induction h with
  | refl => exact Nat.le_refl _
  | step _ ih =>
    rw [effort]
    omega

theorem effort_pos (growth : Nat) : 0 < effort growth := effort_mono (Nat.zero_le growth)

theorem two_mul_effort_lt {growth growth' : Nat} (h : growth < growth') :
    2 * effort growth + 1 < effort growth' := by
  have h := effort_mono (Nat.succ_le_of_lt h)
  rw [effort] at h
  omega

def growth (limit : Nat) (entry : ChartEntry) : Nat := limit - entry.nodes.length

theorem growth_lt_of_combines {categories : PhraseCategories} {entry result : ChartEntry}
    {chart : Chart} {counters counters' : Counters} {limit : Nat}
    (h : entry.Combines categories chart counters result counters')
    (hlimit : result.nodes.length ≤ limit) : growth limit result < growth limit entry :=
  Nat.sub_lt_sub_left (Nat.lt_of_lt_of_le h.length_nodes_lt hlimit) h.length_nodes_lt

/-- An entry on the agenda costs one more step than in focus. -/
def agendaWork (limit : Nat) : List ChartEntry → Nat
  | [] => 0
  | entry :: agenda => effort (growth limit entry) + 1 + agendaWork limit agenda

theorem agendaWork_le (limit : Nat) (agenda : List ChartEntry) :
    agendaWork limit agenda ≤ agenda.length * (effort limit + 1) := by
  induction agenda with
  | nil => exact Nat.zero_le _
  | cons entry agenda ih =>
    have heffort : effort (growth limit entry) ≤ effort limit := effort_mono (Nat.sub_le _ _)
    rw [agendaWork, List.length_cons, Nat.succ_mul]
    omega

namespace State

def work (limit : Nat) (s : State) : Nat :=
  (s.focus?.elim 0 fun entry => effort (growth limit entry)) + agendaWork limit s.agenda

variable {categories : PhraseCategories} {accepts : ChartEntry → Bool} {s s' : State}

theorem work_lt_of_step {limit : Nat} (h : Step categories accepts s s')
    (hlimit : ∀ e ∈ s'.chart.newestFirst, e.nodes.length ≤ limit) :
    s'.work limit < s.work limit := by
  cases h with
  | take hfocus hagenda =>
    simp only [work, hfocus, hagenda, Option.elim, agendaWork]
    omega
  | @putDown entry hfocus =>
    have heffort := effort_pos (growth limit entry)
    simp only [work, hfocus, Option.elim]
    omega
  | @refuse entry _ _ hfocus =>
    have heffort := effort_pos (growth limit entry)
    simp only [work, hfocus, Option.elim]
    omega
  | @enter entry result _ hfocus hresult =>
    -- the result counts twice, since it comes into focus and onto the agenda
    have hgrowth := growth_lt_of_combines hresult (hlimit result List.mem_cons_self)
    have heffort := two_mul_effort_lt hgrowth
    simp only [work, hfocus, Option.elim, agendaWork]
    omega

theorem growth_lt_of_step {limit : Nat} (h : Step categories accepts s s')
    (hlimit : ∀ e ∈ s'.chart.newestFirst, e.nodes.length ≤ limit) {entry next : ChartEntry}
    (hfocus : s.focus? = some entry) (hnext : s'.focus? = some next) :
    growth limit next < growth limit entry := by
  cases h with
  | take hnone =>
    rw [hnone] at hfocus
    cases hfocus
  | putDown => cases hnext
  | refuse => cases hnext
  | enter he hresult =>
    cases Option.some.inj (he.symm.trans hfocus)
    cases hnext
    exact growth_lt_of_combines hresult (hlimit _ List.mem_cons_self)

theorem exists_iterate_eq_run (categories : PhraseCategories) (accepts : ChartEntry → Bool)
    (bound : Nat) (s : State) :
    ∃ n ≤ bound, s.run categories accepts bound = (step categories accepts)^[n] s ∧
      ∀ k < n, ¬((step categories accepts)^[k] s).isFinal := by
  induction bound generalizing s with
  | zero => exact ⟨0, Nat.le_refl 0, rfl, fun k hk => absurd hk (Nat.not_lt_zero k)⟩
  | succ bound ih =>
    by_cases hs : s.isFinal
    · exact ⟨0, Nat.zero_le _, if_pos hs, fun k hk => absurd hk (Nat.not_lt_zero k)⟩
    · obtain ⟨n, hn, hrun, hfinal⟩ := ih (s.step categories accepts)
      refine ⟨n + 1, Nat.succ_le_succ hn, ?_, fun k hk => ?_⟩
      · rw [run, if_neg hs, hrun, Function.iterate_succ_apply]
      · cases k with
        | zero => exact hs
        | succ k => exact hfinal k (Nat.lt_of_succ_lt_succ hk)

end State

namespace Reachable
variable {setting : Setting} {tokens : List Text} {counters : Counters} {s : State}

theorem length_nodes_le (h : Reachable setting tokens counters s) :
    ∀ e ∈ s.chart.newestFirst, e.nodes.length ≤ nodeLimit (itemsOf setting.grammar tokens) := by
  intro e he
  -- no insertion is used twice, so that all leaves together have no more than the text to spend
  have hnodup := (h.isGrown.built.isDisciplined e he).nodup_leaf_ids.of_map
  have hbudget := ChartEntry.budget_le_of_subset hnodup (h.isGrown.leaves_subset he)
  have hpaid := h.forall_chart (ChartEntry.isInherited_isPaid _) e he
  have htotal : ChartEntry.budget (setting.entries tokens counters) =
      featureCount (itemsOf setting.grammar tokens) +
        2 * (itemsOf setting.grammar tokens).length := by
    rw [ChartEntry.budget, Setting.entries, expressions_lexicalEntries, length_lexicalEntries,
      Expression.weightOfAll_ofItem]
  unfold ChartEntry.IsPaid at hpaid
  unfold nodeLimit
  omega

theorem work_step_lt (h : Reachable setting tokens counters s) (hs : ¬s.isFinal) :
    (s.step setting.categories (setting.accepts tokens counters)).work
        (nodeLimit (itemsOf setting.grammar tokens)) <
      s.work (nodeLimit (itemsOf setting.grammar tokens)) :=
  State.work_lt_of_step (State.step_of_not_isFinal hs) (h.step hs).length_nodes_le

theorem isFinal_run (h : Reachable setting tokens counters s) {bound : Nat}
    (hbound : s.work (nodeLimit (itemsOf setting.grammar tokens)) ≤ bound) :
    (s.run setting.categories (setting.accepts tokens counters) bound).isFinal := by
  induction bound generalizing s with
  | zero =>
    by_contra hs
    have hwork := h.work_step_lt hs
    omega
  | succ bound ih =>
    rw [State.run]
    split
    · assumption
    · rename_i hs
      have hwork := h.work_step_lt hs
      exact ih (h.step hs) (by omega)

/-- The combinations that follow each other without a look at the agenda come to an end. -/
theorem exists_focus_eq_none (h : Reachable setting tokens counters s) {bound : Nat}
    (hbound : ∀ e, s.focus? = some e →
      growth (nodeLimit (itemsOf setting.grammar tokens)) e < bound) :
    ∃ n ≤ bound, ((State.step setting.categories
      (setting.accepts tokens counters))^[n] s).focus? = none := by
  induction bound generalizing s with
  | zero =>
    refine ⟨0, Nat.le_refl 0, ?_⟩
    cases hf : s.focus? with
    | none => exact hf
    | some e => exact absurd (hbound e hf) (Nat.not_lt_zero _)
  | succ bound ih =>
    cases hf : s.focus? with
    | none => exact ⟨0, Nat.zero_le _, hf⟩
    | some e =>
      have hs : ¬s.isFinal := by simp [State.isFinal, hf]
      have hnext : ∀ d,
          (s.step setting.categories (setting.accepts tokens counters)).focus? = some d →
          growth (nodeLimit (itemsOf setting.grammar tokens)) d < bound := by
        intro d hd
        have hgrowth :=
          State.growth_lt_of_step (State.step_of_focus hf) (h.step hs).length_nodes_le hf hd
        have hbound := hbound e hf
        omega
      obtain ⟨n, hn, hnone⟩ := ih (h.step hs) hnext
      exact ⟨n + 1, Nat.succ_le_succ hn, hnone⟩

end Reachable

namespace Setting

theorem work_initial_le (setting : Setting) (tokens : List Text) (counters : Counters) :
    (setting.initial tokens counters).work (nodeLimit (itemsOf setting.grammar tokens)) ≤
      stepBound (itemsOf setting.grammar tokens) := by
  have hagenda := agendaWork_le (nodeLimit (itemsOf setting.grammar tokens))
    (setting.entries tokens counters).reverse
  rw [List.length_reverse, entries, length_lexicalEntries] at hagenda
  have heffort := effort_eq (nodeLimit (itemsOf setting.grammar tokens))
  calc (setting.initial tokens counters).work (nodeLimit (itemsOf setting.grammar tokens))
      = 0 + agendaWork (nodeLimit (itemsOf setting.grammar tokens))
          (setting.entries tokens counters).reverse := rfl
    _ ≤ (itemsOf setting.grammar tokens).length *
          (effort (nodeLimit (itemsOf setting.grammar tokens)) + 1) := by
        rw [Nat.zero_add]
        exact hagenda
    _ ≤ (itemsOf setting.grammar tokens).length *
          (3 * Nat.pow 2 (nodeLimit (itemsOf setting.grammar tokens))) :=
        Nat.mul_le_mul_left _ (by omega)
    _ = stepBound (itemsOf setting.grammar tokens) := rfl

/-- Every search ends: the combinations that follow each other come to an end from every state that it
comes to, and so does the whole, at the first state with an empty agenda or an accepted entry and nothing
in focus. -/
theorem search_terminates (setting : Setting) (tokens : List Text) (counters : Counters) :
    let items := itemsOf setting.grammar tokens
    let step := State.step setting.categories (setting.accepts tokens counters)
    let last := setting.search tokens counters
    (∀ s, Reachable setting tokens counters s →
      ∃ n ≤ nodeLimit items, (step^[n] s).focus? = none) ∧
    ∃ n ≤ stepBound items, last = step^[n] (setting.initial tokens counters) ∧
      (∀ k < n, ¬(step^[k] (setting.initial tokens counters)).isFinal) ∧
      last.focus? = none ∧ (last.agenda = [] ∨ last.accepted?.isSome) := by
  intro items step last
  constructor
  · intro s hs
    refine hs.exists_focus_eq_none fun e he => ?_
    have hpos : 0 < e.nodes.length := List.length_pos_of_mem e.mem_nodes_self
    have hle := hs.length_nodes_le e (hs.isGrown.focus_mem e he)
    exact Nat.sub_lt (Nat.lt_of_lt_of_le hpos hle) hpos
  · obtain ⟨n, hn, hlast, hfirst⟩ := State.exists_iterate_eq_run setting.categories
      (setting.accepts tokens counters) (stepBound items) (setting.initial tokens counters)
    have hfinal : last.isFinal := Reachable.initial.isFinal_run (setting.work_initial_le tokens counters)
    rw [State.isFinal, Bool.and_eq_true, Bool.or_eq_true, Option.isNone_iff_eq_none,
      List.isEmpty_iff] at hfinal
    exact ⟨n, hn, hlast, hfirst, hfinal⟩

/-- With two words, the last of them in focus. -/
theorem search_terminates_two_words :
    let setting : Setting := ⟨⟨[⟨"a", [⟨.licensor, "d"⟩, ⟨.licensee, "c"⟩], .const "a"⟩,
      ⟨"b", [⟨.licensee, "d"⟩], .const "b"⟩], .ofList ["c"]⟩, {}⟩
    let step := State.step setting.categories (setting.accepts ["a", "b"] {})
    let taken := step (setting.initial ["a", "b"] {})
    Reachable setting ["a", "b"] {} taken ∧ taken.focus?.isSome ∧
      ∃ n ≤ 10, (step^[n] taken).focus? = none := by
  intro setting step taken
  have htaken : Reachable setting ["a", "b"] {} taken := Reachable.initial.step (by decide)
  exact ⟨htaken, by decide, (search_terminates setting ["a", "b"] {}).1 taken htaken⟩

end Setting
end Parsing
end MinimalistGrammar
