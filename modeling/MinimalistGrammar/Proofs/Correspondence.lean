import MinimalistGrammar.Proofs.Search

/-! Searches in step with each other. If corresponding entries make what corresponds, the searches of a text from
corresponding states take the same course. -/
namespace MinimalistGrammar

theorem findSome?_eq_map_of_forall {α β γ : Type} {f : α → Option β} {f' : α → Option γ} {g : β → γ}
    {s : List α} (h : ∀ a ∈ s, f' a = (f a).map g) : s.findSome? f' = (s.findSome? f).map g := by
  induction s with
  | nil => rfl
  | cons a s ih =>
    obtain ⟨ha, hs⟩ := List.forall_mem_cons.mp h
    rw [List.findSome?_cons, List.findSome?_cons, ha]
    cases f a with
    | none => exact ih hs
    | some b => rfl

/-- Other entries and other counters in the place of those of a search. -/
structure Correspondence where
  entry : ChartEntry → ChartEntry
  counters : Counters → Counters

namespace Correspondence
variable (κ : Correspondence)

def made : ChartEntry × Counters → ChartEntry × Counters := Prod.map κ.entry κ.counters

def chart (chart : Chart) : Chart := ⟨chart.newestFirst.map κ.entry⟩

def state (s : Parsing.State) : Parsing.State where
  counters := κ.counters s.counters
  chart := κ.chart s.chart
  agenda := s.agenda.map κ.entry
  focus? := s.focus?.map κ.entry
  accepted? := s.accepted?.map κ.entry
  steps := s.steps

def outcome (o : Parsing.Outcome) : Parsing.Outcome :=
  { o with chart := κ.chart o.chart, entry? := o.entry?.map κ.entry, counters := κ.counters o.counters }

/-- From these counters, corresponding entries make what corresponds. -/
structure Respects (categories categories' : PhraseCategories) (counters : Counters) : Prop where
  id_inj : ∀ {a b : ChartEntry}, (κ.entry a).id = (κ.entry b).id → a.id = b.id
  spellOut : ∀ e : ChartEntry,
    (κ.entry e).applyUnary? "spellout" (Expression.spellOut? categories') (κ.counters counters) =
      (e.applyUnary? "spellout" (Expression.spellOut? categories) counters).map κ.made
  merge : ∀ {name : Text} {operator : UnaryOperator}, (name, operator) ∈ Operation.merges →
    ∀ e : ChartEntry, (κ.entry e).applyUnary? name operator (κ.counters counters) =
      (e.applyUnary? name operator counters).map κ.made
  binary : ∀ {name : Text} {operator : BinaryOperator}, (name, operator) ∈ Operation.binary →
    ∀ a b : ChartEntry, (κ.entry a).applyBinary? name operator (κ.entry b) (κ.counters counters) =
      (a.applyBinary? name operator b counters).map κ.made

variable {κ} {categories categories' : PhraseCategories} {counters : Counters}

theorem Respects.derive?_eq (h : κ.Respects categories categories' counters) (entry : ChartEntry)
    (chart : Chart) : (κ.entry entry).derive? categories' (κ.chart chart) (κ.counters counters) =
      (entry.derive? categories chart counters).map κ.made := by
  have hpartner {name : Text} {operator : BinaryOperator} (hop : (name, operator) ∈ Operation.binary) :
      (κ.chart chart).newestFirst.findSome?
          (fun other => (κ.entry entry).applyBinary? name operator other (κ.counters counters)) =
        (chart.newestFirst.findSome? fun other => entry.applyBinary? name operator other counters).map
          κ.made := by
    rw [Correspondence.chart, List.findSome?_map]
    exact findSome?_eq_map_of_forall fun other _ => h.binary hop entry other
  have hadjunct : (("insert_adjunct" : Text), Expression.insertAdjunct?) ∈ Operation.binary :=
    List.mem_cons_self
  have hinsert : (("insert" : Text), Expression.insert?) ∈ Operation.binary :=
    List.mem_cons_of_mem _ List.mem_cons_self
  have hmerge : (Operation.merges.findSome? fun op =>
        (κ.entry entry).applyUnary? op.1 op.2 (κ.counters counters)) =
      (Operation.merges.findSome? fun op => entry.applyUnary? op.1 op.2 counters).map κ.made :=
    findSome?_eq_map_of_forall fun _ hop => h.merge hop entry
  have hunary : ((Operation.unary categories').findSome? fun op =>
        (κ.entry entry).applyUnary? op.1 op.2 (κ.counters counters)) =
      ((Operation.unary categories).findSome? fun op => entry.applyUnary? op.1 op.2 counters).map κ.made := by
    rw [Operation.unary_eq_cons, Operation.unary_eq_cons, List.findSome?_cons, List.findSome?_cons, hmerge]
    dsimp only
    rw [h.spellOut]
    cases entry.applyUnary? "spellout" (Expression.spellOut? categories) counters <;> rfl
  rw [ChartEntry.derive?_eq_or, ChartEntry.derive?_eq_or, hpartner hadjunct, hpartner hinsert, hunary,
    Option.map_or, Option.map_or]

section
variable {accepts accepts' : ChartEntry → Bool} {s : Parsing.State}

theorem isFinal_state (κ : Correspondence) (s : Parsing.State) : (κ.state s).isFinal = s.isFinal := by
  simp [Parsing.State.isFinal, state]

theorem enter_state (hid : ∀ {a b : ChartEntry}, (κ.entry a).id = (κ.entry b).id → a.id = b.id)
    (haccepts : ∀ e, accepts' (κ.entry e) = accepts e) {result : ChartEntry}
    (hfresh : ∀ e ∈ s.chart.newestFirst, e.id ≠ result.id) (counters : Counters) :
    (κ.state s).enter accepts' (κ.entry result) (κ.counters counters) =
      κ.state (s.enter accepts result counters) := by
  have hmem : result ∉ s.chart.newestFirst := fun hmem => hfresh result hmem rfl
  have hmem' : κ.entry result ∉ (κ.state s).chart.newestFirst := by
    intro hmem
    obtain ⟨e, he, heq⟩ := List.mem_map.mp hmem
    exact hfresh e he (hid (congrArg ChartEntry.id heq))
  have haccepted : ((κ.state s).accepted? <|>
        if accepts' (κ.entry result) then some (κ.entry result) else none) =
      (s.accepted? <|> if accepts result then some result else none).map κ.entry := by
    rw [haccepts, state]
    cases s.accepted? <;> cases accepts result <;> rfl
  rw [Parsing.State.enter_of_not_mem hmem, Parsing.State.enter_of_not_mem hmem', haccepted]
  rfl

theorem Respects.step_state (h : κ.Respects categories categories' s.counters)
    (haccepts : ∀ e, accepts' (κ.entry e) = accepts e)
    (hfresh : ∀ e ∈ s.chart.newestFirst, e.id < s.counters.nextId) :
    (κ.state s).step categories' accepts' = κ.state (s.step categories accepts) := by
  cases hf : s.focus? with
  | some entry =>
    have hf' : (κ.state s).focus? = some (κ.entry entry) := congrArg (Option.map κ.entry) hf
    have hderive : (κ.entry entry).derive? categories' (κ.state s).chart (κ.state s).counters =
        (entry.derive? categories s.chart s.counters).map κ.made := h.derive?_eq entry s.chart
    cases hd : entry.derive? categories s.chart s.counters with
    | none =>
      rw [hd] at hderive
      rw [Parsing.State.step_of_derive?_eq_none hf hd, Parsing.State.step_of_derive?_eq_none hf' hderive]
      rfl
    | some made =>
      obtain ⟨result, counters⟩ := made
      have hid := (ChartEntry.combines_of_derive? hd).id_eq
      rw [hd] at hderive
      rw [Parsing.State.step_of_derive?_eq_some hf hd, Parsing.State.step_of_derive?_eq_some hf' hderive]
      exact enter_state h.id_inj haccepts (fun e he => hid ▸ Int.ne_of_lt (hfresh e he)) counters
  | none =>
    have hf' : (κ.state s).focus? = none := congrArg (Option.map κ.entry) hf
    have hagenda : (κ.state s).agenda = s.agenda.map κ.entry := rfl
    unfold Parsing.State.step
    rw [hf, hf', hagenda]
    cases s.agenda <;> rfl

end

open Parsing

structure Relates (κ : Correspondence) (setting setting' : Setting) (tokens : List Text)
    (counters : Counters) : Prop where
  respects : ∀ {s : State}, Reachable setting tokens counters s →
    κ.Respects setting.categories setting'.categories s.counters
  entries_eq : setting'.entries tokens (κ.counters counters) =
    (setting.entries tokens counters).map κ.entry
  nextId_add : ∀ n : Nat, κ.counters { counters with nextId := counters.nextId + n } =
    { κ.counters counters with nextId := (κ.counters counters).nextId + n }
  accepts_eq : ∀ e : ChartEntry,
    setting'.accepts tokens (κ.counters counters) (κ.entry e) = setting.accepts tokens counters e
  bound_eq : stepBound (itemsOf setting'.grammar tokens) = stepBound (itemsOf setting.grammar tokens)

namespace Relates
variable {setting setting' : Setting} {tokens : List Text}
  (h : κ.Relates setting setting' tokens counters)
include h

theorem initial_eq : setting'.initial tokens (κ.counters counters) =
    κ.state (setting.initial tokens counters) := by
  have hchart : (setting'.initial tokens (κ.counters counters)).chart =
      κ.chart (setting.initial tokens counters).chart := by
    have hnewest : (setting'.initial tokens (κ.counters counters)).chart.newestFirst =
        (κ.chart (setting.initial tokens counters).chart).newestFirst := by
      rw [chart, setting'.chart_initial, setting.chart_initial, h.entries_eq, List.map_reverse]
    exact congrArg Chart.mk hnewest
  rw [state, ← hchart]
  simp only [Setting.initial, h.entries_eq, List.length_map, h.nextId_add, List.map_reverse, Option.map_none]

/-- A search from a state that corresponds to one of the search takes the same course. -/
theorem run_eq {s : State} (hs : Reachable setting tokens counters s) (bound : Nat) :
    (κ.state s).run setting'.categories (setting'.accepts tokens (κ.counters counters)) bound =
      κ.state (s.run setting.categories (setting.accepts tokens counters) bound) := by
  induction bound generalizing s with
  | zero => rfl
  | succ bound ih =>
    rw [State.run, State.run, isFinal_state]
    split
    · rfl
    · rename_i hfinal
      rw [(h.respects hs).step_state h.accepts_eq hs.isGrown.built.id_lt, ih (hs.step hfinal)]

theorem search_eq : setting'.search tokens (κ.counters counters) =
    κ.state (setting.search tokens counters) := by
  rw [Setting.search, h.initial_eq, h.bound_eq]
  exact h.run_eq .initial _

theorem spellOutAccepted_eq (entry : ChartEntry) :
    spellOutAccepted setting'.categories (κ.entry entry)
        (κ.counters (setting.search tokens counters).counters) =
      κ.made (spellOutAccepted setting.categories entry (setting.search tokens counters).counters) := by
  have hsearch := Reachable.search setting tokens counters
  rw [spellOutAccepted, spellOutAccepted, (h.respects hsearch).spellOut]
  cases entry.applyUnary? "spellout" (Expression.spellOut? setting.categories)
    (setting.search tokens counters).counters <;> rfl

end Relates

/-- The parses of a text correspond if the searches do and the same tokens are unknown. -/
theorem Relates.parse_eq {setting setting' : Setting} {text : Text}
    (h : κ.Relates setting setting' (tokenize text) counters)
    (hlookup : ∀ token, (setting'.grammar.lookup token).isEmpty = (setting.grammar.lookup token).isEmpty) :
    setting'.parse text (κ.counters counters) = κ.outcome (setting.parse text counters) := by
  unfold Setting.parse
  simp only [hlookup]
  split
  · rfl
  · have haccepted : (κ.state (setting.search (tokenize text) counters)).accepted? =
        (setting.search (tokenize text) counters).accepted?.map κ.entry := rfl
    rw [h.search_eq, haccepted, h.entries_eq, List.length_map]
    cases (setting.search (tokenize text) counters).accepted? with
    | none => rfl
    | some accepted =>
      have hspelled := h.spellOutAccepted_eq accepted
      dsimp only [Option.map_some, state]
      rw [hspelled]
      rfl

end Correspondence
end MinimalistGrammar
