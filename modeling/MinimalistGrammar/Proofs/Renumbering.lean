import MinimalistGrammar.Proofs.Consumption
import MinimalistGrammar.Proofs.Correspondence
import MinimalistGrammar.Proofs.Reindexing

/-! Parses from other counters. Ids are only compared with each other and fresh indices with nothing at all, so
that searches of one text from any two counters go in step: each makes what the other makes, with ids and
indices that are ahead by as much as the counters were in the beginning. -/
namespace MinimalistGrammar

namespace SortedSet

theorem compare_add_right (a b k : Int) : compare (a + k) (b + k) = compare a b := by
  simp only [compare, compareOfLessAndEq, Int.add_lt_add_iff_right, Int.add_left_inj]

def shift (k : Int) (s : SortedSet Int) : SortedSet Int where
  elements := s.elements.map (· + k)
  ordered := by
    rw [List.pairwise_map]
    simpa only [compare_add_right] using s.ordered

theorem elements_shift (k : Int) (s : SortedSet Int) :
    (s.shift k).elements = s.elements.map (· + k) := rfl

@[simp] theorem shift_empty (k : Int) : (∅ : SortedSet Int).shift k = ∅ := rfl

variable {k : Int} {s t : SortedSet Int}

@[simp] theorem mem_shift {a : Int} : a + k ∈ s.shift k ↔ a ∈ s := by
  rw [← mem_elements, ← mem_elements, elements_shift, List.mem_map]
  simp

theorem insert_shift (a : Int) : (s.shift k).insert (a + k) = (s.insert a).shift k := by
  have hordered (elements : List Int) : insertOrdered (a + k) (elements.map (· + k)) =
      (insertOrdered a elements).map (· + k) := by
    induction elements with
    | nil => rfl
    | cons b rest ih =>
      rw [List.map_cons, insertOrdered, insertOrdered, compare_add_right]
      split
      · rfl
      · rfl
      · rw [ih, List.map_cons]
  simp only [insert, shift, hordered]

theorem foldl_insert_shift (values : List Int) :
    (values.map (· + k)).foldl insert (s.shift k) = (values.foldl insert s).shift k := by
  induction values generalizing s with
  | nil => rfl
  | cons a values ih => rw [List.map_cons, List.foldl_cons, insert_shift, ih, List.foldl_cons]

theorem union_shift : (s.shift k).union (t.shift k) = (s.union t).shift k :=
  foldl_insert_shift t.elements

theorem ofList_shift (values : List Int) : ofList (values.map (· + k)) = (ofList values).shift k := by
  rw [ofList, ofList, ← foldl_insert_shift, shift_empty]

theorem isDisjoint_shift : (s.shift k).isDisjoint (t.shift k) = s.isDisjoint t := by
  rw [isDisjoint, isDisjoint, elements_shift, List.all_map]
  simp only [Function.comp_def, mem_shift]

theorem isSubset_shift : (s.shift k).isSubset (t.shift k) = s.isSubset t := by
  rw [isSubset, isSubset, elements_shift, List.all_map]
  simp only [Function.comp_def, mem_shift]

end SortedSet

/-- By how much the ids and the indices of some counters are ahead of those of others. -/
structure Shift where
  ids : Int
  indices : Int

/-- Indices that come from counters are negative. The others are those of pronouns and stay. -/
def Shift.index (σ : Shift) (i : Int) : Int := if i < 0 then i + σ.indices else i

theorem Shift.index_of_neg (σ : Shift) {i : Int} (h : i < 0) : σ.index i = i + σ.indices := if_pos h

theorem Shift.index_of_nonneg (σ : Shift) {i : Int} (h : 0 ≤ i) : σ.index i = i :=
  if_neg (Int.not_lt.mpr h)

namespace Counters

def shift (σ : Shift) (c : Counters) : Counters := ⟨c.nextId + σ.ids, c.nextIndex + σ.indices⟩

def shiftTo (c c' : Counters) : Shift := ⟨c'.nextId - c.nextId, c'.nextIndex - c.nextIndex⟩

theorem shift_shiftTo (c c' : Counters) : c.shift (c.shiftTo c') = c' := by
  cases c'
  simp only [shift, shiftTo, mk.injEq]
  omega

end Counters

namespace ChartEntry

mutual
def shift (σ : Shift) : ChartEntry → ChartEntry
  | ⟨id, expression, operator?, sources, retired⟩ =>
    ⟨id + σ.ids, expression.mapIndices σ.index, operator?, shiftAll σ sources, retired.shift σ.ids⟩

def shiftAll (σ : Shift) : List ChartEntry → List ChartEntry
  | [] => []
  | e :: rest => shift σ e :: shiftAll σ rest
end

theorem shiftAll_eq_map (σ : Shift) (entries : List ChartEntry) :
    shiftAll σ entries = entries.map (shift σ) := by
  induction entries with
  | nil => rfl
  | cons e rest ih => rw [shiftAll, ih, List.map_cons]

section
variable (σ : Shift)

theorem shift_mk (id : Int) (expression : Expression) (operator? : Option Text)
    (sources : List ChartEntry) (retired : SortedSet Int) :
    shift σ ⟨id, expression, operator?, sources, retired⟩ =
      ⟨id + σ.ids, expression.mapIndices σ.index, operator?, sources.map (shift σ),
        retired.shift σ.ids⟩ := by
  rw [shift, shiftAll_eq_map]

variable (e : ChartEntry)

@[simp] theorem id_shift : (e.shift σ).id = e.id + σ.ids := by
  cases e
  rw [shift]

@[simp] theorem expression_shift : (e.shift σ).expression = e.expression.mapIndices σ.index := by
  cases e
  rw [shift]

@[simp] theorem retired_shift : (e.shift σ).retired = e.retired.shift σ.ids := by
  cases e
  rw [shift]

end

variable {σ : Shift}

theorem applyUnary?_shift {categories : PhraseCategories} {name : Text} {operator : UnaryOperator}
    (hop : (name, operator) ∈ Operation.unary categories) {counters : Counters}
    (hindex : counters.nextIndex < 0) (entry : ChartEntry) :
    (entry.shift σ).applyUnary? name operator (counters.shift σ) =
      (entry.applyUnary? name operator counters).map (Prod.map (shift σ) (Counters.shift σ)) := by
  have hoperator := Operation.unary_mapIndices hop (σ.index_of_neg hindex) entry.expression
  unfold applyUnary?
  simp only [id_shift, retired_shift, SortedSet.mem_shift, expression_shift, Counters.shift, hoperator]
  split
  · rfl
  · rw [Option.map_map, Option.map_map]
    congr 1
    funext made
    simp only [Function.comp_apply, Prod.map_apply, shift_mk, List.map_cons, List.map_nil,
      SortedSet.insert_shift, Counters.shift, Int.add_right_comm]

theorem areApart_shift (first second : ChartEntry) :
    (first.shift σ).areApart (second.shift σ) = first.areApart second := by
  simp only [areApart, id_shift, retired_shift, SortedSet.mem_shift, SortedSet.isDisjoint_shift, ne_eq,
    Int.add_left_inj]

theorem applyBinary?_shift {name : Text} {operator : BinaryOperator}
    (hop : (name, operator) ∈ Operation.binary) (counters : Counters) (first second : ChartEntry) :
    (first.shift σ).applyBinary? name operator (second.shift σ) (counters.shift σ) =
      (first.applyBinary? name operator second counters).map
        (Prod.map (shift σ) (Counters.shift σ)) := by
  unfold applyBinary?
  rw [expression_shift, expression_shift, Operation.binary_mapIndices hop, areApart_shift]
  cases operator first.expression second.expression with
  | none => rfl
  | some expression =>
    simp only [Option.map_some]
    split
    · simp only [Option.map_some, Prod.map_apply, shift_mk, List.map_cons, List.map_nil, id_shift,
        retired_shift, SortedSet.union_shift, SortedSet.insert_shift, Counters.shift, Int.add_right_comm]
    · rfl

end ChartEntry

namespace Chart

def shift (σ : Shift) (chart : Chart) : Chart := ⟨chart.newestFirst.map (ChartEntry.shift σ)⟩

end Chart

def Shift.correspondence (σ : Shift) : Correspondence := ⟨ChartEntry.shift σ, Counters.shift σ⟩

theorem Shift.respects (σ : Shift) (categories : PhraseCategories) {counters : Counters}
    (hindex : counters.nextIndex < 0) : σ.correspondence.Respects categories categories counters where
  id_inj := by
    intro a b h
    rwa [correspondence, ChartEntry.id_shift, ChartEntry.id_shift, Int.add_left_inj] at h
  spellOut := ChartEntry.applyUnary?_shift List.mem_cons_self hindex
  merge := by
    intro name operator hop
    have hunary : (name, operator) ∈ Operation.unary categories := List.mem_cons_of_mem _ hop
    exact ChartEntry.applyUnary?_shift hunary hindex
  binary := fun hop => ChartEntry.applyBinary?_shift hop counters

theorem ChartEntry.Combines.nextIndex_le {categories : PhraseCategories} {entry result : ChartEntry}
    {chart : Chart} {counters counters' : Counters} (h : entry.Combines categories chart counters result counters') :
    counters'.nextIndex ≤ counters.nextIndex := by
  rw [h.counters_eq]
  exact Int.sub_le_self _ (by split <;> decide)

namespace Parsing
namespace State

def shift (σ : Shift) (s : State) : State where
  counters := s.counters.shift σ
  chart := s.chart.shift σ
  agenda := s.agenda.map (ChartEntry.shift σ)
  focus? := s.focus?.map (ChartEntry.shift σ)
  accepted? := s.accepted?.map (ChartEntry.shift σ)
  steps := s.steps

variable {categories : PhraseCategories} {accepts : ChartEntry → Bool} {s : State}

theorem Step.nextIndex_le {s' : State} (h : Step categories accepts s s') :
    s'.counters.nextIndex ≤ s.counters.nextIndex := by
  cases h with
  | take => exact Int.le_refl _
  | putDown => exact Int.le_refl _
  | refuse _ hresult => exact hresult.nextIndex_le
  | enter _ hresult => exact hresult.nextIndex_le

end State

namespace Reachable
variable {setting : Setting} {tokens : List Text} {counters : Counters} {s : State}

theorem nextIndex_le (h : Reachable setting tokens counters s) :
    s.counters.nextIndex ≤ counters.nextIndex := by
  induction h with
  | initial => exact Int.le_refl _
  | step _ hs ih => exact Int.le_trans (State.step_of_not_isFinal hs).nextIndex_le ih

end Reachable

theorem lexicalEntries_shift {σ : Shift} {items : List LexicalItem}
    (h : ∀ item ∈ items, ∀ index ∈ item.meaning.indices, 0 ≤ index) (first : Int) :
    lexicalEntries (first + σ.ids) items = (lexicalEntries first items).map (ChartEntry.shift σ) := by
  rw [lexicalEntries, lexicalEntries, List.map_map]
  refine List.map_congr_left fun made hmade => ?_
  have hitem := h made.1 (List.fst_mem_of_mem_zipIdx hmade)
  have hexpression : (Expression.ofItem made.1).mapIndices σ.index = Expression.ofItem made.1 :=
    Expression.mapIndices_ofItem fun index hindex => σ.index_of_nonneg (hitem index hindex)
  simp only [Function.comp_apply, ChartEntry.shift_mk, hexpression, List.map_nil, SortedSet.shift_empty,
    Int.add_right_comm]

theorem spellOutAccepted_shift {σ : Shift} {counters : Counters} (hindex : counters.nextIndex < 0)
    (categories : PhraseCategories) (entry : ChartEntry) :
    spellOutAccepted categories (entry.shift σ) (counters.shift σ) =
      Prod.map (ChartEntry.shift σ) (Counters.shift σ) (spellOutAccepted categories entry counters) := by
  have hspellOut : (("spellout" : Text), Expression.spellOut? categories) ∈ Operation.unary categories :=
    List.mem_cons_self
  unfold spellOutAccepted
  rw [ChartEntry.applyUnary?_shift hspellOut hindex]
  cases entry.applyUnary? "spellout" (Expression.spellOut? categories) counters <;> rfl

def Outcome.shift (σ : Shift) (o : Outcome) : Outcome :=
  { o with
    chart := o.chart.shift σ
    entry? := o.entry?.map (ChartEntry.shift σ)
    counters := o.counters.shift σ }

namespace Setting
variable {setting : Setting}

section
variable (h : ∀ item ∈ setting.grammar.items, ∀ index ∈ item.meaning.indices, 0 ≤ index) (σ : Shift)
  (tokens : List Text) (counters : Counters)
include h

theorem entries_shift : setting.entries tokens (counters.shift σ) =
    (setting.entries tokens counters).map (ChartEntry.shift σ) := by
  refine lexicalEntries_shift (fun item hitem => h item ?_) counters.nextId
  rcases List.mem_append.mp hitem with hnull | htoken
  · exact (List.mem_filter.mp hnull).1
  · obtain ⟨token, -, hmem⟩ := List.mem_flatMap.mp htoken
    exact (List.mem_filter.mp hmem).1

theorem accepts_shift (e : ChartEntry) :
    setting.accepts tokens (counters.shift σ) (e.shift σ) = setting.accepts tokens counters e := by
  have hids : ((setting.entries tokens (counters.shift σ)).map (·.id)) =
      ((setting.entries tokens counters).map (·.id)).map (· + σ.ids) := by
    rw [entries_shift h, List.map_map, List.map_map]
    exact List.map_congr_left fun e _ => ChartEntry.id_shift σ e
  unfold accepts ChartEntry.isAccepting
  rw [ChartEntry.expression_shift, Expression.features_mapIndices, ChartEntry.retired_shift, hids,
    SortedSet.ofList_shift, SortedSet.isSubset_shift]

theorem length_entries_shift : (setting.entries tokens (counters.shift σ)).length =
    (setting.entries tokens counters).length := by
  rw [entries_shift h, List.length_map]

theorem relates_shift (hindex : counters.nextIndex < 0) :
    σ.correspondence.Relates setting setting tokens counters where
  respects hs := σ.respects setting.categories (Int.lt_of_le_of_lt hs.nextIndex_le hindex)
  entries_eq := entries_shift h σ tokens counters
  nextId_add n := by simp only [Shift.correspondence, Counters.shift, Int.add_right_comm]
  accepts_eq := accepts_shift h σ tokens counters
  bound_eq := rfl

theorem search_shift (hindex : counters.nextIndex < 0) :
    setting.search tokens (counters.shift σ) = (setting.search tokens counters).shift σ :=
  (relates_shift h σ tokens counters hindex).search_eq

end

/-- The parses of a text from any two counters are the same but for ids and fresh indices, which are all ahead
by as much as the counters are. -/
theorem parse_shift (h : ∀ item ∈ setting.grammar.items, ∀ index ∈ item.meaning.indices, 0 ≤ index)
    (text : Text) {counters : Counters} (hindex : counters.nextIndex < 0) (counters' : Counters) :
    let o := setting.parse text counters
    let o' := setting.parse text counters'
    o' = o.shift (counters.shiftTo counters') ∧ o'.isAccepted = o.isAccepted ∧
      o'.chart.size = o.chart.size := by
  intro o o'
  have hshift : o' = o.shift (counters.shiftTo counters') := by
    generalize hσ : counters.shiftTo counters' = σ
    have hcounters : counters' = counters.shift σ := by rw [← hσ, Counters.shift_shiftTo]
    have hsearch := search_shift h σ (tokenize text) counters hindex
    have hfinal : (setting.search (tokenize text) counters).counters.nextIndex < 0 :=
      Int.lt_of_le_of_lt (Reachable.search setting (tokenize text) counters).nextIndex_le hindex
    subst hcounters
    unfold o o' parse
    dsimp only
    split
    · rfl
    · rw [hsearch, length_entries_shift h]
      have haccepted : ((setting.search (tokenize text) counters).shift σ).accepted? =
          (setting.search (tokenize text) counters).accepted?.map (ChartEntry.shift σ) := rfl
      have hcounters : ((setting.search (tokenize text) counters).shift σ).counters =
          (setting.search (tokenize text) counters).counters.shift σ := rfl
      rw [haccepted]
      cases (setting.search (tokenize text) counters).accepted? with
      | none => rfl
      | some accepted =>
        dsimp only [Option.map_some]
        rw [hcounters, spellOutAccepted_shift hfinal]
        rfl
  refine ⟨hshift, ?_, ?_⟩
  · rw [hshift, Outcome.isAccepted, Outcome.shift, Option.isSome_map, Outcome.isAccepted]
  · rw [hshift, Outcome.shift, Chart.shift, Chart.size, List.length_map, Chart.size]

/-- A quantifier phrase takes an index: once from fresh counters, and once from others. -/
theorem parse_shift_every_girl_sleeps :
    let setting : Setting := ⟨⟨[⟨"every", [⟨.licensor, "n"⟩, ⟨.licensee, "d"⟩], .quantifier "every"⟩,
      ⟨"girl", [⟨.licensee, "n"⟩], .const "girl"⟩,
      ⟨"sleeps", [⟨.licensor, "d"⟩, ⟨.licensee, "c"⟩], .const "sleep"⟩], .ofList ["c"]⟩, {}⟩
    let o := setting.parse "every girl sleeps" {}
    let o' := setting.parse "every girl sleeps" ⟨7, -4⟩
    o.isAccepted ∧ o'.entry?.map (·.expression.meaning.indices) = some [-4] ∧
      (∀ item ∈ setting.grammar.items, ∀ index ∈ item.meaning.indices, 0 ≤ index) ∧
      o' = o.shift ⟨7, -3⟩ ∧ o'.isAccepted = o.isAccepted ∧ o'.chart.size = o.chart.size := by
  intro setting o o'
  have hindices : ∀ item ∈ setting.grammar.items, ∀ index ∈ item.meaning.indices, 0 ≤ index := by
    decide
  refine ⟨by decide +kernel, by decide +kernel, hindices, ?_⟩
  exact parse_shift hindices "every girl sleeps" (by decide) ⟨7, -4⟩

end Setting
end Parsing
end MinimalistGrammar
