import Mathlib.Data.List.Nodup
import MinimalistGrammar.Proofs.Combination

/-! Derivations of chart entries as trees, and the discipline of retired ids. Whatever is built from
lexical entries, by any operators in any order, retires exactly the ids of what went into it, and no entry
goes into it twice. -/
namespace MinimalistGrammar
namespace ChartEntry

mutual
/-- The entries of a derivation, one for each place of the tree: the entry itself and then all that went
into it. -/
def nodes : ChartEntry → List ChartEntry
  | ⟨id, expression, operator?, sources, retired⟩ =>
    ⟨id, expression, operator?, sources, retired⟩ :: nodesOfAll sources

def nodesOfAll : List ChartEntry → List ChartEntry
  | [] => []
  | source :: rest => nodes source ++ nodesOfAll rest
end

def descendants (entry : ChartEntry) : List ChartEntry := entry.sources.flatMap nodes

def leaves (entry : ChartEntry) : List ChartEntry := entry.nodes.filter (·.sources.isEmpty)

theorem nodesOfAll_eq_flatMap (entries : List ChartEntry) :
    nodesOfAll entries = entries.flatMap nodes := by
  induction entries with
  | nil => rfl
  | cons e rest ih => rw [nodesOfAll, ih, List.flatMap_cons]

theorem nodes_eq_cons (entry : ChartEntry) : entry.nodes = entry :: entry.descendants := by
  cases entry
  rw [nodes, nodesOfAll_eq_flatMap, descendants]

theorem mem_nodes_self (entry : ChartEntry) : entry ∈ entry.nodes := by
  rw [nodes_eq_cons]
  exact List.mem_cons_self

theorem mem_nodes_iff {entry node : ChartEntry} :
    node ∈ entry.nodes ↔ node = entry ∨ node ∈ entry.descendants := by
  rw [nodes_eq_cons, List.mem_cons]

theorem mem_descendants_iff {entry node : ChartEntry} :
    node ∈ entry.descendants ↔ ∃ source ∈ entry.sources, node ∈ source.nodes := by
  rw [descendants, List.mem_flatMap]

theorem sizeOf_lt_of_mem_sources {entry source : ChartEntry} (h : source ∈ entry.sources) :
    sizeOf source < sizeOf entry := by
  cases entry
  have hlt := List.sizeOf_lt_of_mem h
  dsimp only at hlt
  simp only [mk.sizeOf_spec]
  omega

theorem nodes_subset_of_mem_nodes {entry node : ChartEntry} (h : node ∈ entry.nodes) :
    node.nodes ⊆ entry.nodes := by
  rcases mem_nodes_iff.mp h with rfl | hdescendant
  · exact List.Subset.refl _
  · obtain ⟨source, hs, hn⟩ := mem_descendants_iff.mp hdescendant
    have hlt := sizeOf_lt_of_mem_sources hs
    intro d hd
    exact mem_nodes_iff.mpr (.inr (mem_descendants_iff.mpr ⟨source, hs, nodes_subset_of_mem_nodes hn hd⟩))
termination_by sizeOf entry

theorem leaves_subset_of_mem_nodes {entry node : ChartEntry} (h : node ∈ entry.nodes) : node.leaves ⊆ entry.leaves :=
  List.filter_subset _ (nodes_subset_of_mem_nodes h)

theorem leaves_of_sources_eq_nil {entry : ChartEntry} (h : entry.sources = []) :
    entry.leaves = [entry] := by
  rw [leaves, nodes_eq_cons, descendants, h]
  simp [h]

theorem leaves_lexical (id : Int) (item : LexicalItem) :
    leaves ⟨id, .ofItem item, none, [], ∅⟩ = [⟨id, .ofItem item, none, [], ∅⟩] :=
  leaves_of_sources_eq_nil rfl

theorem leaves_of_sources_ne_nil {entry : ChartEntry} (h : entry.sources ≠ []) :
    entry.leaves = entry.sources.flatMap leaves := by
  rw [leaves, nodes_eq_cons, List.filter_cons_of_neg (by simpa using h), descendants,
    List.filter_flatMap]
  rfl

theorem nodes_of_applyUnary? {name : Text} {operator : UnaryOperator} {entry result : ChartEntry}
    {counters counters' : Counters}
    (hr : entry.applyUnary? name operator counters = some (result, counters')) :
    result.nodes = result :: entry.nodes := by
  obtain ⟨-, expression, nextIndex, -, rfl, -⟩ := applyUnary?_eq_some_iff.mp hr
  rw [nodes_eq_cons, descendants, List.flatMap_singleton]

theorem nodes_of_applyBinary? {name : Text} {operator : BinaryOperator}
    {first second result : ChartEntry} {counters counters' : Counters}
    (hr : first.applyBinary? name operator second counters = some (result, counters')) :
    result.nodes = result :: (first.nodes ++ second.nodes) := by
  obtain ⟨-, expression, -, rfl, -⟩ := applyBinary?_eq_some_iff.mp hr
  rw [nodes_eq_cons, descendants, List.flatMap_cons, List.flatMap_singleton]

theorem leaves_of_applyUnary? {name : Text} {operator : UnaryOperator} {entry result : ChartEntry}
    {counters counters' : Counters}
    (hr : entry.applyUnary? name operator counters = some (result, counters')) :
    result.leaves = entry.leaves := by
  obtain ⟨-, expression, nextIndex, -, rfl, -⟩ := applyUnary?_eq_some_iff.mp hr
  rw [leaves_of_sources_ne_nil (List.cons_ne_nil _ _), List.flatMap_singleton]

theorem leaves_of_applyBinary? {name : Text} {operator : BinaryOperator}
    {first second result : ChartEntry} {counters counters' : Counters}
    (hr : first.applyBinary? name operator second counters = some (result, counters')) :
    result.leaves = first.leaves ++ second.leaves := by
  obtain ⟨-, expression, -, rfl, -⟩ := applyBinary?_eq_some_iff.mp hr
  rw [leaves_of_sources_ne_nil (List.cons_ne_nil _ _), List.flatMap_cons, List.flatMap_singleton]

structure IsLexical (entry : ChartEntry) : Prop where
  operator_eq : entry.operator? = none
  sources_eq : entry.sources = []
  retired_eq : entry.retired = ∅

/-- Entries that are built from lexical ones, and the counters that the next id comes from. Others may draw
ids from the same counters in between. -/
inductive Built : List ChartEntry → Counters → Prop where
  | start {entries : List ChartEntry} {counters : Counters} (hlexical : ∀ e ∈ entries, e.IsLexical)
      (hids : (entries.map (·.id)).Nodup) (hfresh : ∀ e ∈ entries, e.id < counters.nextId) :
      Built entries counters
  | draw {entries : List ChartEntry} {counters counters' : Counters} (h : Built entries counters)
      (hle : counters.nextId ≤ counters'.nextId) : Built entries counters'
  | insert {entries : List ChartEntry} {counters counters' : Counters} (h : Built entries counters)
      (entry : ChartEntry) (hlexical : entry.IsLexical) (hid : entry.id = counters.nextId)
      (hnext : counters'.nextId = counters.nextId + 1) : Built (entry :: entries) counters'
  | unary {entries : List ChartEntry} {counters counters' : Counters} (h : Built entries counters)
      {name : Text} {operator : UnaryOperator} {entry result : ChartEntry} (he : entry ∈ entries)
      (hr : entry.applyUnary? name operator counters = some (result, counters')) :
      Built (result :: entries) counters'
  | binary {entries : List ChartEntry} {counters counters' : Counters} (h : Built entries counters)
      {name : Text} {operator : BinaryOperator} {first second result : ChartEntry}
      (hf : first ∈ entries) (hs : second ∈ entries)
      (hr : first.applyBinary? name operator second counters = some (result, counters')) :
      Built (result :: entries) counters'

/-- The retired ids are those of all that went into an entry, each id comes once in its derivation, and all
of them are smaller than its own. Each source retired strictly less. -/
structure IsDisciplined (entry : ChartEntry) : Prop where
  mem_retired_iff : ∀ id, id ∈ entry.retired ↔ ∃ d ∈ entry.descendants, d.id = id
  nodup_ids : (entry.nodes.map (·.id)).Nodup
  lt_id : ∀ id ∈ entry.retired, id < entry.id
  retired_of_source : ∀ source ∈ entry.sources, ∀ id ∈ source.retired, id ∈ entry.retired
  retired_ne_of_source : ∀ source ∈ entry.sources, ∃ id ∈ entry.retired, id ∉ source.retired

theorem IsDisciplined.id_not_mem_retired {entry : ChartEntry} (h : entry.IsDisciplined) :
    entry.id ∉ entry.retired :=
  fun hid => absurd (h.lt_id _ hid) (Int.lt_irrefl _)

theorem IsLexical.isDisciplined {entry : ChartEntry} (h : entry.IsLexical) :
    entry.IsDisciplined := by
  have hd : entry.descendants = [] := by rw [descendants, h.sources_eq, List.flatMap_nil]
  constructor
  · intro id
    rw [h.retired_eq, hd]
    simp
  · rw [nodes_eq_cons, hd]
    exact List.nodup_singleton _
  · intro id hid
    rw [h.retired_eq] at hid
    exact absurd hid (SortedSet.not_mem_empty id)
  · intro source hs
    rw [h.sources_eq] at hs
    cases hs
  · intro source hs
    rw [h.sources_eq] at hs
    cases hs

theorem IsDisciplined.exists_node_iff {entry : ChartEntry} (h : entry.IsDisciplined) (id : Int) :
    (∃ d ∈ entry.nodes, d.id = id) ↔ id = entry.id ∨ id ∈ entry.retired := by
  rw [h.mem_retired_iff, nodes_eq_cons]
  simp [eq_comm]

theorem IsDisciplined.id_le {entry node : ChartEntry} (h : entry.IsDisciplined)
    (hn : node ∈ entry.nodes) : node.id ≤ entry.id := by
  rcases (h.exists_node_iff node.id).mp ⟨node, hn, rfl⟩ with he | hr
  · exact Int.le_of_eq he
  · exact Int.le_of_lt (h.lt_id _ hr)

theorem IsDisciplined.nodup_leaf_ids {entry : ChartEntry} (h : entry.IsDisciplined) :
    (entry.leaves.map (·.id)).Nodup :=
  h.nodup_ids.sublist (List.filter_sublist.map _)

theorem areApart_iff_nodes {first second : ChartEntry} (hf : first.IsDisciplined)
    (hs : second.IsDisciplined) :
    first.areApart second ↔ ∀ d ∈ first.nodes, ∀ d' ∈ second.nodes, d.id ≠ d'.id := by
  rw [areApart_iff]
  constructor
  · rintro ⟨hne, ⟨-, hfs⟩, ⟨hsf, -⟩, hdisjoint⟩ d hd d' hd' he
    -- a node common to both trees would be one of the entries or retired by both
    have hd := (hf.exists_node_iff d.id).mp ⟨d, hd, rfl⟩
    have hd' := (hs.exists_node_iff d.id).mp ⟨d', hd', he.symm⟩
    grind
  · intro h
    have hne : ∀ id, (id = first.id ∨ id ∈ first.retired) → ¬(id = second.id ∨ id ∈ second.retired) := by
      intro id hd hd'
      obtain ⟨d, hnode, rfl⟩ := (hf.exists_node_iff id).mpr hd
      obtain ⟨d', hnode', he⟩ := (hs.exists_node_iff d.id).mpr hd'
      exact h d hnode d' hnode' he.symm
    have hfirst := hf.id_not_mem_retired
    have hsecond := hs.id_not_mem_retired
    grind

theorem isDisciplined_of_sources {entry : ChartEntry}
    (hsources : ∀ source ∈ entry.sources, source.IsDisciplined)
    (hretired : ∀ id, id ∈ entry.retired ↔ ∃ d ∈ entry.descendants, d.id = id)
    (hnodup : (entry.descendants.map (·.id)).Nodup)
    (hlt : ∀ source ∈ entry.sources, source.id < entry.id) : entry.IsDisciplined := by
  have hless : ∀ d ∈ entry.descendants, d.id < entry.id := by
    intro d hd
    obtain ⟨source, hs, hd⟩ := mem_descendants_iff.mp hd
    exact Int.lt_of_le_of_lt ((hsources source hs).id_le hd) (hlt source hs)
  constructor
  · exact hretired
  · rw [nodes_eq_cons, List.map_cons, List.nodup_cons]
    refine ⟨fun hmem => ?_, hnodup⟩
    obtain ⟨d, hd, he⟩ := List.mem_map.mp hmem
    exact absurd he (Int.ne_of_lt (hless d hd))
  · intro id hid
    obtain ⟨d, hd, rfl⟩ := (hretired id).mp hid
    exact hless d hd
  · intro source hs id hid
    obtain ⟨d, hd, rfl⟩ := ((hsources source hs).mem_retired_iff id).mp hid
    exact (hretired _).mpr ⟨d, mem_descendants_iff.mpr ⟨source, hs, mem_nodes_iff.mpr (.inr hd)⟩, rfl⟩
  · intro source hs
    have hdescendant := mem_descendants_iff.mpr ⟨source, hs, mem_nodes_self source⟩
    exact ⟨source.id, (hretired _).mpr ⟨source, hdescendant, rfl⟩, (hsources source hs).id_not_mem_retired⟩

theorem isDisciplined_of_applyUnary? {name : Text} {operator : UnaryOperator}
    {entry result : ChartEntry} {counters counters' : Counters} (h : entry.IsDisciplined)
    (hlt : entry.id < counters.nextId)
    (hr : entry.applyUnary? name operator counters = some (result, counters')) :
    result.IsDisciplined := by
  obtain ⟨-, expression, nextIndex, -, rfl, -⟩ := applyUnary?_eq_some_iff.mp hr
  apply isDisciplined_of_sources
  · simpa using h
  · intro id
    rw [SortedSet.mem_insert_iff, ← h.exists_node_iff]
    simp [descendants]
  · simpa [descendants] using h.nodup_ids
  · simpa using hlt

theorem isDisciplined_of_applyBinary? {name : Text} {operator : BinaryOperator}
    {first second result : ChartEntry} {counters counters' : Counters} (hf : first.IsDisciplined)
    (hs : second.IsDisciplined) (hfirst : first.id < counters.nextId)
    (hsecond : second.id < counters.nextId)
    (hr : first.applyBinary? name operator second counters = some (result, counters')) :
    result.IsDisciplined := by
  obtain ⟨hapart, expression, -, rfl, -⟩ := applyBinary?_eq_some_iff.mp hr
  have hcommon := (areApart_iff_nodes hf hs).mp hapart
  apply isDisciplined_of_sources
  · simp [hf, hs]
  · intro id
    have hfirst := hf.exists_node_iff id
    have hsecond := hs.exists_node_iff id
    simp only [SortedSet.mem_insert_iff, SortedSet.mem_union, descendants, List.flatMap_cons,
      List.flatMap_nil, List.append_nil, List.mem_append, or_and_right, exists_or]
    rw [hfirst, hsecond]
    grind
  · simp only [descendants, List.flatMap_cons, List.flatMap_nil, List.append_nil, List.map_append]
    refine List.nodup_append.mpr ⟨hf.nodup_ids, hs.nodup_ids, ?_⟩
    intro id hid id' hid'
    obtain ⟨d, hd, rfl⟩ := List.mem_map.mp hid
    obtain ⟨d', hd', rfl⟩ := List.mem_map.mp hid'
    exact hcommon d hd d' hd'
  · simp [hfirst, hsecond]

/-- Ids come from the counters, so those that are built are smaller than the next one. -/
theorem Built.id_lt {entries : List ChartEntry} {counters : Counters} (h : Built entries counters) :
    ∀ e ∈ entries, e.id < counters.nextId := by
  induction h with
  | start _ _ hfresh => exact hfresh
  | draw _ hle ih => exact fun e he => Int.lt_of_lt_of_le (ih e he) hle
  | insert _ entry _ hid hnext ih =>
    intro e he
    rcases List.mem_cons.mp he with rfl | he
    · omega
    · have := ih e he
      omega
  | unary _ _ hr ih =>
    obtain ⟨-, expression, nextIndex, -, rfl, rfl⟩ := applyUnary?_eq_some_iff.mp hr
    intro e he
    rcases List.mem_cons.mp he with rfl | he
    · exact Int.lt_succ _
    · exact Int.lt_trans (ih e he) (Int.lt_succ _)
  | binary _ _ _ hr ih =>
    obtain ⟨-, expression, -, rfl, rfl⟩ := applyBinary?_eq_some_iff.mp hr
    intro e he
    rcases List.mem_cons.mp he with rfl | he
    · exact Int.lt_succ _
    · exact Int.lt_trans (ih e he) (Int.lt_succ _)

/-- Every entry that is built keeps the discipline of retired ids. -/
theorem Built.isDisciplined {entries : List ChartEntry} {counters : Counters}
    (h : Built entries counters) : ∀ e ∈ entries, e.IsDisciplined := by
  induction h with
  | start hlexical _ _ => exact fun e he => (hlexical e he).isDisciplined
  | draw _ _ ih => exact ih
  | insert _ entry hlexical _ _ ih =>
    exact List.forall_mem_cons.mpr ⟨hlexical.isDisciplined, ih⟩
  | unary h he hr ih =>
    exact List.forall_mem_cons.mpr ⟨isDisciplined_of_applyUnary? (ih _ he) (h.id_lt _ he) hr, ih⟩
  | binary h hf hs hr ih =>
    have hresult := isDisciplined_of_applyBinary? (ih _ hf) (ih _ hs) (h.id_lt _ hf) (h.id_lt _ hs) hr
    exact List.forall_mem_cons.mpr ⟨hresult, ih⟩

theorem Built.nodes_subset {entries : List ChartEntry} {counters : Counters}
    (h : Built entries counters) : ∀ e ∈ entries, e.nodes ⊆ entries := by
  induction h with
  | start hlexical _ _ =>
    intro e he n hn
    rw [nodes_eq_cons, descendants, (hlexical e he).sources_eq] at hn
    rwa [List.mem_singleton.mp hn]
  | draw _ _ ih => exact ih
  | insert _ entry hlexical _ _ ih =>
    refine List.forall_mem_cons.mpr ⟨fun n hn => ?_, fun e he => ?_⟩
    · rw [nodes_eq_cons, descendants, hlexical.sources_eq] at hn
      exact List.mem_singleton.mp hn ▸ List.mem_cons_self
    · exact List.subset_cons_of_subset entry (ih e he)
  | unary _ he hr ih =>
    refine List.forall_mem_cons.mpr ⟨?_, fun e he => List.subset_cons_of_subset _ (ih e he)⟩
    rw [nodes_of_applyUnary? hr]
    exact List.cons_subset_cons _ (ih _ he)
  | binary _ hf hs hr ih =>
    refine List.forall_mem_cons.mpr ⟨?_, fun e he => List.subset_cons_of_subset _ (ih e he)⟩
    rw [nodes_of_applyBinary? hr]
    exact List.cons_subset_cons _ (List.append_subset.mpr ⟨ih _ hf, ih _ hs⟩)

theorem Built.nextId_not_mem {entries : List ChartEntry} {counters : Counters}
    (h : Built entries counters) : counters.nextId ∉ entries.map (·.id) := by
  intro hmem
  obtain ⟨e, he, hid⟩ := List.mem_map.mp hmem
  exact absurd hid (Int.ne_of_lt (h.id_lt e he))

theorem Built.nodup_ids {entries : List ChartEntry} {counters : Counters}
    (h : Built entries counters) : (entries.map (·.id)).Nodup := by
  induction h with
  | start _ hids _ => exact hids
  | draw _ _ ih => exact ih
  | insert h entry _ hid _ ih => exact List.nodup_cons.mpr ⟨fun hmem => h.nextId_not_mem (hid ▸ hmem), ih⟩
  | unary h _ hr ih =>
    obtain ⟨-, expression, nextIndex, -, rfl, -⟩ := applyUnary?_eq_some_iff.mp hr
    exact List.nodup_cons.mpr ⟨h.nextId_not_mem, ih⟩
  | binary h _ _ hr ih =>
    obtain ⟨-, expression, -, rfl, -⟩ := applyBinary?_eq_some_iff.mp hr
    exact List.nodup_cons.mpr ⟨h.nextId_not_mem, ih⟩

/-- Retired ids in everything that is built: those of the proper descendants, each at one place of the tree
only, smaller than the id of the entry, and strictly more than those of any source. -/
theorem retired_of_built {entries : List ChartEntry} {counters : Counters}
    (h : Built entries counters) {e : ChartEntry} (he : e ∈ entries) :
    (∀ id, id ∈ e.retired ↔ ∃ d ∈ e.descendants, d.id = id) ∧
      (e.nodes.map (·.id)).Nodup ∧
      (∀ id ∈ e.retired, id < e.id) ∧
      ∀ source ∈ e.sources, (∀ id ∈ source.retired, id ∈ e.retired) ∧
        ∃ id ∈ e.retired, id ∉ source.retired := by
  have hd := h.isDisciplined e he
  refine ⟨hd.mem_retired_iff, hd.nodup_ids, hd.lt_id, fun source hs => ?_⟩
  exact ⟨hd.retired_of_source source hs, hd.retired_ne_of_source source hs⟩

/-- A licensee attached to its host and then merged. -/
theorem retired_of_built_merge :
    let host : ChartEntry := ⟨0, .ofItem ⟨"a", [⟨.licensor, "d"⟩, ⟨.licensee, "c"⟩], .const "a"⟩,
      none, [], ∅⟩
    let child : ChartEntry := ⟨1, .ofItem ⟨"b", [⟨.licensee, "d"⟩], .const "b"⟩, none, [], ∅⟩
    ∃ attached merged : ChartEntry, merged.sources = [attached] ∧ attached.sources = [child, host] ∧
      Built [merged, attached, host, child] ⟨4, -1⟩ ∧
      (∀ id, id ∈ merged.retired ↔ ∃ d ∈ merged.descendants, d.id = id) ∧
      (merged.nodes.map (·.id)).Nodup ∧
      (∀ id ∈ merged.retired, id < merged.id) ∧
      ∀ source ∈ merged.sources, (∀ id ∈ source.retired, id ∈ merged.retired) ∧
        ∃ id ∈ merged.retired, id ∉ source.retired := by
  intro host child
  have hstart : Built [host, child] ⟨2, -1⟩ := by
    refine .start ?_ (by decide) (by decide)
    exact List.forall_mem_cons.mpr ⟨⟨rfl, rfl, rfl⟩, List.forall_mem_singleton.mpr ⟨rfl, rfl, rfl⟩⟩
  obtain ⟨attached, hattached, hsources⟩ : ∃ attached,
      child.applyBinary? "insert" Expression.insert? host ⟨2, -1⟩ = some (attached, ⟨3, -1⟩) ∧
        attached.sources = [child, host] := ⟨_, rfl, rfl⟩
  obtain ⟨merged, hmerged⟩ : ∃ merged,
      attached.applyUnary? "merge_comp" (Operation.withoutIndex Expression.mergeComplement?) ⟨3, -1⟩ =
        some (merged, ⟨4, -1⟩) := by
    cases hattached
    exact ⟨_, rfl⟩
  have hsource : merged.sources = [attached] := by
    obtain ⟨-, _, _, -, rfl, -⟩ := applyUnary?_eq_some_iff.mp hmerged
    rfl
  have hbuilt : Built [merged, attached, host, child] ⟨4, -1⟩ :=
    (hstart.binary (by simp) (by simp) hattached).unary (by simp) hmerged
  exact ⟨attached, merged, hsource, hsources, hbuilt, retired_of_built hbuilt (by simp)⟩

end ChartEntry
end MinimalistGrammar
