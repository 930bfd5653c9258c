import MinimalistGrammar.Proofs.Operation
import MinimalistGrammar.Proofs.Search

/-! What an accepted entry consumes. The acceptance test asks for every lexical insertion and the discipline
of retired ids allows each only once, so that the leaves of an accepted derivation are the lexical entries
that the search began with. -/
namespace MinimalistGrammar

namespace ChartEntry

theorem isAccepting_iff {startCategories : SortedSet Text} {lexical : SortedSet Int}
    {entry : ChartEntry} : entry.isAccepting startCategories lexical ↔
      (∃ category ∈ startCategories, entry.expression.features = [⟨.licensee, category⟩]) ∧
        ∀ id ∈ lexical, id ∈ entry.retired := by
  unfold isAccepting
  split
  · rename_i category hfeatures
    rw [Bool.and_eq_true, decide_eq_true_eq, SortedSet.isSubset_iff, hfeatures]
    simp
  · rename_i hfeatures
    constructor
    · exact fun h => nomatch h
    · rintro ⟨⟨category, -, he⟩, -⟩
      exact absurd he (hfeatures category)

end ChartEntry

namespace Parsing
variable {setting : Setting} {tokens : List Text} {counters : Counters}

theorem Reachable.leaves_perm {s : State} (h : Reachable setting tokens counters s)
    {e : ChartEntry} (he : e ∈ s.chart.newestFirst) (haccepts : setting.accepts tokens counters e) :
    e.leaves.Perm (setting.entries tokens counters) := by
  have hgrown := h.isGrown
  have hdisciplined := hgrown.built.isDisciplined e he
  have hretired := (ChartEntry.isAccepting_iff.mp haccepts).2
  have hall : setting.entries tokens counters ⊆ e.leaves := by
    intro d hd
    have hlexical := isLexical_lexicalEntries _ _ d hd
    have hid : d.id ∈ e.retired := hretired d.id (SortedSet.mem_ofList.mpr (List.mem_map_of_mem hd))
    obtain ⟨d', hd', hid'⟩ := (hdisciplined.mem_retired_iff d.id).mp hid
    have hnode : d' ∈ e.nodes := ChartEntry.mem_nodes_iff.mpr (.inr hd')
    have hsame : d' = d := List.inj_on_of_nodup_map hgrown.built.nodup_ids
      (hgrown.built.nodes_subset e he hnode) (hgrown.entries_subset hd) hid'
    rw [← hsame]
    exact List.mem_filter.mpr ⟨hnode, List.isEmpty_iff.mpr (hsame ▸ hlexical.sources_eq)⟩
  refine (List.perm_ext_iff_of_nodup hdisciplined.nodup_leaf_ids.of_map
    (setting.nodup_entries tokens counters)).mpr fun d => ⟨fun hd => ?_, fun hd => hall hd⟩
  exact hgrown.leaves_subset he hd

theorem spellOutAccepted_cases (categories : PhraseCategories) (entry : ChartEntry)
    (counters : Counters) :
    (entry.applyUnary? "spellout" (Expression.spellOut? categories) counters = none ∧
        spellOutAccepted categories entry counters = (entry, counters)) ∨
      ∃ result counters', entry.applyUnary? "spellout" (Expression.spellOut? categories) counters =
          some (result, counters') ∧
        spellOutAccepted categories entry counters = (result, counters') := by
  unfold spellOutAccepted
  cases entry.applyUnary? "spellout" (Expression.spellOut? categories) counters with
  | none => exact .inl ⟨rfl, rfl⟩
  | some made => exact .inr ⟨made.1, made.2, rfl, rfl⟩

theorem leaves_spellOutAccepted (categories : PhraseCategories) (entry : ChartEntry)
    (counters : Counters) : (spellOutAccepted categories entry counters).1.leaves = entry.leaves := by
  rcases spellOutAccepted_cases categories entry counters with ⟨-, he⟩ | ⟨result, counters', hr, he⟩
  · rw [he]
  · rw [he, ChartEntry.leaves_of_applyUnary? hr]

theorem features_spellOutAccepted (categories : PhraseCategories) (entry : ChartEntry)
    (counters : Counters) : (spellOutAccepted categories entry counters).1.expression.features =
      entry.expression.features := by
  rcases spellOutAccepted_cases categories entry counters with ⟨-, he⟩ | ⟨result, counters', hr, he⟩
  · rw [he]
  · obtain ⟨-, expression, nextIndex, hspelled, rfl, -⟩ := ChartEntry.applyUnary?_eq_some_iff.mp hr
    rw [he]
    exact (Expression.of_spellOut? hspelled).2.2.1

theorem parse_of_known (counters : Counters) {text : Text}
    (h : ∀ token ∈ tokenize text, setting.grammar.lookup token ≠ []) :
    let last := setting.search (tokenize text) counters
    let outcome := setting.parse text counters
    outcome.chart = last.chart ∧ outcome.steps = last.steps ∧
      outcome.lexical = (setting.entries (tokenize text) counters).length ∧
      ((last.accepted? = none ∧ Outcome.entry? outcome = none ∧ outcome.counters = last.counters) ∨
        ∃ accepted, last.accepted? = some accepted ∧
          Outcome.entry? outcome = some (spellOutAccepted setting.categories accepted last.counters).1 ∧
          outcome.counters = (spellOutAccepted setting.categories accepted last.counters).2) := by
  have hunknown : ((tokenize text).filter fun token => (setting.grammar.lookup token).isEmpty) = [] :=
    List.filter_eq_nil_iff.mpr fun token htoken => by simpa using h token htoken
  intro last outcome
  unfold outcome Setting.parse
  dsimp only
  rw [if_neg (by simp [hunknown])]
  cases ha : last.accepted? with
  | none => exact ⟨rfl, rfl, rfl, .inl ⟨rfl, rfl, rfl⟩⟩
  | some accepted => exact ⟨rfl, rfl, rfl, .inr ⟨accepted, rfl, rfl, rfl⟩⟩

/-- The entry that is accepted is one of the final chart, and spelled out once more if that is possible. -/
theorem accepted_of_parse {text : Text} {e : ChartEntry}
    (h : Outcome.entry? (setting.parse text counters) = some e) :
    ∃ accepted, (setting.search (tokenize text) counters).accepted? = some accepted ∧
      e = (spellOutAccepted setting.categories accepted
        (setting.search (tokenize text) counters).counters).1 := by
  unfold Setting.parse at h
  dsimp only at h
  split at h
  · cases h
  · split at h
    · cases h
    · rename_i accepted ha
      exact ⟨accepted, ha, (Option.some.inj h).symm⟩

theorem exists_accepted_of_parse {text : Text} {e : ChartEntry}
    (h : Outcome.entry? (setting.parse text counters) = some e) :
    ∃ accepted, (setting.search (tokenize text) counters).accepted? = some accepted ∧
      e.leaves = accepted.leaves := by
  obtain ⟨accepted, ha, rfl⟩ := accepted_of_parse h
  exact ⟨accepted, ha, leaves_spellOutAccepted _ _ _⟩

theorem leaves_perm_of_parse {text : Text} {e : ChartEntry}
    (h : Outcome.entry? (setting.parse text counters) = some e) :
    e.leaves.Perm (setting.entries (tokenize text) counters) := by
  obtain ⟨accepted, haccepted, hleaves⟩ := exists_accepted_of_parse h
  have hreachable := Reachable.search setting (tokenize text) counters
  rw [hleaves]
  exact hreachable.leaves_perm (hreachable.isGrown.accepted_mem _ haccepted)
    (hreachable.isGrown.accepts_accepted _ haccepted)

theorem expressions_perm_of_parse {text : Text} {e : ChartEntry}
    (h : Outcome.entry? (setting.parse text counters) = some e) : (e.leaves.map (·.expression)).Perm
      ((itemsOf setting.grammar (tokenize text)).map Expression.ofItem) := by
  have hperm := (leaves_perm_of_parse h).map (·.expression)
  rwa [Setting.entries, expressions_lexicalEntries] at hperm

theorem exists_item_of_mem_leaves {text : Text} {e : ChartEntry}
    (h : Outcome.entry? (setting.parse text counters) = some e) {leaf : ChartEntry} (hleaf : leaf ∈ e.leaves) :
    ∃ item ∈ itemsOf setting.grammar (tokenize text), leaf.expression = Expression.ofItem item := by
  obtain ⟨item, hitem, he⟩ :=
    List.mem_map.mp ((expressions_perm_of_parse h).subset (List.mem_map_of_mem hleaf))
  exact ⟨item, hitem, he.symm⟩

theorem nodup_leaf_ids_of_parse {text : Text} {e : ChartEntry}
    (h : Outcome.entry? (setting.parse text counters) = some e) : (e.leaves.map (·.id)).Nodup :=
  ((leaves_perm_of_parse h).map (·.id)).nodup_iff.mpr (nodup_ids_lexicalEntries _ _)

theorem features_eq_of_parse {text : Text} {e : ChartEntry}
    (h : Outcome.entry? (setting.parse text counters) = some e) :
    ∃ category ∈ setting.grammar.startCategories,
      e.expression.features = [⟨.licensee, category⟩] := by
  obtain ⟨accepted, ha, rfl⟩ := accepted_of_parse h
  have hgrown := (Reachable.search setting (tokenize text) counters).isGrown
  rw [features_spellOutAccepted]
  exact (ChartEntry.isAccepting_iff.mp (hgrown.accepts_accepted accepted ha)).1

theorem inherits_of_parse {text : Text} {e : ChartEntry}
    (h : Outcome.entry? (setting.parse text counters) = some e) {P : ChartEntry → Prop}
    (hP : ChartEntry.IsInherited setting.categories P) : P e := by
  obtain ⟨accepted, ha, rfl⟩ := accepted_of_parse h
  have hreachable := Reachable.search setting (tokenize text) counters
  have haccepted := hreachable.forall_chart hP accepted (hreachable.isGrown.accepted_mem _ ha)
  rcases spellOutAccepted_cases setting.categories accepted
    (setting.search (tokenize text) counters).counters with ⟨-, he⟩ | ⟨result, counters', hr, he⟩
  · rwa [he]
  · rw [he]
    exact hP.unary List.mem_cons_self haccepted hr

/-- Every lexical entry of a text is one leaf of the derivation that is accepted for it, and there are no
other leaves. -/
theorem leaves_of_parse {text : Text} {e : ChartEntry}
    (h : Outcome.entry? (setting.parse text counters) = some e) :
    (e.leaves.map (·.id)).Nodup ∧
      e.leaves.Perm (setting.entries (tokenize text) counters) ∧
      (setting.entries (tokenize text) counters).map (·.expression) =
        (setting.grammar.nullItems ++ (tokenize text).flatMap setting.grammar.lookup).map
          Expression.ofItem := by
  obtain ⟨accepted, haccepted, hleaves⟩ := exists_accepted_of_parse h
  have hreachable := Reachable.search setting (tokenize text) counters
  have hgrown := hreachable.isGrown
  have hperm := hreachable.leaves_perm (hgrown.accepted_mem _ haccepted)
    (hgrown.accepts_accepted _ haccepted)
  rw [hleaves]
  refine ⟨?_, hperm, expressions_lexicalEntries _ _⟩
  exact (hperm.map (·.id)).nodup_iff.mpr (nodup_ids_lexicalEntries _ _)

/-- An item without sound and a word that comes twice. -/
theorem leaves_of_parse_repeated_word :
    let setting : Setting := ⟨⟨[⟨"", [⟨.licensor, "d"⟩, ⟨.licensor, "d"⟩, ⟨.licensee, "c"⟩],
      .const "a"⟩, ⟨"b", [⟨.licensee, "d"⟩], .const "b"⟩], .ofList ["c"]⟩, {}⟩
    ∃ e, Outcome.entry? (setting.parse "b b" {}) = some e ∧
      (e.leaves.map (·.id)).Nodup ∧
      e.leaves.Perm (setting.entries (tokenize "b b") {}) ∧
      (setting.entries (tokenize "b b") {}).map (·.expression) =
        (setting.grammar.nullItems ++ (tokenize "b b").flatMap setting.grammar.lookup).map
          Expression.ofItem := by
  intro setting
  have hsome : Outcome.isAccepted (setting.parse "b b" {}) := by decide +kernel
  obtain ⟨e, he⟩ := Option.isSome_iff_exists.mp hsome
  exact ⟨e, he, leaves_of_parse he⟩

end Parsing
end MinimalistGrammar
