import MinimalistGrammar.Proofs.Combination

/-! What the search prefers. An entry joins an adjunct before anything else and is spelled out before it is
merged or inserted, and of the entries that it can be inserted with it takes the newest. -/
namespace MinimalistGrammar

namespace ChartEntry

/-- The combination of an entry that is chosen, together with those that come before it and fail. -/
inductive Chooses (categories : PhraseCategories) (entry : ChartEntry) (chart : Chart)
    (counters : Counters) : ChartEntry → Counters → Prop where
  | adjunct {other result : ChartEntry} {counters' : Counters} (hother : other ∈ chart.newestFirst)
      (hr : entry.applyBinary? "insert_adjunct" Expression.insertAdjunct? other counters =
        some (result, counters')) :
      Chooses categories entry chart counters result counters'
  | spellout {result : ChartEntry} {counters' : Counters}
      (hr : entry.applyUnary? "spellout" (Expression.spellOut? categories) counters =
        some (result, counters')) :
      Chooses categories entry chart counters result counters'
  | merge {name : Text} {operator : UnaryOperator} {result : ChartEntry} {counters' : Counters}
      (hop : (name, operator) ∈ Operation.unary categories)
      (hspellout : entry.applyUnary? "spellout" (Expression.spellOut? categories) counters = none)
      (hr : entry.applyUnary? name operator counters = some (result, counters')) :
      Chooses categories entry chart counters result counters'
  | insert {newer older : List ChartEntry} {other result : ChartEntry} {counters' : Counters}
      (hspellout : entry.applyUnary? "spellout" (Expression.spellOut? categories) counters = none)
      (hchart : chart.newestFirst = newer ++ other :: older)
      (hnewer : ∀ e ∈ newer, entry.applyBinary? "insert" Expression.insert? e counters = none)
      (hr : entry.applyBinary? "insert" Expression.insert? other counters = some (result, counters')) :
      Chooses categories entry chart counters result counters'

variable {categories : PhraseCategories} {entry result : ChartEntry} {chart : Chart}
  {counters counters' : Counters}

/-- The search of a combination as a search in three lists, one after the other. -/
theorem derive?_eq_or (categories : PhraseCategories) (entry : ChartEntry) (chart : Chart) (counters : Counters) :
    entry.derive? categories chart counters =
      (chart.newestFirst.findSome? fun other =>
          entry.applyBinary? "insert_adjunct" Expression.insertAdjunct? other counters).or
        (((Operation.unary categories).findSome? fun op => entry.applyUnary? op.1 op.2 counters).or
          (chart.newestFirst.findSome? fun other =>
            entry.applyBinary? "insert" Expression.insert? other counters)) := by
  simp only [derive?, Option.orElse_eq_orElse, Option.orElse_eq_or]

theorem chooses_of_derive? (h : entry.derive? categories chart counters = some (result, counters')) :
    entry.Chooses categories chart counters result counters' := by
  rw [derive?_eq_or, Option.or_eq_some_iff, Option.or_eq_some_iff] at h
  rcases h with h | ⟨-, h | ⟨hunary, h⟩⟩
  · obtain ⟨other, hother, hr⟩ := List.exists_of_findSome?_eq_some h
    exact .adjunct hother hr
  · rw [Operation.unary, List.findSome?_cons] at h
    split at h
    · rename_i made hmade
      exact .spellout (h ▸ hmade)
    · rename_i hspellout
      obtain ⟨⟨name, operator⟩, hop, hr⟩ := List.exists_of_findSome?_eq_some h
      exact .merge (List.mem_cons_of_mem _ hop) hspellout hr
  · have hspellout := List.findSome?_eq_none_iff.mp hunary _ List.mem_cons_self
    obtain ⟨newer, other, older, hchart, hr, hnewer⟩ := List.findSome?_eq_some_iff.mp h
    exact .insert hspellout hchart hnewer hr

theorem spellout_eq_none_of_derive? (h : entry.derive? categories chart counters = none) :
    entry.applyUnary? "spellout" (Expression.spellOut? categories) counters = none := by
  rw [derive?_eq_or, Option.or_eq_none_iff, Option.or_eq_none_iff] at h
  exact List.findSome?_eq_none_iff.mp h.2.1 _ List.mem_cons_self

end ChartEntry

end MinimalistGrammar
