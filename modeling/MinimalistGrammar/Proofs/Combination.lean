import MinimalistGrammar.Chart.Combination
import MinimalistGrammar.Proofs.Sets

/-! What a combination of entries is made of: when an operator on entries succeeds, and the entry that it
makes. -/
namespace MinimalistGrammar
namespace ChartEntry

theorem applyUnary?_eq_some_iff {name : Text} {operator : UnaryOperator}
    {entry result : ChartEntry} {counters counters' : Counters} :
    entry.applyUnary? name operator counters = some (result, counters') ↔
      entry.id ∉ entry.retired ∧ ∃ expression nextIndex,
        operator counters.nextIndex entry.expression = some (expression, nextIndex) ∧
        result = ⟨counters.nextId, expression, some name, [entry], entry.retired.insert entry.id⟩ ∧
        counters' = ⟨counters.nextId + 1, nextIndex⟩ := by
  unfold applyUnary?
  split
  · simp [*]
  · rename_i hid
    cases operator counters.nextIndex entry.expression with
    | none => simp
    | some made =>
      obtain ⟨expression, nextIndex⟩ := made
      simp only [Option.map_some, Option.some.injEq, Prod.mk.injEq, hid, not_false_eq_true, true_and]
      constructor
      · rintro ⟨rfl, rfl⟩
        exact ⟨expression, nextIndex, ⟨rfl, rfl⟩, rfl, rfl⟩
      · rintro ⟨_, _, ⟨rfl, rfl⟩, rfl, rfl⟩
        exact ⟨rfl, rfl⟩

theorem areApart_iff {first second : ChartEntry} :
    first.areApart second ↔ first.id ≠ second.id ∧
      (first.id ∉ first.retired ∧ first.id ∉ second.retired) ∧
      (second.id ∉ first.retired ∧ second.id ∉ second.retired) ∧
      ∀ id ∈ first.retired, id ∉ second.retired := by
  simp only [areApart, Bool.and_eq_true, decide_eq_true_eq, SortedSet.isDisjoint_iff, and_assoc]

theorem applyBinary?_eq_some_iff {name : Text} {operator : BinaryOperator}
    {first second result : ChartEntry} {counters counters' : Counters} :
    first.applyBinary? name operator second counters = some (result, counters') ↔
      first.areApart second ∧ ∃ expression,
        operator first.expression second.expression = some expression ∧
        result = ⟨counters.nextId, expression, some name, [first, second],
          ((first.retired.union second.retired).insert first.id).insert second.id⟩ ∧
        counters' = { counters with nextId := counters.nextId + 1 } := by
  unfold applyBinary?
  cases operator first.expression second.expression with
  | none => simp
  | some expression =>
    cases first.areApart second with
    | false => simp
    | true => simp [eq_comm]

end ChartEntry
end MinimalistGrammar
