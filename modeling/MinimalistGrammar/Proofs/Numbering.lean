import MinimalistGrammar.Chart.Listing
import MinimalistGrammar.Proofs.Renumbering

/-! What is seen of the counters. Ids are not shown, and of the indices only those are that were generated, so that a
parse from other counters is told alike but for the numbers of generated indices. -/
namespace MinimalistGrammar

theorem Shift.index_injective {σ : Shift} (h : σ.indices ≤ 0) : Function.Injective σ.index := by
  intro i j hij
  unfold index at hij
  split at hij <;> split at hij <;> omega

namespace ChartEntry

mutual
/-- The lines of a derivation show no ids. -/
theorem linesFrom_shift (σ : Shift) (next : Nat) :
    ∀ e : ChartEntry, linesFrom next (e.shift σ) = linesFrom next (e.shift ⟨0, σ.indices⟩)
  | ⟨id, expression, operator?, sources, retired⟩ => by
    rw [shift, shift, linesFrom, linesFrom, sourceLinesFrom_shift σ next sources]
    rfl

theorem sourceLinesFrom_shift (σ : Shift) (next : Nat) : ∀ entries : List ChartEntry,
    sourceLinesFrom next (shiftAll σ entries) = sourceLinesFrom next (shiftAll ⟨0, σ.indices⟩ entries)
  | [] => rfl
  | source :: rest => by
    rw [shiftAll, shiftAll, sourceLinesFrom, sourceLinesFrom, linesFrom_shift σ next source,
      sourceLinesFrom_shift σ _ rest]
end

theorem listingText_shift (σ : Shift) (e : ChartEntry) :
    (e.shift σ).listingText = (e.shift ⟨0, σ.indices⟩).listingText := by
  rw [listingText, listing, linesFrom_shift, ← listing, ← listingText]

end ChartEntry

namespace Parsing
variable {setting : Setting}

theorem nextIndex_spellOutAccepted_le (categories : PhraseCategories) (entry : ChartEntry) (counters : Counters) :
    (spellOutAccepted categories entry counters).2.nextIndex ≤ counters.nextIndex := by
  rcases spellOutAccepted_cases categories entry counters with ⟨-, he⟩ | ⟨result, counters', hr, he⟩
  · exact Int.le_of_eq (congrArg (fun made => made.2.nextIndex) he)
  · obtain ⟨-, expression, nextIndex, hspelled, -, rfl⟩ := ChartEntry.applyUnary?_eq_some_iff.mp hr
    have hnext := Expression.next_of_spellOut? hspelled
    have htaken : (0 : Int) ≤ if entry.expression.bindsArgument categories then 1 else 0 := by split <;> decide
    rw [he, hnext]
    exact Int.sub_le_self _ htaken

namespace Setting

theorem nextIndex_parse_le (setting : Setting) (text : Text) (counters : Counters) :
    (setting.parse text counters).counters.nextIndex ≤ counters.nextIndex := by
  have hsearch := (Reachable.search setting (tokenize text) counters).nextIndex_le
  unfold parse
  dsimp only
  split
  · exact Int.le_refl _
  · split
    · exact hsearch
    · exact Int.le_trans (nextIndex_spellOutAccepted_le _ _ _) hsearch

theorem unknown_parse (setting : Setting) (text : Text) (counters : Counters) :
    (setting.parse text counters).unknown =
      (tokenize text).filter fun token => (setting.grammar.lookup token).isEmpty := by
  unfold parse
  dsimp only
  split
  · rfl
  · rename_i hunknown
    rw [not_not.mp hunknown]
    split <;> rfl

/-- The entry that is accepted from one state of the counters is the one from the state in the beginning, with ids and
indices that are ahead by as much as has been counted since. -/
theorem entry_parse_eq (h : ∀ item ∈ setting.grammar.items, ∀ index ∈ item.meaning.indices, 0 ≤ index) (text : Text)
    (counters : Counters) : Outcome.entry? (setting.parse text counters) =
      (Outcome.entry? (setting.parse text {})).map (ChartEntry.shift (Counters.shiftTo {} counters)) := by
  have hrelates := relates_shift h (Counters.shiftTo {} counters) (tokenize text) {} (by decide)
  have hparse := hrelates.parse_eq fun _ => rfl
  have hcounters : (Counters.shiftTo {} counters).correspondence.counters {} = counters :=
    Counters.shift_shiftTo {} counters
  rw [hcounters] at hparse
  rw [hparse]
  rfl

end Setting
end Parsing
end MinimalistGrammar
