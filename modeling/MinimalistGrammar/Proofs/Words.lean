import MinimalistGrammar.Proofs.Consumption

/-! The words of a text in the derivation that is accepted for it. Every item of a word is an insertion of
its own, and all of them are consumed, so that a word with several items is pronounced several times. -/
namespace MinimalistGrammar

namespace Grammar

theorem token_of_mem_lookup {g : Grammar} {word : Text} {item : LexicalItem}
    (h : item ∈ g.lookup word) : item.token = word :=
  of_decide_eq_true (List.mem_filter.mp h).2

theorem count_tokens_lookup (g : Grammar) (words : List Text) (word : Text) :
    ((words.flatMap g.lookup).map (·.token)).count word =
      words.count word * (g.lookup word).length := by
  induction words with
  | nil => simp
  | cons first words ih =>
    have hfirst : (g.lookup first).map (·.token) = List.replicate (g.lookup first).length first :=
      List.eq_replicate_iff.mpr ⟨List.length_map _, List.forall_mem_map.mpr fun _ => token_of_mem_lookup⟩
    rw [List.flatMap_cons, List.map_append, List.count_append, ih, hfirst, List.count_replicate,
      List.count_cons, Nat.add_mul, Nat.add_comm]
    by_cases h : first = word <;> simp [h]

/-- The items of some words have these words as their tokens if every word has one item only. -/
theorem tokens_lookup_perm_iff (g : Grammar) (words : List Text) :
    ((words.flatMap g.lookup).map (·.token)).Perm words ↔
      ∀ word ∈ words, ∃ item, g.lookup word = [item] := by
  simp only [List.perm_iff_count, count_tokens_lookup, ← List.length_eq_one_iff]
  constructor
  · intro h word hword
    exact Nat.eq_of_mul_eq_mul_left (List.count_pos_iff.mpr hword) ((h word).trans (Nat.mul_one _).symm)
  · intro h word
    by_cases hword : word ∈ words
    · rw [h word hword, Nat.mul_one]
    · rw [List.count_eq_zero_of_not_mem hword, Nat.zero_mul]

theorem filter_lookup (g : Grammar) (word : Text) :
    (g.lookup word).filter (·.token ≠ []) = if word ≠ [] then g.lookup word else [] := by
  split
  · rename_i hword
    exact List.filter_eq_self.mpr fun item hitem => by simpa [token_of_mem_lookup hitem] using hword
  · rename_i hword
    exact List.filter_eq_nil_iff.mpr fun item hitem => by
      simpa [token_of_mem_lookup hitem] using hword

end Grammar

namespace Parsing
variable {setting : Setting} {counters : Counters} {text : Text} {e : ChartEntry}

theorem filter_itemsOf (grammar : Grammar) (tokens : List Text) :
    (itemsOf grammar tokens).filter (·.token ≠ []) =
      (tokens.filter (· ≠ [])).flatMap grammar.lookup := by
  have hnull : grammar.nullItems.filter (·.token ≠ []) = [] := by
    rw [Grammar.nullItems, Grammar.filter_lookup, if_neg (by simp)]
  rw [itemsOf, List.filter_append, hnull, List.nil_append]
  induction tokens with
  | nil => rfl
  | cons token tokens ih =>
    rw [List.flatMap_cons, List.filter_append, ih, Grammar.filter_lookup]
    by_cases htoken : token = [] <;> simp [htoken]

theorem pronounced_perm_of_parse (h : Outcome.entry? (setting.parse text counters) = some e) :
    ((e.leaves.filter (·.expression.phon ≠ [])).map (·.expression)).Perm
      ((((tokenize text).filter (· ≠ [])).flatMap setting.grammar.lookup).map Expression.ofItem) := by
  have hfilter := (expressions_perm_of_parse h).filter (·.phon ≠ [])
  rw [List.filter_map, List.filter_map] at hfilter
  rw [← filter_itemsOf]
  exact hfilter

/-- Every item of every word is one leaf of the derivation that is accepted. So the words that are
pronounced are those of the text exactly if no word of it has a second item. -/
theorem words_of_parse (h : Outcome.entry? (setting.parse text counters) = some e) :
    let words := (tokenize text).filter (· ≠ [])
    let pronounced := e.leaves.filter (·.expression.phon ≠ [])
    (pronounced.map (·.id)).Nodup ∧
      (pronounced.map (·.expression)).Perm
        ((words.flatMap setting.grammar.lookup).map Expression.ofItem) ∧
      ((pronounced.map (·.expression.phon)).Perm words ↔
        ∀ word ∈ words, ∃ item, setting.grammar.lookup word = [item]) := by
  intro words pronounced
  have hperm := pronounced_perm_of_parse h
  have hphon : (pronounced.map (·.expression.phon)).Perm
      ((words.flatMap setting.grammar.lookup).map (·.token)) := by
    have hphon := hperm.map (·.phon)
    rw [List.map_map, List.map_map] at hphon
    exact hphon
  refine ⟨(nodup_leaf_ids_of_parse h).sublist (List.filter_sublist.map _), hperm, ?_⟩
  rw [hphon.congr_left, Grammar.tokens_lookup_perm_iff]

/-- A word that comes twice and an item without sound. -/
theorem words_of_parse_repeated_word :
    let setting : Setting := ⟨⟨[⟨"", [⟨.licensor, "d"⟩, ⟨.licensor, "d"⟩, ⟨.licensee, "c"⟩],
      .const "a"⟩, ⟨"b", [⟨.licensee, "d"⟩], .const "b"⟩], .ofList ["c"]⟩, {}⟩
    let words := (tokenize "b b").filter (· ≠ [])
    ∃ e, Outcome.entry? (setting.parse "b b" {}) = some e ∧
      let pronounced := e.leaves.filter (·.expression.phon ≠ [])
      (pronounced.map (·.id)).Nodup ∧
        (pronounced.map (·.expression)).Perm
          ((words.flatMap setting.grammar.lookup).map Expression.ofItem) ∧
        ((pronounced.map (·.expression.phon)).Perm words ↔
          ∀ word ∈ words, ∃ item, setting.grammar.lookup word = [item]) := by
  intro setting words
  have hsome : Outcome.isAccepted (setting.parse "b b" {}) := by decide +kernel
  obtain ⟨e, he⟩ := Option.isSome_iff_exists.mp hsome
  exact ⟨e, he, words_of_parse he⟩

/-- A bank of a river and one for money: a sentence with the word is accepted with both of them in it. -/
theorem pronounced_not_perm_words :
    let setting : Setting := ⟨⟨[⟨"saw", [⟨.licensor, "d"⟩, ⟨.licensor, "d"⟩, ⟨.licensee, "c"⟩],
      .const "saw"⟩, ⟨"bank", [⟨.licensee, "d"⟩], .const "bank"⟩,
      ⟨"bank", [⟨.licensee, "d"⟩], .const "shore"⟩], .ofList ["c"]⟩, {}⟩
    ∃ e, Outcome.entry? (setting.parse "saw bank" {}) = some e ∧
      ¬((e.leaves.filter (·.expression.phon ≠ [])).map (·.expression.phon)).Perm
        ((tokenize "saw bank").filter (· ≠ [])) := by
  intro setting
  have hsome : Outcome.isAccepted (setting.parse "saw bank" {}) := by decide +kernel
  obtain ⟨e, he⟩ := Option.isSome_iff_exists.mp hsome
  refine ⟨e, he, fun hwords => ?_⟩
  have hlength : ((Outcome.entry? (setting.parse "saw bank" {})).map fun e =>
      (e.leaves.filter (·.expression.phon ≠ [])).length) = some 3 := by decide +kernel
  rw [he, Option.map_some, Option.some.injEq] at hlength
  have hwords := hwords.length_eq
  rw [List.length_map, hlength] at hwords
  exact absurd hwords (by decide)

end Parsing
end MinimalistGrammar
