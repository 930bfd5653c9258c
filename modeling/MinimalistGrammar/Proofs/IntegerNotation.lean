import MinimalistGrammar.Proofs.Numeral

/-! The texts that an integer is read from. Digits are those of any script, with single underscores between them, and
one sign may stand before them. -/
namespace MinimalistGrammar
namespace Text

/-- Digits of any script, of which an underscore may stand between each two, and the number that they denote. -/
inductive SpellsNatural : Text → Nat → Prop where
  | digits {s : Text} (hs : s ≠ []) (h : ∀ c ∈ s, isDigit c) : SpellsNatural s (digitsValue 0 s)
  | group {s t : Text} {n : Nat} (hs : SpellsNatural s n) (ht : t ≠ []) (h : ∀ c ∈ t, isDigit c) :
      SpellsNatural (s ++ .char '_' :: t) (digitsValue n t)

/-- A number behind a sign or without one. -/
inductive SpellsInteger : Text → Int → Prop where
  | unsigned {s : Text} {n : Nat} (h : SpellsNatural s n) : SpellsInteger s n
  | positive {s : Text} {n : Nat} (h : SpellsNatural s n) : SpellsInteger (.char '+' :: s) n
  | negative {s : Text} {n : Nat} (h : SpellsNatural s n) : SpellsInteger (.char '-' :: s) (-(n : Int))

theorem digitsValue_append (n : Nat) (s t : Text) : digitsValue n (s ++ t) = digitsValue (digitsValue n s) t :=
  List.foldl_append

/-- A text is the parts between the occurrences of a code point with that before each but the first. -/
theorem eq_append_flatMap_of_splitOn {c : CodePoint} {s part : Text} {parts : List Text}
    (h : splitOn c s = part :: parts) : s = part ++ parts.flatMap (c :: ·) := by
  induction s generalizing part parts with
  | nil =>
    cases h
    rfl
  | cons d s ih =>
    rw [splitOn, List.splitOnP_cons_eq_if_modifyHead] at h
    obtain ⟨first, others, hs⟩ := List.exists_cons_of_ne_nil (List.splitOnP_ne_nil (· = c) s)
    have hsplit := ih hs
    rw [hs] at h
    by_cases hd : d = c
    · rw [if_pos (decide_eq_true hd)] at h
      cases h
      rw [hsplit, hd]
      rfl
    · rw [if_neg (by simpa using hd)] at h
      cases h
      rw [hsplit]
      rfl

theorem splitOn_of_digits {s : Text} (h : ∀ c ∈ s, isDigit c) : splitOn '_' s = [s] := by
  refine List.splitOnP_eq_singleton fun c hc => decide_eq_false ?_
  rintro rfl
  exact absurd (h _ hc) (by decide)

theorem SpellsNatural.append_groups {s : Text} {n : Nat} (hs : SpellsNatural s n) {groups : List Text}
    (h : ∀ group ∈ groups, group ≠ [] ∧ ∀ c ∈ group, isDigit c) :
    SpellsNatural (s ++ groups.flatMap (.char '_' :: ·)) (digitsValue n groups.flatten) := by
  induction groups generalizing s n with
  | nil => rwa [List.flatMap_nil, List.append_nil]
  | cons group groups ih =>
    obtain ⟨⟨hne, hdigits⟩, hrest⟩ := List.forall_mem_cons.mp h
    rw [List.flatMap_cons, ← List.append_assoc, List.flatten_cons, digitsValue_append]
    exact ih (hs.group hne hdigits) hrest

theorem SpellsNatural.splitOn {s : Text} {n : Nat} (h : SpellsNatural s n) :
    (∀ group ∈ Text.splitOn '_' s, group ≠ [] ∧ ∀ c ∈ group, isDigit c) ∧
      digitsValue 0 (Text.splitOn '_' s).flatten = n := by
  induction h with
  | digits hs h =>
    rw [splitOn_of_digits h, List.flatten_singleton]
    exact ⟨List.forall_mem_singleton.mpr ⟨hs, h⟩, rfl⟩
  | @group s t n _ ht h ih =>
    have hsplit : Text.splitOn '_' (s ++ .char '_' :: t) = Text.splitOn '_' s ++ [t] := by
      rw [← splitOn_of_digits h]
      exact List.splitOnP_append_cons s t rfl
    rw [hsplit, List.flatten_append, List.flatten_singleton, digitsValue_append, ih.2]
    exact ⟨List.forall_mem_append.mpr ⟨ih.1, List.forall_mem_singleton.mpr ⟨ht, h⟩⟩, rfl⟩

theorem readNatural?_eq_some_iff {s : Text} {n : Nat} : readNatural? s = some n ↔ SpellsNatural s n := by
  have hread : readNatural? s = some n ↔ (∀ group ∈ splitOn '_' s, group ≠ [] ∧ ∀ c ∈ group, isDigit c) ∧
      digitsValue 0 (splitOn '_' s).flatten = n := by
    simp [readNatural?, Option.ite_none_right_eq_some]
  rw [hread]
  refine ⟨?_, SpellsNatural.splitOn⟩
  rintro ⟨hgroups, rfl⟩
  obtain ⟨group, groups, hsplit⟩ := List.exists_cons_of_ne_nil (List.splitOnP_ne_nil (· = .char '_') s)
  change splitOn '_' s = group :: groups at hsplit
  rw [hsplit] at hgroups ⊢
  obtain ⟨⟨hne, hdigits⟩, hrest⟩ := List.forall_mem_cons.mp hgroups
  rw [eq_append_flatMap_of_splitOn hsplit, List.flatten_cons, digitsValue_append]
  exact (SpellsNatural.digits hne hdigits).append_groups hrest

theorem SpellsNatural.exists_cons {s : Text} {n : Nat} (h : SpellsNatural s n) :
    ∃ c t, s = c :: t ∧ isDigit c := by
  induction h with
  | @digits s hs h =>
    obtain ⟨c, t, rfl⟩ := List.exists_cons_of_ne_nil hs
    exact ⟨c, t, rfl, h c List.mem_cons_self⟩
  | group _ _ _ ih =>
    obtain ⟨c, t, rfl, hc⟩ := ih
    exact ⟨c, _, rfl, hc⟩

theorem readInteger?_eq_some_iff {s : Text} {i : Int} : readInteger? s = some i ↔ SpellsInteger (trimInteger s) i := by
  have hsign {c : CodePoint} {t : Text} {n : Nat} (hc : ¬isDigit c) : ¬SpellsNatural (c :: t) n := by
    intro h
    obtain ⟨d, u, hcons, hd⟩ := h.exists_cons
    cases hcons
    exact hc hd
  unfold readInteger?
  constructor
  · intro h
    split at h
    · rename_i hs
      obtain ⟨n, hn, rfl⟩ := Option.map_eq_some_iff.mp h
      rw [hs]
      exact .positive (readNatural?_eq_some_iff.mp hn)
    · rename_i hs
      obtain ⟨_, hread, rfl⟩ := Option.map_eq_some_iff.mp h
      obtain ⟨n, hn, hcast⟩ := Option.bind_eq_some_iff.mp hread
      cases hcast
      rw [hs]
      exact .negative (readNatural?_eq_some_iff.mp hn)
    · obtain ⟨n, hn, rfl⟩ := Option.map_eq_some_iff.mp h
      exact .unsigned (readNatural?_eq_some_iff.mp hn)
  · intro h
    generalize trimInteger s = t at h
    cases h with
    | unsigned hnatural =>
      split
      · exact absurd hnatural (hsign (by decide))
      · exact absurd hnatural (hsign (by decide))
      · rw [readNatural?_eq_some_iff.mpr hnatural]
        rfl
    | positive hnatural =>
      simp only [readNatural?_eq_some_iff.mpr hnatural]
      rfl
    | negative hnatural =>
      simp only [readNatural?_eq_some_iff.mpr hnatural]
      rfl

/-- Behind blanks that have been trimmed there are none that may stand around an integer. -/
theorem trimInteger_trim (s : Text) : trimInteger (trim s) = trim s := by
  by_cases h : trim s = []
  · rw [h]
    rfl
  · exact (isSolid_trim h).trimInteger_eq

theorem readInteger?_trim_eq_some_iff {s : Text} {i : Int} :
    readInteger? (trim s) = some i ↔ SpellsInteger (trim s) i := by
  rw [readInteger?_eq_some_iff, trimInteger_trim]

end Text
end MinimalistGrammar
