import Mathlib.Data.List.TakeWhile
import MinimalistGrammar.Formula.Name
import MinimalistGrammar.Proofs.Trimming

/-! Numbers in decimal: the digits that are written for a number denote it, and an index is read from
the digits that denote it. -/
namespace MinimalistGrammar
namespace Formula

/-- The digits of any script that denote an index, behind a minus sign if it is negative. -/
inductive SpellsIndex : Text → Int → Prop where
  | natural {s : Text} (hs : s ≠ []) (h : ∀ c ∈ s, Text.isDigit c) :
      SpellsIndex s (Text.digitsValue 0 s)
  | negative {s : Text} (hs : s ≠ []) (h : ∀ c ∈ s, Text.isDigit c) :
      SpellsIndex (.char '-' :: s) (-(Text.digitsValue 0 s : Int))

theorem not_isDigit_of_isReserved {c : CodePoint} (h : isReserved c) : Text.isDigit c = false := by
  simp only [isReserved, Bool.or_eq_true, decide_eq_true_eq] at h
  rcases h with ((((rfl | rfl) | rfl) | rfl) | rfl) | rfl <;> decide

theorem not_isReserved_of_isDigit {c : CodePoint} (h : Text.isDigit c) : ¬isReserved c := by
  intro hr
  rw [not_isDigit_of_isReserved hr] at h
  cases h

theorem SpellsIndex.not_reserved {s : Text} {index : Int} (h : SpellsIndex s index) :
    ∀ c ∈ s, ¬isReserved c := by
  cases h with
  | natural _ h => exact fun c hc => not_isReserved_of_isDigit (h c hc)
  | negative _ h =>
    intro c hc
    rcases List.mem_cons.mp hc with rfl | hc
    · decide
    · exact not_isReserved_of_isDigit (h c hc)

theorem isDigit_eq_false_of_isBlank {c : CodePoint} (h : Text.isBlank c) :
    Text.isDigit c = false := by
  have hgap : c.toNat < 0x30 ∨ (0x39 < c.toNat ∧ c.toNat < 0x660) ∨ c.toNat = 0x1680 ∨
      (0x1c59 < c.toNat ∧ c.toNat < 0xa620) := by
    simp only [Text.isBlank, Bool.or_eq_true, Bool.and_eq_true, decide_eq_true_eq,
      beq_iff_eq] at h
    omega
  have hnone : Text.digitZeros.find? (fun z => z ≤ c.toNat && c.toNat < z + 10) = none := by
    rw [List.find?_eq_none]
    simp only [Text.digitZeros, List.mem_cons, List.not_mem_nil, or_false, Bool.and_eq_true,
      decide_eq_true_eq]
    omega
  rw [Text.isDigit, Text.digitValue?, hnone]
  rfl

theorem not_isBlank_of_isDigit {c : CodePoint} (h : Text.isDigit c) : ¬Text.isBlank c := by
  intro hb
  rw [isDigit_eq_false_of_isBlank hb] at h
  cases h

theorem SpellsIndex.ne_nil {s : Text} {index : Int} (h : SpellsIndex s index) : s ≠ [] := by
  cases h with
  | natural hs _ => exact hs
  | negative _ _ => exact List.cons_ne_nil _ _

theorem SpellsIndex.not_blank {s : Text} {index : Int} (h : SpellsIndex s index) :
    ∀ c ∈ s, ¬Text.isBlank c := by
  cases h with
  | natural _ h => exact fun c hc => not_isBlank_of_isDigit (h c hc)
  | negative _ h =>
    intro c hc
    rcases List.mem_cons.mp hc with rfl | hc
    · decide
    · exact not_isBlank_of_isDigit (h c hc)

/-- The digits at the beginning of a text are read if no other digit follows. -/
theorem splitNumber?_append {s rest : Text} (hs : s ≠ []) (h : ∀ c ∈ s, Text.isDigit c)
    (hrest : ∀ c ∈ rest.head?, Text.isDigit c = false) :
    splitNumber? (s ++ rest) = some (Text.digitsValue 0 s, rest) := by
  have htake : (s ++ rest).takeWhile Text.isDigit = s := by
    rw [List.takeWhile_append_of_pos h]
    cases rest with
    | nil => simp
    | cons c rest => simp [hrest c rfl]
  have hdrop : (s ++ rest).dropWhile Text.isDigit = rest := by
    rw [List.dropWhile_append_of_pos h]
    cases rest with
    | nil => rfl
    | cons c rest => simp [hrest c rfl]
  rw [splitNumber?, htake, hdrop]
  cases s with
  | nil => exact absurd rfl hs
  | cons c s => rfl

theorem splitIndex?_append {s rest : Text} {index : Int} (h : SpellsIndex s index)
    (hrest : ∀ c ∈ rest.head?, Text.isDigit c = false) :
    splitIndex? (s ++ rest) = some (index, rest) := by
  cases h with
  | natural hs h =>
    cases s with
    | nil => exact absurd rfl hs
    | cons c s =>
      have hminus : c ≠ '-' := by
        rintro rfl
        exact absurd (h _ List.mem_cons_self) (by decide)
      rw [List.cons_append, splitIndex?.eq_2 _ (by simp [hminus]), ← List.cons_append,
        splitNumber?_append hs h hrest]
      rfl
  | negative hs h => simp [splitIndex?, splitNumber?_append hs h hrest]

theorem exists_of_splitNumber? {s rest : Text} {n : Nat} (h : splitNumber? s = some (n, rest)) :
    ∃ digits, digits ≠ [] ∧ (∀ c ∈ digits, Text.isDigit c) ∧ n = Text.digitsValue 0 digits ∧
      s = digits ++ rest := by
  unfold splitNumber? at h
  split at h
  · cases h
  · rename_i hne
    cases h
    exact ⟨s.takeWhile Text.isDigit, hne, fun c hc => List.mem_takeWhile_imp hc, rfl,
      List.takeWhile_append_dropWhile.symm⟩

theorem exists_of_splitIndex? {s rest : Text} {index : Int}
    (h : splitIndex? s = some (index, rest)) : ∃ digits, SpellsIndex digits index ∧
      s = digits ++ rest := by
  unfold splitIndex? at h
  split at h <;> obtain ⟨⟨n, r⟩, hr, he⟩ := Option.map_eq_some_iff.mp h <;> cases he <;>
    obtain ⟨digits, hne, hdigits, rfl, rfl⟩ := exists_of_splitNumber? hr
  · exact ⟨_, .negative hne hdigits, rfl⟩
  · exact ⟨_, .natural hne hdigits, rfl⟩

theorem readVariable?_eq_some_iff {s : Text} {index : Int} :
    readVariable? s = some index ↔ ∃ digits, SpellsIndex digits index ∧ s = "x_" ++ digits := by
  constructor
  · intro h
    unfold readVariable? at h
    split at h
    · split at h
      · rename_i hs
        cases h
        obtain ⟨digits, hd, he⟩ := exists_of_splitIndex? hs
        rw [List.append_nil] at he
        subst he
        exact ⟨_, hd, rfl⟩
      · cases h
    · cases h
  · rintro ⟨digits, hd, rfl⟩
    have hs : splitIndex? (digits ++ []) = some (index, []) := splitIndex?_append hd (by simp)
    rw [List.append_nil] at hs
    change readVariable? (.char 'x' :: .char '_' :: digits) = some index
    rw [readVariable?, hs]

theorem digitValue?_of_isDigit {c : Char} (h : c.isDigit) :
    Text.digitValue? c = some (c.toNat - '0'.toNat) := by
  have hrange : 48 ≤ c.toNat ∧ c.toNat ≤ 57 := Char.isDigit_iff_toNat.mp h
  have hlow : decide (48 ≤ c.toNat) = true := decide_eq_true hrange.1
  have hhigh : decide (c.toNat < 48 + 10) = true := decide_eq_true (by omega)
  rw [Text.digitValue?, Text.digitZeros, List.find?_cons_of_pos]
  · rfl
  · exact Bool.and_eq_true_iff.mpr ⟨hlow, hhigh⟩

theorem digitsValue_map_char {digits : List Char} (h : ∀ c ∈ digits, c.isDigit) (start : Nat) :
    Text.digitsValue start (digits.map .char) = Nat.ofDigitChars 10 digits start := by
  induction digits generalizing start with
  | nil => rfl
  | cons c digits ih =>
    have hc := digitValue?_of_isDigit (h c List.mem_cons_self)
    have htail := ih (fun d hd => h d (List.mem_cons_of_mem c hd))
      (10 * start + (c.toNat - '0'.toNat))
    rw [Nat.ofDigitChars_cons, ← htail, List.map_cons, Text.digitsValue, List.foldl_cons, hc]
    rfl

theorem isDigit_ofNat (n : Nat) : ∀ c ∈ Text.ofNat n, Text.isDigit c := by
  intro c hc
  obtain ⟨d, hd, rfl⟩ := List.mem_map.mp hc
  have hdigit : d.isDigit := Nat.isDigit_of_mem_toDigits (by decide) (by decide) hd
  rw [Text.isDigit, digitValue?_of_isDigit hdigit]
  rfl

theorem digitsValue_ofNat (n : Nat) : Text.digitsValue 0 (Text.ofNat n) = n := by
  have hdigits : ∀ c ∈ Nat.toDigits 10 n, c.isDigit := fun _ hc =>
    Nat.isDigit_of_mem_toDigits (by decide) (by decide) hc
  rw [Text.ofNat, digitsValue_map_char hdigits, Nat.ofDigitChars_ten_toDigits]

theorem ofNat_ne_nil (n : Nat) : Text.ofNat n ≠ [] := by
  simp [Text.ofNat, Nat.toDigits_ne_nil]

theorem spellsIndex_ofInt (index : Int) : SpellsIndex (Text.ofInt index) index := by
  unfold Text.ofInt
  split
  · have h := SpellsIndex.negative (ofNat_ne_nil index.natAbs) (isDigit_ofNat index.natAbs)
    rw [digitsValue_ofNat] at h
    rwa [show -(index.natAbs : Int) = index by omega] at h
  · have h := SpellsIndex.natural (ofNat_ne_nil index.natAbs) (isDigit_ofNat index.natAbs)
    rw [digitsValue_ofNat] at h
    rwa [show (index.natAbs : Int) = index by omega] at h

end Formula

namespace Text

/-- Where no blank stands at an end, none of those that may stand around an integer does. -/
theorem IsSolid.trimInteger_eq {s : Text} (hs : IsSolid s) : trimInteger s = s := by
  have hdrop {t : Text} (ht : t ≠ []) (hhead : ¬isBlank (t.head ht)) : t.dropWhile isIntegerBlank = t := by
    cases t with
    | nil => rfl
    | cons c t =>
      have hc : isBlank c = false := Bool.eq_false_iff.mpr hhead
      exact List.dropWhile_cons_of_neg (by simp [isIntegerBlank, hc])
  obtain ⟨hne, hfirst, hlast⟩ := hs
  have hreverse : s.reverse ≠ [] := List.reverse_ne_nil_iff.mpr hne
  rw [trimInteger, hdrop hne hfirst, hdrop hreverse (by rwa [List.head_reverse]), List.reverse_reverse]

theorem readNatural?_ofNat (n : Nat) : readNatural? (ofNat n) = some n := by
  have hdigit : (ofNat n).all isDigit := List.all_eq_true.mpr (Formula.isDigit_ofNat n)
  have hgroups : splitOn '_' (ofNat n) = [ofNat n] := by
    refine List.splitOnP_eq_singleton fun c hc => decide_eq_false ?_
    rintro rfl
    exact absurd (Formula.isDigit_ofNat n _ hc) (by decide)
  simp [readNatural?, hgroups, hdigit, Formula.ofNat_ne_nil, Formula.digitsValue_ofNat]

theorem readInteger?_ofInt (i : Int) : readInteger? (ofInt i) = some i := by
  have hspells := Formula.spellsIndex_ofInt i
  have htrim : trimInteger (ofInt i) = ofInt i := (isSolid_of_all hspells.ne_nil hspells.not_blank).trimInteger_eq
  rw [readInteger?, htrim]
  by_cases hi : i < 0
  · have hneg : -(i.natAbs : Int) = i := by omega
    rw [ofInt, if_pos hi]
    simp only [readNatural?_ofNat]
    exact congrArg some hneg
  · have hfirst : ∀ c ∈ (ofNat i.natAbs).head?, isDigit c := fun c hc =>
      Formula.isDigit_ofNat i.natAbs c (List.mem_of_mem_head? hc)
    rw [ofInt, if_neg hi]
    split
    · rename_i heq
      rw [heq] at hfirst
      exact absurd (hfirst _ rfl) (by decide)
    · rename_i heq
      rw [heq] at hfirst
      exact absurd (hfirst _ rfl) (by decide)
    · rw [readNatural?_ofNat, Option.map_some]
      exact congrArg some (Int.natAbs_of_nonneg (by omega))

theorem ofInt_injective : Function.Injective ofInt := by
  intro i j h
  have hread : some i = some j := by rw [← readInteger?_ofInt, h, readInteger?_ofInt]
  exact Option.some.inj hread

end Text
end MinimalistGrammar
