import Mathlib.Data.List.DropRight
import MinimalistGrammar.Text.Blank

/-! What trimming leaves of a text: the part between the blanks at its ends, which is empty or has no
blank at either end. -/
namespace MinimalistGrammar
namespace Text

def IsBlanks (s : Text) : Prop := ∀ c ∈ s, isBlank c

def IsSolid (s : Text) : Prop := ∃ h : s ≠ [], ¬isBlank (s.head h) ∧ ¬isBlank (s.getLast h)

theorem IsSolid.ne_nil {s : Text} (h : IsSolid s) : s ≠ [] := h.1

theorem IsSolid.not_isBlanks {s : Text} (h : IsSolid s) : ¬IsBlanks s :=
  fun hb => h.2.1 (hb _ (List.head_mem h.1))

theorem isBlanks_nil : IsBlanks [] := by simp [IsBlanks]

theorem isBlanks_append {s t : Text} : IsBlanks (s ++ t) ↔ IsBlanks s ∧ IsBlanks t := by
  simp only [IsBlanks, List.mem_append]
  grind

theorem isSolid_of_all {s : Text} (hs : s ≠ []) (h : ∀ c ∈ s, ¬isBlank c) : IsSolid s :=
  ⟨hs, h _ (List.head_mem hs), h _ (List.getLast_mem hs)⟩

theorem isSolid_append {s t : Text} (hs : IsSolid s) (ht : IsSolid t) (m : Text) :
    IsSolid (s ++ m ++ t) := by
  obtain ⟨hs, hfirst, -⟩ := hs
  obtain ⟨ht, -, hlast⟩ := ht
  refine ⟨by simp [hs], ?_, ?_⟩
  · simpa [List.head_append_of_ne_nil, hs] using hfirst
  · simpa [List.getLast_append_of_ne_nil, ht] using hlast

theorem isSolid_enclose {opening closing : CodePoint} (ho : ¬isBlank opening)
    (hc : ¬isBlank closing) (s : Text) : IsSolid (enclose opening closing s) := by
  have hopening : IsSolid [opening] := isSolid_of_all (by simp) (by simpa using ho)
  have hclosing : IsSolid [closing] := isSolid_of_all (by simp) (by simpa using hc)
  exact isSolid_append hopening hclosing s

theorem trimStart_append {b s : Text} (hb : IsBlanks b) : trimStart (b ++ s) = trimStart s :=
  List.dropWhile_append_of_pos hb

theorem trimEnd_append {s a : Text} (ha : IsBlanks a) : trimEnd (s ++ a) = trimEnd s := by
  have hr : ∀ c ∈ a.reverse, isBlank c := by simpa [IsBlanks] using ha
  rw [trimEnd, List.reverse_append, List.dropWhile_append_of_pos hr, trimEnd]

theorem IsSolid.trimStart_append {s : Text} (hs : IsSolid s) (t : Text) :
    trimStart (s ++ t) = s ++ t := by
  obtain ⟨hne, hfirst, -⟩ := hs
  cases s with
  | nil => exact absurd rfl hne
  | cons c s => exact List.dropWhile_cons_of_neg hfirst

theorem IsSolid.trimEnd_append {s : Text} (hs : IsSolid s) (t : Text) :
    trimEnd (t ++ s) = t ++ s := by
  obtain ⟨hne, -, hlast⟩ := hs
  refine List.rdropWhile_eq_self_iff.mpr fun h => ?_
  rwa [List.getLast_append_of_ne_nil h hne]

theorem trimEnd_append_cons {c : CodePoint} (hc : ¬isBlank c) (s t : Text) :
    trimEnd (s ++ c :: t) = s ++ c :: trimEnd t := by
  have hr : (s ++ c :: t).reverse = t.reverse ++ c :: s.reverse := by simp
  rw [trimEnd, hr, List.dropWhile_append]
  split
  · rename_i hn
    rw [List.dropWhile_cons_of_neg hc, trimEnd, List.isEmpty_iff.mp hn]
    simp
  · simp [trimEnd]

theorem trim_append_append {b t a : Text} (hb : IsBlanks b) (ht : IsSolid t) (ha : IsBlanks a) :
    trim (b ++ t ++ a) = t := by
  have hstart : trimStart (b ++ t ++ a) = t ++ a := by
    rw [List.append_assoc, Text.trimStart_append hb, ht.trimStart_append]
  have hend : trimEnd t = t := ht.trimEnd_append []
  rw [trim, hstart, Text.trimEnd_append ha, hend]

theorem IsSolid.trim_eq {s : Text} (hs : IsSolid s) : trim s = s := by
  simpa using trim_append_append isBlanks_nil hs isBlanks_nil

theorem trim_subset (s : Text) : trim s ⊆ s := by
  intro c hc
  have hreverse := (List.dropWhile_sublist _).mem (List.mem_reverse.mp hc)
  exact (List.dropWhile_sublist _).mem (List.mem_reverse.mp hreverse)

theorem trim_eq_nil_iff {s : Text} : trim s = [] ↔ IsBlanks s := by
  have hend : trim s = [] ↔ IsBlanks (trimStart s) := List.rdropWhile_eq_nil_iff
  rw [hend]
  constructor
  · intro h
    rw [← List.takeWhile_append_dropWhile (p := isBlank) (l := s)]
    exact isBlanks_append.mpr ⟨fun c hc => List.mem_takeWhile_imp hc, h⟩
  · exact fun h c hc => h c ((List.dropWhile_sublist _).subset hc)

theorem isSolid_trim {s : Text} (hs : trim s ≠ []) : IsSolid (trim s) := by
  refine ⟨hs, ?_, ?_⟩
  · have hstart : trimStart s ≠ [] := by
      intro h
      simp [trim, h, trimEnd] at hs
    have hpre : trim s <+: trimStart s := List.rdropWhile_prefix isBlank _
    have hfirst : isBlank ((trimStart s).head hstart) = false :=
      List.head_dropWhile_not isBlank hstart
    rw [hpre.head hs, hfirst]
    exact Bool.false_ne_true
  · exact List.rdropWhile_last_not isBlank _ hs

theorem exists_append_trim_append (s : Text) :
    ∃ b a, IsBlanks b ∧ IsBlanks a ∧ s = b ++ trim s ++ a := by
  refine ⟨s.takeWhile isBlank, (trimStart s).rtakeWhile isBlank, ?_, ?_, ?_⟩
  · exact fun c hc => List.mem_takeWhile_imp hc
  · exact fun c hc => List.mem_rtakeWhile_imp hc
  · have hend : trim s ++ (trimStart s).rtakeWhile isBlank = trimStart s :=
      List.rdropWhile_append_rtakeWhile
    rw [List.append_assoc, hend]
    exact List.takeWhile_append_dropWhile.symm

theorem trim_trimEnd (s : Text) : trim (trimEnd s) = trim s := by
  obtain ⟨b, a, hb, ha, hs⟩ := exists_append_trim_append s
  by_cases hn : trim s = []
  · have hblanks : IsBlanks (trimEnd s) := fun c hc =>
      trim_eq_nil_iff.mp hn c ((List.rdropWhile_prefix isBlank s).subset hc)
    rw [hn, trim_eq_nil_iff.mpr hblanks]
  · have hsolid := isSolid_trim hn
    have hend : trimEnd s = b ++ trim s ++ [] := by
      rw [hs, Text.trimEnd_append ha, ← hs, hsolid.trimEnd_append, List.append_nil]
    rw [hend, trim_append_append hb hsolid isBlanks_nil]

end Text
end MinimalistGrammar
