import MinimalistGrammar.Proofs.WrittenForms
import MinimalistGrammar.Text.Lines

/-! Texts that are joined by line feeds and cut into lines again. They come back if no line ends within any of them; a
text in which a line ends comes back in several pieces. -/
namespace MinimalistGrammar

theorem CodePoint.not_isLineEnd_of_isGraphic {c : CodePoint} (h : c.isGraphic) : ¬Text.isLineEnd c := by
  obtain ⟨hge, hle⟩ := isGraphic_iff.mp h
  simp only [Text.isLineEnd, Bool.or_eq_true, Bool.and_eq_true, decide_eq_true_eq, beq_iff_eq]
  omega

namespace Text

def IsUnbroken (s : Text) : Prop := ∀ c ∈ s, ¬isLineEnd c

instance (s : Text) : Decidable s.IsUnbroken := inferInstanceAs (Decidable (∀ c ∈ s, ¬isLineEnd c))

theorem isBlank_of_isLineEnd {c : CodePoint} (h : isLineEnd c) : isBlank c := by
  simp only [isLineEnd, Bool.or_eq_true, Bool.and_eq_true, decide_eq_true_eq, beq_iff_eq] at h
  simp only [isBlank, Bool.or_eq_true, Bool.and_eq_true, decide_eq_true_eq, beq_iff_eq]
  omega

def EndsInLine (s : Text) : Prop := ∀ c ∈ s.getLast?, ¬isLineEnd c

theorem EndsInLine.tail {c : CodePoint} {s : Text} (h : EndsInLine (c :: s)) : s.EndsInLine := by
  cases s with
  | nil => exact fun _ hd => nomatch hd
  | cons d s => rwa [EndsInLine, List.getLast?_cons_cons] at h

theorem EndsInLine.ne_nil {c : CodePoint} {s : Text} (h : EndsInLine (c :: s)) (hc : isLineEnd c) : s ≠ [] := by
  rintro rfl
  exact h c rfl hc

theorem linesFrom_cons_of_not_isLineEnd {c : CodePoint} (h : ¬isLineEnd c) (begun s : Text) :
    linesFrom begun (c :: s) = linesFrom (c :: begun) s := by
  have hpair : ∀ t, c = .char '\r' → s = .char '\n' :: t → False := fun t hreturn _ => h (hreturn ▸ rfl)
  rw [linesFrom.eq_3 _ _ _ hpair, if_neg h]

theorem linesFrom_ne_nil {begun s : Text} (h : begun ≠ [] ∨ s ≠ []) : linesFrom begun s ≠ [] := by
  fun_induction linesFrom begun s with
  | case1 => simp at h
  | case2 begun hbegun => exact List.cons_ne_nil _ _
  | case3 begun s ih => exact List.cons_ne_nil _ _
  | case4 begun c s hnot hc ih => exact List.cons_ne_nil _ _
  | case5 begun c s hnot hc ih => exact ih (.inl (List.cons_ne_nil c begun))

/-- A line that is going on ends at a line feed, and nothing before it depends on what is behind it. -/
theorem linesFrom_append_newline {begun s : Text} (h : begun ≠ [] ∨ s ≠ []) (hlast : s.EndsInLine) (rest : Text) :
    linesFrom begun (s ++ .char '\n' :: rest) = linesFrom begun s ++ lines rest := by
  fun_induction linesFrom begun s with
  | case1 => simp at h
  | case2 begun hbegun => rfl
  | case3 begun s ih =>
    rw [List.cons_append, List.cons_append, linesFrom, ih (.inr (hlast.tail.ne_nil rfl)) hlast.tail.tail,
      List.cons_append]
  | case4 begun c s hnot hc ih =>
    have hs : s ≠ [] := hlast.ne_nil hc
    have hpair : ∀ t, c = .char '\r' → s ++ .char '\n' :: rest = .char '\n' :: t → False := by
      intro t hreturn hfeed
      cases s with
      | nil => exact hs rfl
      | cons d s => exact hnot s hreturn (by rw [(List.cons.inj hfeed).1])
    rw [List.cons_append, linesFrom.eq_3 _ _ _ hpair, if_pos hc, ih (.inr hs) hlast.tail, List.cons_append]
  | case5 begun c s hnot hc ih =>
    rw [List.cons_append, linesFrom_cons_of_not_isLineEnd hc, ih (.inl (List.cons_ne_nil c begun)) hlast.tail]

/-- Joined texts are cut where they were joined, and in themselves. -/
theorem lines_join {items : List Text} (hne : ∀ item ∈ items, item ≠ []) (hlast : ∀ item ∈ items, item.EndsInLine) :
    lines (join "\n" items) = items.flatMap lines := by
  induction items with
  | nil => rfl
  | cons item items ih =>
    obtain ⟨hitem, hitems⟩ := List.forall_mem_cons.mp hne
    obtain ⟨hend, hends⟩ := List.forall_mem_cons.mp hlast
    cases items with
    | nil => simp [join]
    | cons next items =>
      rw [join_cons_cons, List.append_assoc, List.flatMap_cons, ← ih hitems hends]
      exact linesFrom_append_newline (.inr hitem) hend _

theorem linesFrom_of_isUnbroken {begun s : Text} (h : begun ≠ [] ∨ s ≠ []) (hs : s.IsUnbroken) :
    linesFrom begun s = [begun.reverse ++ s] := by
  induction s generalizing begun with
  | nil =>
    have hbegun : begun ≠ [] := by simpa using h
    rw [linesFrom, if_neg hbegun, List.append_nil]
  | cons c s ih =>
    obtain ⟨hc, hs⟩ := List.forall_mem_cons.mp hs
    rw [linesFrom_cons_of_not_isLineEnd hc, ih (.inl (List.cons_ne_nil c begun)) hs, List.reverse_cons,
      List.append_assoc, List.singleton_append]

theorem lines_of_isUnbroken {s : Text} (hne : s ≠ []) (hs : s.IsUnbroken) : lines s = [s] :=
  linesFrom_of_isUnbroken (.inr hne) hs

theorem one_lt_length_linesFrom {begun s : Text} (hs : ¬s.IsUnbroken) (hlast : s.EndsInLine) :
    1 < (linesFrom begun s).length := by
  have hbehind {begun s : Text} (hs : s ≠ []) : 1 < (begun.reverse :: linesFrom [] s).length :=
    Nat.succ_lt_succ (List.length_pos_iff.mpr (linesFrom_ne_nil (.inr hs)))
  fun_induction linesFrom begun s with
  | case1 => exact absurd (fun _ hc => nomatch hc) hs
  | case2 => exact absurd (fun _ hc => nomatch hc) hs
  | case3 begun s ih => exact hbehind (hlast.tail.ne_nil rfl)
  | case4 begun c s hnot hc ih => exact hbehind (hlast.ne_nil hc)
  | case5 begun c s hnot hc ih =>
    exact ih (fun hunbroken => hs (List.forall_mem_cons.mpr ⟨hc, hunbroken⟩)) hlast.tail

theorem flatMap_lines_eq_self {items : List Text} (hne : ∀ item ∈ items, item ≠ [])
    (h : ∀ item ∈ items, item.IsUnbroken) : items.flatMap lines = items := by
  induction items with
  | nil => rfl
  | cons item items ih =>
    obtain ⟨hitem, hitems⟩ := List.forall_mem_cons.mp hne
    obtain ⟨hunbroken, hrest⟩ := List.forall_mem_cons.mp h
    rw [List.flatMap_cons, lines_of_isUnbroken hitem hunbroken, ih hitems hrest, List.singleton_append]

theorem length_le_length_flatMap_lines {items : List Text} (hne : ∀ item ∈ items, item ≠ []) :
    items.length ≤ (items.flatMap lines).length := by
  induction items with
  | nil => exact Nat.le_refl 0
  | cons item items ih =>
    obtain ⟨hitem, hitems⟩ := List.forall_mem_cons.mp hne
    have hlines : 0 < (lines item).length := List.length_pos_iff.mpr (linesFrom_ne_nil (.inr hitem))
    have hrest := ih hitems
    rw [List.flatMap_cons, List.length_append, List.length_cons]
    omega

/-- If one of the texts is broken, there are more pieces than texts. -/
theorem length_lt_length_flatMap_lines {items : List Text} (hne : ∀ item ∈ items, item ≠ [])
    (hlast : ∀ item ∈ items, item.EndsInLine) (h : ∃ item ∈ items, ¬item.IsUnbroken) :
    items.length < (items.flatMap lines).length := by
  obtain ⟨item, hitem, hbroken⟩ := h
  obtain ⟨before, after, rfl⟩ := List.append_of_mem hitem
  have hpieces : 1 < (lines item).length := one_lt_length_linesFrom hbroken (hlast item hitem)
  have hbefore := length_le_length_flatMap_lines (List.forall_mem_append.mp hne).1
  have hafter := length_le_length_flatMap_lines (List.forall_mem_cons.mp (List.forall_mem_append.mp hne).2).2
  rw [List.flatMap_append, List.flatMap_cons, List.length_append, List.length_append, List.length_append,
    List.length_cons]
  omega

end Text
end MinimalistGrammar
