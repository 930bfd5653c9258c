import MinimalistGrammar.Proofs.Except
import MinimalistGrammar.Proofs.Notation

/-! The reader recognises the notation of formulas and nothing else: what it reads from a text is denoted
by the text. Brackets of both kinds are counted together, so a text whose brackets do not match can be taken
apart, but then one of the parts is refused. -/
namespace MinimalistGrammar
namespace Formula

theorem eq_enclose_of_isWrapped? {opening closing : CodePoint} (hb : IsBracketPair opening closing)
    {s : Text} (h : isWrapped? opening closing s = some true) :
    s = Text.enclose opening closing (inner s) := by
  have hends : s.head? = some opening ∧ s.getLast? = some closing := by
    unfold isWrapped? at h
    split at h
    · assumption
    · cases h
  have hne : opening ≠ closing := by cases hb <;> decide
  obtain ⟨t, rfl⟩ := List.head?_eq_some_iff.mp hends.1
  have ht : t ≠ [] := by
    rintro rfl
    exact hne (Option.some.inj hends.2)
  have hlast : t.getLast ht = closing := by
    have hlast := hends.2
    rw [List.getLast?_cons_of_ne_nil ht, List.getLast?_eq_some_getLast ht] at hlast
    exact Option.some.inj hlast
  rw [inner, List.tail_cons, Text.enclose, ← hlast, List.dropLast_append_getLast]

theorem exists_of_readQuoted? {s name : Text} (h : readQuoted? s = some name) :
    ∃ t, Escapes t name ∧ s = t ++ [.char '"'] := by
  fun_induction readQuoted? s generalizing name with
  | case1 => cases h
  | case2 =>
    cases h
    exact ⟨[], .nil, rfl⟩
  | case3 => cases h
  | case4 => cases h
  | case5 c s ih =>
    obtain ⟨name, hname, rfl⟩ := Option.map_eq_some_iff.mp h
    obtain ⟨t, ht, rfl⟩ := ih hname
    exact ⟨_, .escaped ht, rfl⟩
  | case6 c s hq hend hb ih =>
    obtain ⟨name, hname, rfl⟩ := Option.map_eq_some_iff.mp h
    obtain ⟨t, ht, rfl⟩ := ih hname
    refine ⟨c :: t, .plain hq (fun hc => ?_) ht, rfl⟩
    cases t with
    | nil => exact hb _ _ hc rfl
    | cons d t => exact hb _ _ hc rfl

theorem eq_of_splitOperator? {s operand : Text} {operator : Operator}
    (h : splitOperator? s = some (operator, operand)) :
    operator = .close ∧ s = Text.enclose '<' '>' operand ∨
      ∃ name, SpellsRole name operator ∧ s = name ++ Text.enclose '(' ')' operand := by
  unfold splitOperator? at h
  split at h
  · rename_i hw
    cases h
    exact .inl ⟨rfl, eq_enclose_of_isWrapped? .angle hw⟩
  · split at h
    · rename_i role rest hr
      split at h
      · rename_i hw
        cases h
        obtain ⟨name, hname, rfl⟩ := exists_of_splitRole? hr
        refine .inr ⟨name, hname, ?_⟩
        rw [← eq_enclose_of_isWrapped? .round hw]
      · cases h
    · cases h

theorem denotes_of_readName {s : Text} {f : Formula} (hs : Text.IsSolid s)
    (h : readName s = .ok f) : Denotes .atom s f := by
  unfold readName at h
  split at h
  · rename_i name _ hq
    cases h
    obtain ⟨hhead, hname⟩ := Option.ite_none_right_eq_some.mp hq
    obtain ⟨t, ht, htail⟩ := exists_of_readQuoted? hname
    have he : s = Text.enclose '"' '"' t := by
      rw [Text.enclose, ← htail]
      exact (List.cons_head?_tail hhead).symm
    rw [he]
    exact .quoted ht
  · rename_i hv
    cases h
    obtain ⟨digits, hd, rfl⟩ := readVariable?_eq_some_iff.mp hv
    exact .var hd
  · rename_i hv
    split at h
    · rename_i he
      cases h
      rw [he]
      exact .existential
    · rename_i hexistential
      split at h
      · rename_i he
        cases h
        rw [he]
        exact .universal
      · rename_i huniversal
        split at h
        · cases h
        · rename_i hreserved
          cases h
          refine .bare ⟨hs, by simpa using hreserved, hexistential, huniversal, ?_⟩
          rintro digits index hd rfl
          rw [readVariable?_eq_some_iff.mpr ⟨digits, hd, rfl⟩] at hv
          cases hv

/-- What stands before the first `&` outside all brackets is no conjunction itself. -/
theorem Denotes.exists_atom_of_cut {s left right : Text} {f : Formula}
    (h : Denotes .text left f) (hc : cut .outside 0 s = .conjunction left right)
    (hleft : Text.trim left ≠ []) : ∃ b t a, Text.IsBlanks b ∧ Text.IsBlanks a ∧
      Denotes .atom t f ∧ left = b ++ t ++ a := by
  cases h with
  | blank h => exact absurd (Text.trim_eq_nil_iff.mpr h) hleft
  | trimmed hb h ha => exact ⟨_, _, _, hb, ha, h, rfl⟩
  | @and b t a u g g' hb h ha =>
    -- the scan would have stopped at the `&` inside
    have hsteady : IsSteady 0 (b ++ t ++ a) :=
      ((isSteady_blanks hb).append h.isSteady).append (isSteady_blanks ha)
    have hcut := hsteady.cut_ampersand (u ++ .char '&' :: right)
    rw [eq_of_cut hc, List.append_assoc, List.cons_append, hcut] at hc
    have hlength := congrArg List.length (Cut.conjunction.inj hc).1
    simp at hlength

theorem denotes_of_read {s : Text} {f : Formula} (h : read s = .ok f) : Denotes .text s f := by
  fun_induction read s generalizing f
  case case1 s t hs =>
    cases h
    exact .blank (Text.trim_eq_nil_iff.mp hs)
  case case3 s t hs hw ih =>
    have hbrackets := Denotes.brackets (ih h)
    rw [← eq_enclose_of_isWrapped? .round hw] at hbrackets
    exact hbrackets.toText.of_trim
  case case7 s t hs hw left right hc hne ihl ihr =>
    obtain ⟨hleft, hright⟩ := not_or.mp hne
    obtain ⟨g, hg, h⟩ := exists_of_bind_eq_ok h
    obtain ⟨g', hg', h⟩ := exists_of_bind_eq_ok h
    cases h
    obtain ⟨b, u, a, hb, ha, hatom, rfl⟩ := (ihl hg).exists_atom_of_cut hc hleft
    have hand := Denotes.and hb hatom ha (ihr hg') hright
    rw [← eq_of_cut hc] at hand
    exact hand.of_trim
  case case9 s t hs hw hc operator operand ho hne ih =>
    obtain ⟨g, hg, h⟩ := exists_of_bind_eq_ok h
    cases h
    have hatom : Denotes .atom t (operator.apply g) := by
      rcases eq_of_splitOperator? ho with ⟨rfl, he⟩ | ⟨name, hname, he⟩
      · rw [he]
        exact .close (ih hg) hne
      · rw [he]
        exact .role hname (ih hg) hne
    exact hatom.toText.of_trim
  case case10 s t hs hw hc ho =>
    exact (denotes_of_readName (Text.isSolid_trim hs) h).toText.of_trim
  -- the other cases are errors
  all_goals cases h

/-- A formula is read from a text exactly if the text denotes it; a text denotes one formula at most, and
reading any other text is an error. -/
theorem read_eq_ok_iff_denotes (s : Text) :
    (∀ f, read s = .ok f ↔ Denotes .text s f) ∧
      (∀ f g, Denotes .text s f → Denotes .text s g → f = g) ∧
      ((∃ e, read s = .error e) ↔ ¬∃ f, Denotes .text s f) := by
  have hiff : ∀ f, read s = .ok f ↔ Denotes .text s f := fun f => ⟨denotes_of_read, read_of_denotes⟩
  refine ⟨hiff, fun f g hf hg => ?_, ?_⟩
  · exact Except.ok.inj ((read_of_denotes hf).symm.trans (read_of_denotes hg))
  · simp only [← hiff]
    cases read s with
    | error e => simp
    | ok f => simp

end Formula
end MinimalistGrammar
