import MinimalistGrammar.Formula.Reader

/-! What the two scans of a text do on a part of it. A part is steady from some depth on if, with as
many brackets open, neither scan stops inside it and as many brackets are open behind it. Brackets and
quotes around a part make it steady everywhere. -/
namespace MinimalistGrammar
namespace Formula

def Cut.behindText (s : Text) (found : Cut) : Cut := s.foldr Cut.behind found

@[simp] theorem Cut.behindText_nil (found : Cut) : found.behindText [] = found := rfl

@[simp] theorem Cut.behindText_cons (c : CodePoint) (s : Text) (found : Cut) :
    found.behindText (c :: s) = (found.behindText s).behind c := rfl

@[simp] theorem Cut.behindText_append (s t : Text) (found : Cut) :
    found.behindText (s ++ t) = (found.behindText t).behindText s := List.foldr_append

@[simp] theorem Cut.behindText_whole (s : Text) : whole.behindText s = whole := by
  induction s with
  | nil => rfl
  | cons c s ih =>
    rw [behindText_cons, ih]
    rfl

@[simp] theorem Cut.behindText_conjunction (s left right : Text) :
    (conjunction left right).behindText s = conjunction (s ++ left) right := by
  induction s with
  | nil => rfl
  | cons c s ih => rw [behindText_cons, ih, behind, List.cons_append]

/-- Both scans pass over the text if at least so many brackets are open before it. -/
structure IsSteady (least : Nat) (s : Text) : Prop where
  cut_append : ∀ depth ≥ least, ∀ rest,
    cut .outside depth (s ++ rest) = (cut .outside depth rest).behindText s
  staysOpen_append : ∀ depth ≥ least, 0 < depth → ∀ rest,
    staysOpen? .outside depth (s ++ rest) = staysOpen? .outside depth rest

variable {least : Nat} {s t : Text}

theorem IsSteady.mono (h : IsSteady least s) {least' : Nat} (hle : least ≤ least') :
    IsSteady least' s where
  cut_append depth hd := h.cut_append depth (by omega)
  staysOpen_append depth hd := h.staysOpen_append depth (by omega)

theorem isSteady_nil : IsSteady least [] where
  cut_append _ _ _ := rfl
  staysOpen_append _ _ _ _ := rfl

theorem IsSteady.append (hs : IsSteady least s) (ht : IsSteady least t) :
    IsSteady least (s ++ t) where
  cut_append depth hd rest := by
    rw [List.append_assoc, hs.cut_append depth hd, ht.cut_append depth hd, Cut.behindText_append]
  staysOpen_append depth hd hpos rest := by
    rw [List.append_assoc, hs.staysOpen_append depth hd hpos, ht.staysOpen_append depth hd hpos]

/-- Behind a part that both scans pass over, a conjunction is found at once. -/
theorem IsSteady.cut_ampersand (hs : IsSteady 0 s) (t : Text) :
    cut .outside 0 (s ++ .char '&' :: t) = .conjunction s t := by
  have hcut : cut .outside 0 (.char '&' :: t) = .conjunction [] t := by simp [cut, isClosing]
  rw [hs.cut_append 0 (Nat.le_refl 0), hcut, Cut.behindText_conjunction, List.append_nil]

theorem isSteady_char {c : CodePoint} (hc : ¬isReserved c) : IsSteady least [c] := by
  simp only [isReserved, Bool.or_eq_true, decide_eq_true_eq, not_or] at hc
  obtain ⟨⟨⟨⟨⟨ho, hc⟩, hlt⟩, hgt⟩, hamp⟩, hq⟩ := hc
  constructor
  · intro depth _ rest
    simp [cut, depthAfter, isOpening, isClosing, *]
  · intro depth _ hpos rest
    have hne : depth ≠ 0 := by omega
    simp [staysOpen?, depthAfter, isOpening, isClosing, *]

theorem isSteady_of_not_reserved (h : ∀ c ∈ s, ¬isReserved c) : IsSteady least s := by
  induction s with
  | nil => exact isSteady_nil
  | cons c s ih =>
    have hc : IsSteady least [c] := isSteady_char (h c List.mem_cons_self)
    exact hc.append (ih fun d hd => h d (List.mem_cons_of_mem c hd))

/-- Between brackets a conjunction is passed over. -/
theorem isSteady_ampersand : IsSteady 1 [.char '&'] where
  cut_append depth hd rest := by
    have hne : depth ≠ 0 := by omega
    simp [cut, depthAfter, isOpening, isClosing, hne]
  staysOpen_append depth hd hpos rest := by
    have hne : depth ≠ 0 := by omega
    simp [staysOpen?, depthAfter, isOpening, isClosing, hne]

inductive IsBracketPair : CodePoint → CodePoint → Prop where
  | round : IsBracketPair (.char '(') (.char ')')
  | angle : IsBracketPair (.char '<') (.char '>')

theorem isSteady_enclose {opening closing : CodePoint} (hb : IsBracketPair opening closing)
    (hs : IsSteady 1 s) : IsSteady 0 (Text.enclose opening closing s) := by
  have happ (rest : Text) : Text.enclose opening closing s ++ rest =
      opening :: (s ++ closing :: rest) := by simp [Text.enclose]
  constructor
  · intro depth _ rest
    have hinner := hs.cut_append (depth + 1) (by omega) (closing :: rest)
    rw [happ]
    cases hb <;>
      simpa [cut, depthAfter, isOpening, isClosing, Text.enclose] using congrArg _ hinner
  · intro depth _ hpos rest
    have hinner := hs.staysOpen_append (depth + 1) (by omega) (by omega) (closing :: rest)
    have hne : depth ≠ 0 := by omega
    rw [happ]
    cases hb <;>
      simp [staysOpen?, depthAfter, isOpening, isClosing, hinner, hne]

/-- A form that a name has between quotes. Before a quote or a backslash there must be a backslash,
before any other character there may be one. -/
inductive Escapes : Text → Text → Prop where
  | nil : Escapes [] []
  | plain {c : CodePoint} {s name : Text} (hq : c ≠ '"') (hb : c ≠ '\\') (h : Escapes s name) :
      Escapes (c :: s) (c :: name)
  | escaped {c : CodePoint} {s name : Text} (h : Escapes s name) :
      Escapes (.char '\\' :: c :: s) (c :: name)

theorem escapes_escapeName (name : Text) : Escapes (escapeName name) name := by
  induction name with
  | nil => exact .nil
  | cons c s ih =>
    by_cases h : c = '"' ∨ c = '\\'
    · rw [escapeName, if_pos h]
      exact .escaped ih
    · rw [escapeName, if_neg h]
      obtain ⟨hq, hb⟩ := not_or.mp h
      exact .plain hq hb ih

theorem readQuoted?_of_escapes {s name : Text} (h : Escapes s name) :
    readQuoted? (s ++ [.char '"']) = some name := by
  induction h with
  | nil => rfl
  | @plain c s name hq hb _ ih =>
    rw [List.cons_append, readQuoted?.eq_5 _ _ hq (by simp) (by simp [hb]), ih]
    rfl
  | @escaped c s name _ ih => simp [readQuoted?, ih]

theorem cut_of_escapes {s name : Text} (h : Escapes s name) (depth : Nat) (rest : Text) :
    cut .inside depth (s ++ .char '"' :: rest) =
      (cut .outside depth rest).behindText (s ++ [.char '"']) := by
  induction h with
  | nil => simp [cut, Place.next]
  | plain hq hb _ ih => simp [cut, Place.next, hq, hb, ih]
  | escaped _ ih => simp [cut, Place.next, ih]

theorem staysOpen?_of_escapes {s name : Text} (h : Escapes s name) (depth : Nat) (rest : Text) :
    staysOpen? .inside depth (s ++ .char '"' :: rest) = staysOpen? .outside depth rest := by
  induction h with
  | nil => simp [staysOpen?, Place.next]
  | plain hq hb _ ih => simp [staysOpen?, Place.next, hq, hb, ih]
  | escaped _ ih => simp [staysOpen?, Place.next, ih]

theorem isSteady_quoted {s name : Text} (h : Escapes s name) :
    IsSteady 0 (Text.enclose '"' '"' s) := by
  constructor
  · intro depth _ rest
    have hinner := cut_of_escapes h depth rest
    simpa [Text.enclose, cut] using congrArg (Cut.behind (.char '"')) hinner
  · intro depth _ _ rest
    have hinner := staysOpen?_of_escapes h depth rest
    simpa [Text.enclose, staysOpen?] using hinner

end Formula
end MinimalistGrammar
