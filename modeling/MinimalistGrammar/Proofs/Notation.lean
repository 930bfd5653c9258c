import MinimalistGrammar.Proofs.Numeral
import MinimalistGrammar.Proofs.Scanning
import MinimalistGrammar.Proofs.Trimming

/-! The notation of formulas as a grammar: which texts denote which formula. The formula of every text
that denotes one is read from it. -/
namespace MinimalistGrammar
namespace Formula

inductive SpellsRole : Text → Operator → Prop where
  | internal : SpellsRole "int" .internal
  | indexed {s : Text} {index : Int} (h : SpellsIndex s index) :
      SpellsRole ("int_" ++ s) (.indexed index)
  | external : SpellsRole "ext" .external

/-- A text that stands for the constant of its own name: it is trimmed, has no reserved character, and
is neither a quantifier nor a variable. -/
structure IsBareName (s : Text) : Prop where
  isSolid : Text.IsSolid s
  not_reserved : ∀ c ∈ s, ¬isReserved c
  ne_existential : s ≠ existential
  ne_universal : s ≠ universal
  ne_variable : ∀ digits index, SpellsIndex digits index → s ≠ "x_" ++ digits

/-- An atom is no conjunction and has no blanks around it; a text is any other. -/
inductive Level where
  | atom
  | text
  deriving DecidableEq, Repr

/-- A text denotes a formula, read at a level. -/
inductive Denotes : Level → Text → Formula → Prop where
  | brackets {s : Text} {f : Formula} (h : Denotes .text s f) :
      Denotes .atom (Text.enclose '(' ')' s) f
  | close {s : Text} {f : Formula} (h : Denotes .text s f) (hs : Text.trim s ≠ []) :
      Denotes .atom (Text.enclose '<' '>' s) (.close f)
  | role {name s : Text} {role : Operator} {f : Formula} (hr : SpellsRole name role)
      (h : Denotes .text s f) (hs : Text.trim s ≠ []) :
      Denotes .atom (name ++ Text.enclose '(' ')' s) (role.apply f)
  | quoted {s name : Text} (h : Escapes s name) :
      Denotes .atom (Text.enclose '"' '"' s) (.const name)
  | var {s : Text} {index : Int} (h : SpellsIndex s index) : Denotes .atom ("x_" ++ s) (.var index)
  | existential : Denotes .atom existential (.quantifier existential)
  | universal : Denotes .atom universal (.quantifier universal)
  | bare {s : Text} (h : IsBareName s) : Denotes .atom s (.const s)
  | blank {s : Text} (h : Text.IsBlanks s) : Denotes .text s (.const [])
  | trimmed {b s a : Text} {f : Formula} (hb : Text.IsBlanks b) (h : Denotes .atom s f)
      (ha : Text.IsBlanks a) : Denotes .text (b ++ s ++ a) f
  | and {b s a t : Text} {f g : Formula} (hb : Text.IsBlanks b) (h : Denotes .atom s f)
      (ha : Text.IsBlanks a) (hg : Denotes .text t g) (ht : Text.trim t ≠ []) :
      Denotes .text (b ++ s ++ a ++ .char '&' :: t) (.and f g)

/-- With so many brackets open, a text of the level is steady. -/
def Level.leastDepth : Level → Nat
  | atom => 0
  | text => 1

theorem SpellsRole.not_reserved {name : Text} {role : Operator} (h : SpellsRole name role) :
    ∀ c ∈ name, ¬isReserved c := by
  cases h with
  | internal => decide
  | indexed h =>
    intro c hc
    rcases List.mem_append.mp hc with hc | hc
    · exact (by decide : ∀ c ∈ Text.ofString "int_", ¬isReserved c) c hc
    · exact h.not_reserved c hc
  | external => decide

theorem not_isReserved_of_isBlank {c : CodePoint} (h : Text.isBlank c) : ¬isReserved c := by
  simp only [isReserved, Bool.or_eq_true, decide_eq_true_eq]
  rintro (((((rfl | rfl) | rfl) | rfl) | rfl) | rfl) <;> exact absurd h (by decide)

theorem isSteady_blanks {s : Text} (h : Text.IsBlanks s) {least : Nat} : IsSteady least s :=
  isSteady_of_not_reserved fun c hc => not_isReserved_of_isBlank (h c hc)

/-- Neither scan stops inside an atom, nor inside a text between brackets. -/
theorem Denotes.isSteady {level : Level} {s : Text} {f : Formula} (h : Denotes level s f) :
    IsSteady level.leastDepth s := by
  induction h with
  | brackets _ ih => exact isSteady_enclose .round ih
  | close _ _ ih => exact isSteady_enclose .angle ih
  | role hr _ _ ih =>
    exact (isSteady_of_not_reserved hr.not_reserved).append (isSteady_enclose .round ih)
  | quoted h => exact isSteady_quoted h
  | var h =>
    have hx : IsSteady 0 (Text.ofString "x_") := isSteady_of_not_reserved (by decide)
    exact hx.append (isSteady_of_not_reserved h.not_reserved)
  | existential => exact isSteady_of_not_reserved (by decide)
  | universal => exact isSteady_of_not_reserved (by decide)
  | bare h => exact isSteady_of_not_reserved h.not_reserved
  | blank h => exact isSteady_blanks h
  | @trimmed b s a f hb _ ha ih =>
    have hs : IsSteady 1 s := ih.mono (Nat.zero_le 1)
    exact ((isSteady_blanks hb).append hs).append (isSteady_blanks ha)
  | @and b s a t f g hb _ ha _ _ ih iht =>
    have hs : IsSteady 1 s := ih.mono (Nat.zero_le 1)
    have hleft := ((isSteady_blanks hb).append hs).append (isSteady_blanks ha)
    exact hleft.append (isSteady_ampersand.append iht)

theorem isSolid_char {c : CodePoint} (hc : ¬Text.isBlank c) : Text.IsSolid [c] :=
  Text.isSolid_of_all (List.cons_ne_nil c []) (by simpa using hc)

theorem Denotes.isSolid {s : Text} {f : Formula} (h : Denotes .atom s f) : Text.IsSolid s := by
  cases h with
  | brackets => exact Text.isSolid_enclose (by decide) (by decide) _
  | close => exact Text.isSolid_enclose (by decide) (by decide) _
  | role hr =>
    have hend (t : Text) : Text.IsSolid (Text.enclose '(' ')' t) :=
      Text.isSolid_enclose (by decide) (by decide) t
    cases hr with
    | internal => exact Text.isSolid_append (isSolid_char (by decide)) (hend _) _
    | indexed _ => exact Text.isSolid_append (isSolid_char (by decide)) (hend _) _
    | external => exact Text.isSolid_append (isSolid_char (by decide)) (hend _) _
  | quoted => exact Text.isSolid_enclose (by decide) (by decide) _
  | var h =>
    have hdigits := Text.isSolid_of_all h.ne_nil h.not_blank
    exact Text.isSolid_append (isSolid_char (by decide)) hdigits _
  | existential => exact ⟨by decide, by decide, by decide⟩
  | universal => exact ⟨by decide, by decide, by decide⟩
  | bare h => exact h.isSolid

theorem Denotes.append_text {b s : Text} {f : Formula} (hb : Text.IsBlanks b)
    (h : Denotes .text s f) : Denotes .text (b ++ s) f := by
  cases h with
  | blank h => exact .blank (Text.isBlanks_append.mpr ⟨hb, h⟩)
  | trimmed hb' h ha =>
    rw [← List.append_assoc, ← List.append_assoc]
    exact .trimmed (Text.isBlanks_append.mpr ⟨hb, hb'⟩) h ha
  | and hb' h ha hg ht =>
    rw [← List.append_assoc, ← List.append_assoc, ← List.append_assoc]
    exact .and (Text.isBlanks_append.mpr ⟨hb, hb'⟩) h ha hg ht

theorem Denotes.toText {level : Level} {s : Text} {f : Formula} (h : Denotes level s f) :
    Denotes .text s f := by
  cases level with
  | atom => simpa using Denotes.trimmed Text.isBlanks_nil h Text.isBlanks_nil
  | text => exact h

theorem Denotes.text_append {s a : Text} {f : Formula} (h : Denotes .text s f)
    (ha : Text.IsBlanks a) : Denotes .text (s ++ a) f := by
  generalize hl : Level.text = level at h
  induction h with
  | blank h => exact .blank (Text.isBlanks_append.mpr ⟨h, ha⟩)
  | trimmed hb h ha' =>
    rw [List.append_assoc]
    exact .trimmed hb h (Text.isBlanks_append.mpr ⟨ha', ha⟩)
  | @and b s a' t f g hb h ha' hg ht _ ih =>
    have htrim : Text.trim (t ++ a) ≠ [] := by
      rw [ne_eq, Text.trim_eq_nil_iff, Text.isBlanks_append, ← Text.trim_eq_nil_iff]
      exact fun hblanks => ht hblanks.1
    rw [List.append_assoc, List.cons_append]
    exact .and hb h ha' (ih rfl) htrim
  | _ => cases hl

theorem Denotes.of_trim {s : Text} {f : Formula} (h : Denotes .text (Text.trim s) f) :
    Denotes .text s f := by
  obtain ⟨b, a, hb, ha, hs⟩ := Text.exists_append_trim_append s
  rw [hs]
  exact (h.append_text hb).text_append ha

/-! The cases of the reader. -/

theorem read_congr {s t : Text} (h : Text.trim s = Text.trim t) : read s = read t := by
  rw [read.eq_def s, read.eq_def t, h]

theorem read_blanks {s : Text} (hs : Text.IsBlanks s) : read s = .ok (.const []) := by
  rw [read, dif_pos (Text.trim_eq_nil_iff.mpr hs)]
  rfl

theorem read_brackets {s : Text} (hs : Text.IsSolid s) (hw : isWrapped? '(' ')' s = some true) :
    read s = read (inner s) := by
  rw [read, hs.trim_eq, dif_neg hs.ne_nil, hw]

theorem read_conjunction {s left right : Text} {f g : Formula} (hs : Text.IsSolid s)
    (hw : isWrapped? '(' ')' s = some false) (hc : cut .outside 0 s = .conjunction left right)
    (hleft : Text.trim left ≠ []) (hright : Text.trim right ≠ [])
    (hf : read left = .ok f) (hg : read right = .ok g) : read s = .ok (.and f g) := by
  rw [read, hs.trim_eq, dif_neg hs.ne_nil, hw]
  dsimp only
  split <;> rename_i he <;> rw [hc] at he <;> cases he
  rw [if_neg (not_or.mpr ⟨hleft, hright⟩), hf, hg]
  rfl

theorem read_operator {s operand : Text} {operator : Operator} {f : Formula} (hs : Text.IsSolid s)
    (hw : isWrapped? '(' ')' s = some false) (hc : cut .outside 0 s = .whole)
    (ho : splitOperator? s = some (operator, operand)) (hoperand : Text.trim operand ≠ [])
    (hf : read operand = .ok f) : read s = .ok (operator.apply f) := by
  rw [read, hs.trim_eq, dif_neg hs.ne_nil, hw]
  dsimp only
  split <;> rename_i he <;> rw [hc] at he <;> cases he
  split
  · rename_i heq
    rw [ho] at heq
    cases heq
    rw [if_neg hoperand, hf]
    rfl
  · rename_i heq
    rw [ho] at heq
    cases heq

theorem read_name {s : Text} (hs : Text.IsSolid s) (hw : isWrapped? '(' ')' s = some false)
    (hc : cut .outside 0 s = .whole) (ho : splitOperator? s = none) : read s = readName s := by
  rw [read, hs.trim_eq, dif_neg hs.ne_nil, hw]
  dsimp only
  split <;> rename_i he <;> rw [hc] at he <;> cases he
  split
  · rename_i heq
    rw [ho] at heq
    cases heq
  · rfl

@[simp] theorem inner_enclose (opening closing : CodePoint) (s : Text) :
    inner (Text.enclose opening closing s) = s := by simp [inner, Text.enclose]

theorem isWrapped?_of_head? {opening closing : CodePoint} {s : Text} (h : s.head? ≠ some opening) :
    isWrapped? opening closing s = some false := if_neg fun he => h he.1

theorem isWrapped?_enclose {opening closing : CodePoint} (hb : IsBracketPair opening closing)
    {s : Text} (hs : IsSteady 1 s) :
    isWrapped? opening closing (Text.enclose opening closing s) = some true := by
  have hlast : (Text.enclose opening closing s).getLast? = some closing := by
    simp [Text.enclose, List.getLast?_cons]
  have hinner := hs.staysOpen_append 1 (by omega) (by omega) [closing]
  rw [isWrapped?, if_pos ⟨rfl, hlast⟩, Text.enclose]
  cases hb <;> simp [staysOpen?, depthAfter, isOpening, isClosing, hinner]

/-- The first bracket closes before the last one if something stands behind it. -/
theorem isWrapped?_enclose_append {s rest : Text} (hs : IsSteady 1 s) (hrest : rest ≠ []) :
    isWrapped? '(' ')' (Text.enclose '(' ')' s ++ rest) = some false := by
  have hinner := hs.staysOpen_append 1 (by omega) (by omega) (.char ')' :: rest)
  have happ : Text.enclose '(' ')' s ++ rest = .char '(' :: (s ++ .char ')' :: rest) := by
    simp [Text.enclose]
  have hclosed : staysOpen? .outside 0 (.char '(' :: (s ++ .char ')' :: rest)) = some false := by
    simp [staysOpen?, depthAfter, isOpening, isClosing, hinner, hrest]
  rw [happ, isWrapped?, hclosed, ite_self]

theorem head?_of_spellsRole {name : Text} {role : Operator} (h : SpellsRole name role) (t : Text) :
    (name ++ t).head? = some (.char 'i') ∨ (name ++ t).head? = some (.char 'e') := by
  cases h with
  | internal => exact .inl rfl
  | indexed _ => exact .inl rfl
  | external => exact .inr rfl

theorem head?_ne_of_not_reserved {s : Text} (h : ∀ c ∈ s, ¬isReserved c) {c : CodePoint}
    (hc : isReserved c) : s.head? ≠ some c := by
  intro he
  exact h c (List.mem_of_mem_head? he) hc

/-- In front of more text, an atom is not wrapped in brackets that reach to the end. -/
theorem Denotes.isWrapped?_append {s : Text} {f : Formula} (h : Denotes .atom s f) {rest : Text}
    (hrest : rest ≠ []) : isWrapped? '(' ')' (s ++ rest) = some false := by
  have happ : (s ++ rest).head? = s.head? := List.head?_append_of_ne_nil s h.isSolid.ne_nil
  cases h with
  | brackets h => exact isWrapped?_enclose_append h.isSteady hrest
  | role hr =>
    refine isWrapped?_of_head? ?_
    rw [happ]
    rcases head?_of_spellsRole hr _ with he | he <;> rw [he] <;> decide
  | bare h =>
    refine isWrapped?_of_head? ?_
    rw [happ]
    exact head?_ne_of_not_reserved h.not_reserved (by decide)
  | _ =>
    refine isWrapped?_of_head? ?_
    rw [happ]
    exact fun he => nomatch he

theorem Denotes.cut_eq_whole {s : Text} {f : Formula} (h : Denotes .atom s f) :
    cut .outside 0 s = .whole := by
  have hs := h.isSteady.cut_append 0 (Nat.le_refl 0) []
  rwa [List.append_nil, cut, if_pos rfl, Cut.behindText_whole] at hs

theorem splitRole?_append {name : Text} {role : Operator} (h : SpellsRole name role) (s : Text) :
    splitRole? (name ++ Text.enclose '(' ')' s) = some (role, Text.enclose '(' ')' s) := by
  cases h with
  | internal => rfl
  | @indexed digits index h =>
    have hindex : splitIndex? (digits ++ Text.enclose '(' ')' s) =
        some (index, Text.enclose '(' ')' s) := by
      refine splitIndex?_append h fun c hc => ?_
      cases hc
      decide
    rw [splitRole?, List.append_assoc, Text.after?_append]
    simp only [hindex, Option.map_some]
  | external => rfl

theorem exists_of_splitRole? {s rest : Text} {role : Operator}
    (h : splitRole? s = some (role, rest)) : ∃ name, SpellsRole name role ∧ s = name ++ rest := by
  unfold splitRole? at h
  split at h
  · rename_i s' _ hs
    obtain ⟨⟨index, r⟩, hr, he⟩ := Option.map_eq_some_iff.mp h
    cases he
    obtain ⟨digits, hd, rfl⟩ := exists_of_splitIndex? hr
    exact ⟨_, .indexed hd, by rw [Text.eq_append_of_after? hs, List.append_assoc]⟩
  · rename_i hs
    cases h
    exact ⟨_, .internal, Text.eq_append_of_after? hs⟩
  · obtain ⟨r, hs, he⟩ := Option.map_eq_some_iff.mp h
    cases he
    exact ⟨_, .external, Text.eq_append_of_after? hs⟩

theorem splitOperator?_of_not_reserved {s : Text} (h : ∀ c ∈ s, ¬isReserved c) :
    splitOperator? s = none := by
  have hangle : isWrapped? '<' '>' s = some false :=
    isWrapped?_of_head? (head?_ne_of_not_reserved h (by decide))
  rw [splitOperator?, hangle, if_neg (by simp)]
  split
  · rename_i role rest hr
    obtain ⟨name, -, rfl⟩ := exists_of_splitRole? hr
    have hrest : ∀ c ∈ rest, ¬isReserved c := fun c hc => h c (List.mem_append_right name hc)
    rw [isWrapped?_of_head? (head?_ne_of_not_reserved hrest (by decide)), if_neg (by simp)]
  · rfl

theorem splitOperator?_quoted (s : Text) : splitOperator? (Text.enclose '"' '"' s) = none := by
  have hangle : isWrapped? '<' '>' (Text.enclose '"' '"' s) = some false :=
    isWrapped?_of_head? fun he => nomatch he
  rw [splitOperator?, hangle]
  rfl

theorem readName_quoted {s name : Text} (h : Escapes s name) :
    readName (Text.enclose '"' '"' s) = .ok (.const name) := by
  have hhead : (Text.enclose '"' '"' s).head? = some (.char '"') := rfl
  have htail : (Text.enclose '"' '"' s).tail = s ++ [.char '"'] := rfl
  rw [readName, if_pos hhead, htail, readQuoted?_of_escapes h]

theorem readName_var {s : Text} {index : Int} (h : SpellsIndex s index) :
    readName ("x_" ++ s) = .ok (.var index) := by
  have hindex : readVariable? ("x_" ++ s) = some index := readVariable?_eq_some_iff.mpr ⟨s, h, rfl⟩
  have hquote : (Text.ofString "x_" ++ s).head? ≠ some (.char '"') := fun he => nomatch he
  rw [readName, hindex, if_neg hquote]

theorem readName_bare {s : Text} (h : IsBareName s) : readName s = .ok (.const s) := by
  have hquote : s.head? ≠ some (.char '"') := head?_ne_of_not_reserved h.not_reserved (by decide)
  have hindex : readVariable? s = none := by
    refine Option.eq_none_iff_forall_ne_some.mpr fun index hv => ?_
    obtain ⟨digits, hd, he⟩ := readVariable?_eq_some_iff.mp hv
    exact h.ne_variable digits index hd he
  have hreserved : ¬s.any isReserved := by
    simpa using h.not_reserved
  rw [readName, hindex, if_neg hquote]
  simp only [if_neg h.ne_existential, if_neg h.ne_universal, if_neg hreserved]

theorem read_of_denotes_name {s : Text} {f : Formula} (h : Denotes .atom s f)
    (hw : isWrapped? '(' ')' s = some false) (ho : splitOperator? s = none)
    (hn : readName s = .ok f) : read s = .ok f := by
  rw [read_name h.isSolid hw h.cut_eq_whole ho, hn]

theorem read_of_denotes_and {b s a t : Text} {f g : Formula} (hb : Text.IsBlanks b)
    (h : Denotes .atom s f) (ha : Text.IsBlanks a) (ht : Text.trim t ≠ []) (hf : read s = .ok f)
    (hg : read t = .ok g) : read (b ++ s ++ a ++ .char '&' :: t) = .ok (.and f g) := by
  have htrim : Text.trim (b ++ s ++ a ++ .char '&' :: t) =
      s ++ a ++ .char '&' :: Text.trimEnd t := by
    rw [Text.trim, List.append_assoc b, List.append_assoc b, Text.trimStart_append hb,
      List.append_assoc s, h.isSolid.trimStart_append, ← List.append_assoc,
      Text.trimEnd_append_cons (by decide)]
  have hne : Text.trim (b ++ s ++ a ++ .char '&' :: t) ≠ [] := by
    rw [htrim]
    exact List.append_ne_nil_of_right_ne_nil _ (List.cons_ne_nil _ _)
  have hsolid : Text.IsSolid (s ++ a ++ .char '&' :: Text.trimEnd t) :=
    htrim ▸ Text.isSolid_trim hne
  have hw : isWrapped? '(' ')' (s ++ a ++ .char '&' :: Text.trimEnd t) = some false := by
    rw [List.append_assoc]
    exact h.isWrapped?_append (by simp)
  have hc : cut .outside 0 (s ++ a ++ .char '&' :: Text.trimEnd t) =
      .conjunction (s ++ a) (Text.trimEnd t) := by
    have hleft : IsSteady 0 (s ++ a) := h.isSteady.append (isSteady_blanks ha)
    exact hleft.cut_ampersand _
  have hleft : Text.trim (s ++ a) = s := Text.trim_append_append Text.isBlanks_nil h.isSolid ha
  have hright : Text.trim (Text.trimEnd t) = Text.trim t := Text.trim_trimEnd t
  rw [read_congr (htrim.trans hsolid.trim_eq.symm)]
  refine read_conjunction hsolid hw hc ?_ ?_ ?_ ?_
  · rw [hleft]
    exact h.isSolid.ne_nil
  · rwa [hright]
  · rw [read_congr (hleft.trans h.isSolid.trim_eq.symm), hf]
  · rw [read_congr hright, hg]

theorem read_of_denotes {level : Level} {s : Text} {f : Formula} (h : Denotes level s f) :
    read s = .ok f := by
  induction h with
  | @brackets s f h ih =>
    have hatom := Denotes.brackets h
    rw [read_brackets hatom.isSolid (isWrapped?_enclose .round h.isSteady), inner_enclose, ih]
  | @close s f h hs ih =>
    have hatom := Denotes.close h hs
    have hw : isWrapped? '(' ')' (Text.enclose '<' '>' s) = some false :=
      isWrapped?_of_head? fun he => nomatch he
    have ho : splitOperator? (Text.enclose '<' '>' s) = some (.close, s) := by
      rw [splitOperator?, if_pos (isWrapped?_enclose .angle h.isSteady), inner_enclose]
    exact read_operator hatom.isSolid hw hatom.cut_eq_whole ho hs ih
  | @role name s role f hr h hs ih =>
    have hatom := Denotes.role hr h hs
    have hhead := head?_of_spellsRole hr (Text.enclose '(' ')' s)
    have hw : isWrapped? '(' ')' (name ++ Text.enclose '(' ')' s) = some false := by
      refine isWrapped?_of_head? ?_
      rcases hhead with he | he <;> rw [he] <;> decide
    have hangle : isWrapped? '<' '>' (name ++ Text.enclose '(' ')' s) = some false := by
      refine isWrapped?_of_head? ?_
      rcases hhead with he | he <;> rw [he] <;> decide
    have ho : splitOperator? (name ++ Text.enclose '(' ')' s) = some (role, s) := by
      rw [splitOperator?, hangle, if_neg (by simp), splitRole?_append hr]
      simp only [if_pos (isWrapped?_enclose .round h.isSteady), inner_enclose]
    exact read_operator hatom.isSolid hw hatom.cut_eq_whole ho hs ih
  | quoted h =>
    exact read_of_denotes_name (.quoted h) (isWrapped?_of_head? fun he => nomatch he)
      (splitOperator?_quoted _) (readName_quoted h)
  | @var s index h =>
    have hreserved : ∀ c ∈ Text.ofString "x_" ++ s, ¬isReserved c :=
      List.forall_mem_append.mpr ⟨by decide, h.not_reserved⟩
    exact read_of_denotes_name (.var h) (isWrapped?_of_head? fun he => nomatch he)
      (splitOperator?_of_not_reserved hreserved) (readName_var h)
  | existential =>
    exact read_of_denotes_name .existential (by decide) (by decide) rfl
  | universal =>
    exact read_of_denotes_name .universal (by decide) (by decide) rfl
  | bare h =>
    exact read_of_denotes_name (.bare h)
      (isWrapped?_of_head? (head?_ne_of_not_reserved h.not_reserved (by decide)))
      (splitOperator?_of_not_reserved h.not_reserved) (readName_bare h)
  | blank h => exact read_blanks h
  | @trimmed b s a f hb h ha ih =>
    have htrim : Text.trim (b ++ s ++ a) = Text.trim s := by
      rw [Text.trim_append_append hb h.isSolid ha, h.isSolid.trim_eq]
    rw [read_congr htrim, ih]
  | @and b s a t f g hb h ha hg ht ih iht =>
    exact read_of_denotes_and hb h ha ht ih iht

end Formula
end MinimalistGrammar
