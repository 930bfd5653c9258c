/-! Texts as lists of code points. A code point is a character or one half of a surrogate pair that
stands alone: an escape in a document can name such a half, though no encoded file can hold it. -/
namespace MinimalistGrammar

inductive CodePoint where
  | char (c : Char)
  /-- A half of a pair, counted from the first one. -/
  | half (offset : Fin 0x800)
  deriving DecidableEq, Repr

namespace CodePoint

instance : Coe Char CodePoint := ⟨char⟩

instance : Inhabited CodePoint := ⟨char ' '⟩

def toNat : CodePoint → Nat
  | char c => c.toNat
  | half offset => 0xd800 + offset

/-- A half, if the number is one of those between the characters. -/
def ofNat (n : Nat) : CodePoint :=
  if h : n - 0xd800 < 0x800 ∧ 0xd800 ≤ n then half ⟨n - 0xd800, h.1⟩ else char (Char.ofNat n)

def isHalf : CodePoint → Bool
  | char _ => false
  | half _ => true

theorem toNat_ne_half (c : Char) (offset : Fin 0x800) : c.toNat ≠ 0xd800 + offset := by
  have hc : c.toNat < 0xd800 ∨ 0xdfff < c.toNat ∧ c.toNat < 0x110000 := c.valid
  have := offset.isLt
  omega

@[simp] theorem toNat_inj {a b : CodePoint} : a.toNat = b.toNat ↔ a = b := by
  constructor
  · intro h
    match a, b with
    | char c, char d => rw [Char.toNat_inj.mp h]
    | half i, half j =>
      have : (i : Nat) = j := Nat.add_left_cancel h
      rw [Fin.ext this]
    | char c, half j => exact absurd h (toNat_ne_half c j)
    | half i, char d => exact absurd h.symm (toNat_ne_half d i)
  · rintro rfl
    rfl

instance : Ord CodePoint := ⟨compareOn toNat⟩

instance : Std.TransOrd CodePoint := inferInstanceAs (Std.TransCmp (compareOn toNat))

instance : Std.LawfulEqOrd CodePoint where
  eq_of_compare h := toNat_inj.mp (Std.LawfulEqOrd.eq_of_compare (α := Nat) h)

end CodePoint

/-- Texts are ordered by their code points. -/
abbrev Text := List CodePoint

instance : LawfulBEq Text := inferInstanceAs (LawfulBEq (List CodePoint))

namespace Text

def ofString (s : String) : Text := s.toList.map .char

instance : Coe String Text := ⟨ofString⟩

/-- The text as characters, with a mark in the place of a half. -/
def printed (s : Text) : String :=
  String.ofList (s.map fun
    | .char c => c
    | .half _ => '\ufffd')

/-- The texts one after the other, with a separator between each two. -/
def join (separator : Text) (items : List Text) : Text := separator.intercalate items

theorem join_cons_cons (separator item next : Text) (items : List Text) :
    join separator (item :: next :: items) = item ++ separator ++ join separator (next :: items) :=
  List.intercalate_cons_cons

def ofNat (n : Nat) : Text := (Nat.toDigits 10 n).map .char

/-- The text with small letters for the capital letters from A to Z. -/
def lowerCase (s : Text) : Text :=
  s.map fun
    | .char c => .char c.toLower
    | c => c

/-- The text between two marks. -/
def enclose (opening closing : CodePoint) (s : Text) : Text := opening :: (s ++ [closing])

/-- What is left of a text after a word at its beginning. -/
def after? (word s : Text) : Option Text :=
  if word.isPrefixOf s then some (s.drop word.length) else none

@[simp] theorem after?_append (word s : Text) : after? word (word ++ s) = some s := by
  simp [after?]

theorem eq_append_of_after? {word s rest : Text} (h : after? word s = some rest) :
    s = word ++ rest := by
  unfold after? at h
  split at h
  · rename_i hp
    obtain ⟨t, rfl⟩ := List.isPrefixOf_iff_prefix.mp hp
    simp_all
  · cases h

theorem length_after?_lt {word s rest : Text} (hw : word ≠ []) (h : after? word s = some rest) :
    rest.length < s.length := by
  have := List.length_pos_iff.mpr hw
  rw [eq_append_of_after? h, List.length_append]
  omega

/-- The parts of a text between the occurrences of a code point. -/
def splitOn (c : CodePoint) (s : Text) : List Text := s.splitOnP (· = c)

end Text
end MinimalistGrammar
