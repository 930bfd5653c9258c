import MinimalistGrammar.Text.Blank
import MinimalistGrammar.Text.Digit

/-! Integers in decimal: how they are written, and what is read as one. -/
namespace MinimalistGrammar
namespace Text

/-- The shortest decimal form, with a minus sign before a negative number. -/
def ofInt (i : Int) : Text := if i < 0 then '-' :: ofNat i.natAbs else ofNat i.natAbs

/-- Groups of digits with one underscore between each two of them. -/
def readNatural? (s : Text) : Option Nat :=
  let groups := s.splitOn '_'
  if groups.all fun g => g ≠ [] && g.all isDigit then some (digitsValue 0 groups.flatten) else none

/-- The blanks that may stand around an integer; the information separators are not among them. -/
def isIntegerBlank (c : CodePoint) : Bool :=
  isBlank c && !(0x1c ≤ c.toNat && c.toNat ≤ 0x1f)

/-- The text without the blanks that may stand around an integer. -/
def trimInteger (s : Text) : Text :=
  ((s.dropWhile isIntegerBlank).reverse.dropWhile isIntegerBlank).reverse

/-- Blanks at the ends are ignored, and one sign may stand before the digits. -/
def readInteger? (s : Text) : Option Int :=
  match trimInteger s with
  | .char '+' :: digits => (readNatural? digits).map Int.ofNat
  | .char '-' :: digits => (readNatural? digits).map fun n => -(n : Int)
  | digits => (readNatural? digits).map Int.ofNat

end Text

end MinimalistGrammar
