import MinimalistGrammar.Text.Printable

/-! Texts quoted for a message: between quote marks, with escapes for the mark, the backslash and
every code point that has no visible shape. -/
namespace MinimalistGrammar
namespace Text

/-- The last digits of a number in base sixteen, as many as are asked for. -/
def hexDigits : Nat → Nat → Text
  | 0, _ => []
  | width + 1, n => hexDigits width (n / 16) ++ [.char (Nat.digitChar (n % 16))]

/-- The apostrophe, unless the text holds one and no double quote. -/
def quoteMark (s : Text) : CodePoint :=
  if s.contains '\'' && !s.contains '"' then '"' else '\''

/-- The number of a code point behind a backslash and a letter that tells how long it is. -/
def escapeNumber (n : Nat) : Text :=
  if n ≤ 0xff then '\\' :: 'x' :: hexDigits 2 n
  else if n ≤ 0xffff then '\\' :: 'u' :: hexDigits 4 n
  else '\\' :: 'U' :: hexDigits 8 n

def escapeChar (mark c : CodePoint) : Text :=
  if c = '\\' ∨ c = mark then ['\\', c]
  else if c = '\n' then ['\\', 'n']
  else if c = '\r' then ['\\', 'r']
  else if c = '\t' then ['\\', 't']
  else if isPrintable c then [c]
  else escapeNumber c.toNat

/-- The text as characters, with the number of a half in its place. -/
def escaped (s : Text) : String :=
  printed (s.flatMap fun c => if c.isHalf then escapeNumber c.toNat else [c])

end Text

/-- The text as a message shows it, between quote marks. -/
def quoted (s : Text) : Text :=
  let mark := s.quoteMark
  Text.enclose mark mark (s.flatMap (Text.escapeChar mark))

/-- Items as a message shows a list of them. -/
def bracketed (items : List Text) : Text := Text.enclose '[' ']' (Text.join ", " items)

end MinimalistGrammar
