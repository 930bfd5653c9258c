import MinimalistGrammar.Text.Digit
import MinimalistGrammar.Json.Basic

/-! Reading JSON documents. A document that is none is refused with the cause and the place. -/
namespace MinimalistGrammar
namespace Json

inductive Fault where
  | byteOrderMark
  | value
  | propertyName
  | colon
  | comma
  | extraData
  | unterminatedString
  | control
  | escape
  | unicodeEscape
  deriving DecidableEq, Repr

def Fault.message : Fault → Text
  | .byteOrderMark => "Unexpected UTF-8 BOM (decode using utf-8-sig)"
  | .value => "Expecting value"
  | .propertyName => "Expecting property name enclosed in double quotes"
  | .colon => "Expecting ':' delimiter"
  | .comma => "Expecting ',' delimiter"
  | .extraData => "Extra data"
  | .unterminatedString => "Unterminated string starting at"
  | .control => "Invalid control character at"
  | .escape => "Invalid \\escape"
  | .unicodeEscape => "Invalid \\uXXXX escape"

/-- A fault and how much of the text is left at the place of it. -/
structure Failure where
  fault : Fault
  left : Nat

/-- A fault and the place of it: the number of characters before it, and its line and column,
both counted from one. -/
structure ReadError where
  fault : Fault
  line : Nat
  column : Nat
  offset : Nat
  deriving DecidableEq, Repr

def ReadError.message (e : ReadError) : Text :=
  e.fault.message ++ ": line " ++ Text.ofNat e.line ++ " column " ++ Text.ofNat e.column ++
    " (char " ++ Text.ofNat e.offset ++ ")"

def Failure.locate (text : Text) (failure : Failure) : ReadError :=
  let offset := text.length - failure.left
  let before := text.take offset
  let column := (before.reverse.takeWhile (· ≠ .char '\n')).length + 1
  ⟨failure.fault, before.count (.char '\n') + 1, column, offset⟩

def fail {α : Type} (fault : Fault) (place : Text) : Except Failure α :=
  .error ⟨fault, place.length⟩

def isSpace (c : CodePoint) : Bool := c = ' ' || c = '\t' || c = '\n' || c = '\r'

def skipSpace (s : Text) : Text := s.dropWhile isSpace

def hexValue? (c : CodePoint) : Option Nat :=
  let n := c.toNat
  if 0x30 ≤ n ∧ n ≤ 0x39 then some (n - 0x30)
  else if 0x61 ≤ n ∧ n ≤ 0x66 then some (n - 0x61 + 10)
  else if 0x41 ≤ n ∧ n ≤ 0x46 then some (n - 0x41 + 10)
  else none

def hexNumber? (digits : Text) : Option Nat :=
  digits.foldlM (fun n c => (hexValue? c).map (16 * n + ·)) 0

/-- What one character after a backslash stands for. -/
def escaped? (c : CodePoint) : Option CodePoint :=
  match c with
  | .char '"' => some '"'
  | .char '\\' => some '\\'
  | .char '/' => some '/'
  | .char 'b' => some '\x08'
  | .char 'f' => some '\x0c'
  | .char 'n' => some '\n'
  | .char 'r' => some '\r'
  | .char 't' => some '\t'
  | _ => none

/-- The code unit in the four characters after a backslash and a `u`, which may not end the text. -/
def codeUnit? (s : Text) : Option Nat :=
  if s.length ≤ 4 then none else hexNumber? (s.take 4)

/-- The code point of an escaped code unit, or of two that make a pair, and the text after it. -/
def readUnits (s : Text) : Except Failure (CodePoint × Text) :=
  match codeUnit? s with
  | none => .error ⟨.unicodeEscape, s.length + 1⟩
  | some unit =>
    let rest := s.drop 4
    match rest with
    | .char '\\' :: .char 'u' :: after =>
      if 0xd800 ≤ unit ∧ unit < 0xdc00 ∧ 4 < after.length then
        match hexNumber? (after.take 4) with
        | none => .error ⟨.unicodeEscape, after.length + 1⟩
        | some low =>
          if 0xdc00 ≤ low ∧ low < 0xe000 then
            .ok (CodePoint.ofNat (0x10000 + (unit - 0xd800) * 0x400 + (low - 0xdc00)), after.drop 4)
          else .ok (CodePoint.ofNat unit, rest)
      else .ok (CodePoint.ofNat unit, rest)
    | _ => .ok (CodePoint.ofNat unit, rest)

/-- The text up to the next quote, and what is left after it. The first argument bounds the length
of the text, the second is what is left at the opening quote. -/
def readString (opening : Nat) : Nat → Text → Text → Except Failure (Text × Text)
  | 0, _, _ => .error ⟨.unterminatedString, opening⟩
  | bound + 1, done, s =>
    match s with
    | [] => .error ⟨.unterminatedString, opening⟩
    | .char '"' :: rest => .ok (done.reverse, rest)
    | [.char '\\'] => .error ⟨.unterminatedString, opening⟩
    | .char '\\' :: .char 'u' :: rest => do
      let (c, rest) ← readUnits rest
      readString opening bound (c :: done) rest
    | .char '\\' :: c :: rest =>
      match escaped? c with
      | some c => readString opening bound (c :: done) rest
      | none => .error ⟨.escape, s.length⟩
    | c :: rest =>
      if c.toNat < 0x20 then .error ⟨.control, s.length⟩
      else readString opening bound (c :: done) rest

def isAsciiDigit (c : CodePoint) : Bool := 0x30 ≤ c.toNat && c.toNat ≤ 0x39

/-- The digits of the whole part: a zero alone, or digits of which the first is no zero. -/
def wholePart (s : Text) : Text :=
  match s with
  | .char '0' :: _ => "0"
  | s => s.takeWhile isAsciiDigit

/-- The digits after a point, if there is one with a digit behind it. -/
def fractionPart (s : Text) : Text :=
  match s with
  | .char '.' :: rest => rest.takeWhile isAsciiDigit
  | _ => []

/-- The exponent and the number of characters that write it, if there is one with a digit. -/
def exponentPart (s : Text) : Option (Int × Nat) :=
  let read (sign : Int) (skipped : Nat) (rest : Text) :=
    let digits := rest.takeWhile isAsciiDigit
    if digits = [] then none
    else some (sign * (Text.digitsValue 0 digits : Int), skipped + digits.length)
  match s with
  | e :: rest =>
    if e = 'e' ∨ e = 'E' then
      match rest with
      | .char '+' :: rest => read 1 2 rest
      | .char '-' :: rest => read (-1) 2 rest
      | rest => read 1 1 rest
    else none
  | [] => none

/-- A number without its sign, and what is left after it. -/
def readMagnitude? (negative : Bool) (s : Text) : Option (Json × Text) :=
  let whole := wholePart s
  if whole = [] then none
  else
    let s := s.drop whole.length
    let fraction := fractionPart s
    let s := if fraction = [] then s else s.drop (fraction.length + 1)
    let digits := Text.digitsValue 0 (whole ++ fraction)
    match fraction, exponentPart s with
    | [], none => some (.int (if negative then -(digits : Int) else digits), s)
    | _, none => some (.decimal (.finite negative digits (-(fraction.length : Int))), s)
    | _, some (exponent, length) =>
      some (.decimal (.finite negative digits (exponent - fraction.length)), s.drop length)

def readNumber? (s : Text) : Option (Json × Text) :=
  match s with
  | .char '-' :: rest => readMagnitude? true rest
  | s => readMagnitude? false s

/-- The words that are values. -/
def valueWords : List (Text × Json) :=
  [("null", .null), ("true", .bool true), ("false", .bool false), ("NaN", .decimal .notANumber),
    ("Infinity", .decimal (.infinite false)), ("-Infinity", .decimal (.infinite true))]

/-- A word or a number. -/
def readAtom (s : Text) : Except Failure (Json × Text) :=
  match valueWords.find? (·.1.isPrefixOf s) with
  | some (word, value) => .ok (value, s.drop word.length)
  | none => (readNumber? s).elim (fail .value s) .ok

/-- A key in quotes and the colon after it. -/
def readKey (s : Text) : Except Failure (Text × Text) :=
  match s with
  | .char '"' :: rest => do
    let (key, rest) ← readString s.length s.length [] rest
    match skipSpace rest with
    | .char ':' :: rest => .ok (key, skipSpace rest)
    | rest => fail .colon rest
  | s => fail .propertyName s

mutual
/-- One value at the beginning of a text. The first argument of the three readers bounds the calls
of one inside another; a level of brackets takes two. -/
def readValue : Nat → Text → Except Failure (Json × Text)
  | 0, s => fail .value s
  | bound + 1, s =>
    match s with
    | .char '"' :: rest => do
      let (value, rest) ← readString s.length s.length [] rest
      return (.str value, rest)
    | .char '[' :: rest =>
      match skipSpace rest with
      | .char ']' :: rest => .ok (.arr [], rest)
      | rest => readItems bound [] rest
    | .char '\x7b' :: rest =>
      match skipSpace rest with
      | .char '\x7d' :: rest => .ok (.obj [], rest)
      | rest => readMembers bound [] rest
    | s => readAtom s

/-- Items up to the closing bracket, after those that come in reverse. -/
def readItems : Nat → List Json → Text → Except Failure (Json × Text)
  | 0, _, s => fail .value s
  | bound + 1, done, s => do
    let (value, rest) ← readValue bound s
    match skipSpace rest with
    | .char ']' :: rest => return (.arr (value :: done).reverse, rest)
    | .char ',' :: rest => readItems bound (value :: done) (skipSpace rest)
    | rest => fail .comma rest

/-- Members up to the closing brace, after those that are read. -/
def readMembers : Nat → List (Text × Json) → Text → Except Failure (Json × Text)
  | 0, _, s => fail .value s
  | bound + 1, done, s => do
    let (key, rest) ← readKey s
    let (value, rest) ← readValue bound rest
    match skipSpace rest with
    | .char '\x7d' :: rest => return (.obj (putMember key value done), rest)
    | .char ',' :: rest => readMembers bound (putMember key value done) (skipSpace rest)
    | rest => fail .comma rest
end

/-- A whole document: one value with nothing but space around it. -/
def readDocument (s : Text) : Except Failure Json := do
  if s.head? = some (.char '\ufeff') then fail .byteOrderMark s
  let (value, rest) ← readValue (2 * s.length + 2) (skipSpace s)
  match skipSpace rest with
  | [] => return value
  | rest => fail .extraData rest

def read (text : Text) : Except ReadError Json :=
  (readDocument text).mapError (Failure.locate text)

end Json
end MinimalistGrammar
