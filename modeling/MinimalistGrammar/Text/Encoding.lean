import MinimalistGrammar.Text.Quoted

/-! Texts as bytes. Every character has a form in UTF-8, and a half of a surrogate pair has none. Not
all bytes are the form of something. -/
namespace MinimalistGrammar
namespace Text

/-- The number of bytes of a character; a half that is written at all is one byte. -/
def byteSize : CodePoint → Nat
  | .half _ => 1
  | .char c => c.utf8Size

/-- The number of bytes of a text. -/
def size (s : Text) : Nat := s.foldl (fun n c => n + byteSize c) 0

end Text

/-- A run of halves that stand alone: the first of them, and the places of the run in the text. -/
structure EncodingError where
  first : CodePoint
  start : Nat
  length : Nat
  deriving DecidableEq, Repr

namespace EncodingError

/-- The first half that is not written as a byte of its own, with those that follow at once. -/
def find? (isByte : CodePoint → Bool) (s : Text) : Option EncodingError :=
  let fits (c : CodePoint) : Bool := !c.isHalf || isByte c
  match s.dropWhile fits with
  | [] => none
  | first :: rest =>
    some ⟨first, (s.takeWhile fits).length, 1 + (rest.takeWhile CodePoint.isHalf).length⟩

def message (e : EncodingError) : Text :=
  "'utf-8' codec can't encode " ++
    (if e.length = 1 then
      "character '" ++ Text.escapeNumber e.first.toNat ++ "' in position " ++ Text.ofNat e.start
    else
      "characters in position " ++ Text.ofNat e.start ++ "-" ++
        Text.ofNat (e.start + e.length - 1)) ++
    ": surrogates not allowed"

end EncodingError

inductive DecodingFault where
  | startByte
  | continuationByte
  | endOfData
  deriving DecidableEq, Repr

def DecodingFault.message : DecodingFault → Text
  | startByte => "invalid start byte"
  | continuationByte => "invalid continuation byte"
  | endOfData => "unexpected end of data"

/-- Bytes that are no character: the first of them, the place of it, and how many there are. -/
structure DecodingError where
  fault : DecodingFault
  first : UInt8
  start : Nat
  length : Nat
  deriving DecidableEq, Repr

/-- A character of which some bytes are read: the first of them and its place, how many are to come,
and the bounds of the next. -/
structure OpenCharacter where
  first : UInt8
  start : Nat
  owed : Nat
  low : UInt8 := 0x80
  high : UInt8 := 0xbf

namespace OpenCharacter

/-- What comes behind a first byte. A character has one form only, and halves have none. -/
def ofFirst? (start : Nat) (first : UInt8) : Option OpenCharacter :=
  if first < 0x80 then some { first, start, owed := 0 }
  else if first < 0xc2 then none
  else if first < 0xe0 then some { first, start, owed := 1 }
  else if first = 0xe0 then some { first, start, owed := 2, low := 0xa0 }
  else if first = 0xed then some { first, start, owed := 2, high := 0x9f }
  else if first < 0xf0 then some { first, start, owed := 2 }
  else if first = 0xf0 then some { first, start, owed := 3, low := 0x90 }
  else if first < 0xf4 then some { first, start, owed := 3 }
  else if first = 0xf4 then some { first, start, owed := 3, high := 0x8f }
  else none

def next? (c : OpenCharacter) (b : UInt8) : Option OpenCharacter :=
  if c.low ≤ b ∧ b ≤ c.high then some ⟨c.first, c.start, c.owed - 1, 0x80, 0xbf⟩ else none

/-- The error where the character does not go on. -/
def breakOff (c : OpenCharacter) (fault : DecodingFault) (position : Nat) : DecodingError :=
  ⟨fault, c.first, c.start, position - c.start⟩

end OpenCharacter

namespace DecodingError

/-- The first bytes that are no character, from a position on that may be within one. -/
def findFrom? (position : Nat) (begun? : Option OpenCharacter) : List UInt8 → Option DecodingError
  | [] => begun?.map (·.breakOff .endOfData position)
  | b :: bytes =>
    match begun?, begun?.elim (OpenCharacter.ofFirst? position b) (·.next? b) with
    | _, some c => findFrom? (position + 1) (if c.owed = 0 then none else some c) bytes
    | none, none => some ⟨.startByte, b, position, 1⟩
    | some c, none => some (c.breakOff .continuationByte position)

def find? (bytes : List UInt8) : Option DecodingError := findFrom? 0 none bytes

def message (e : DecodingError) : Text :=
  "'utf-8' codec can't decode " ++
    (if e.length = 1 then
      "byte 0x" ++ Text.hexDigits 2 e.first.toNat ++ " in position " ++ Text.ofNat e.start
    else
      "bytes in position " ++ Text.ofNat e.start ++ "-" ++ Text.ofNat (e.start + e.length - 1)) ++
    ": " ++ e.fault.message

end DecodingError
end MinimalistGrammar
