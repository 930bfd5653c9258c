import MinimalistGrammar.Json.Display
import MinimalistGrammar.Text.Encoding

/-! Writing JSON documents. Characters beyond ASCII stand for themselves. A document is written in
pieces, and a piece that cannot be encoded is not written. -/
namespace MinimalistGrammar
namespace Json

/-- What stands before an item at a given depth, and between a key and its value. -/
structure Layout where
  newline : Nat → Text
  colon : Text

/-- Everything on one line and no blanks. -/
def Layout.compact : Layout := ⟨fun _ => [], ":"⟩

/-- An item a line, each level two blanks deeper. -/
def Layout.indented : Layout :=
  ⟨fun level => '\n' :: List.replicate (2 * level) (.char ' '), ": "⟩

/-- Only the quote, the backslash and the controls below the space are escaped. -/
def escapeChar (c : CodePoint) : Text :=
  match c with
  | .char '"' => ['\\', '"']
  | .char '\\' => ['\\', '\\']
  | .char '\n' => ['\\', 'n']
  | .char '\r' => ['\\', 'r']
  | .char '\t' => ['\\', 't']
  | .char '\x08' => ['\\', 'b']
  | .char '\x0c' => ['\\', 'f']
  | c => if c.toNat < 0x20 then '\\' :: 'u' :: Text.hexDigits 4 c.toNat else [c]

def writeString (s : Text) : Text := Text.enclose '"' '"' (s.flatMap escapeChar)

/-- Numbers without digits are written as words, and so are those beyond the doubles. -/
def Decimal.write : Decimal → Text
  | .notANumber => "NaN"
  | .infinite negative => signText negative ++ "Infinity"
  | .finite negative digits exponent =>
    if Double.ofDecimal digits exponent = .infinite then signText negative ++ "Infinity"
    else signText negative ++ displayMagnitude digits exponent

def Scalar.write : Scalar → Text
  | .null => "null"
  | .bool value => if value then "true" else "false"
  | .int value => Text.ofInt value
  | .decimal value => value.write
  | .text value => writeString value

/-- A bracket or a comma, and what stands between it and the item after it. -/
def Layout.lead (layout : Layout) (level : Nat) (mark : CodePoint) : Text :=
  mark :: layout.newline level

/-- A key and the mark behind it, after what stands before them. -/
def Layout.keyPieces (layout : Layout) (before key : Text) : List Text :=
  [before, writeString key, layout.colon]

mutual
/-- The pieces of a document at a depth that the layout may show. A scalar is one piece with what
stands before it in a list. -/
def pieces (layout : Layout) (level : Nat) (before : Text) : Json → List Text
  | .scalar value => [before ++ value.write]
  | .arr [] => [before, "[]"]
  | .arr (item :: rest) =>
    [before] ++ item.pieces layout (level + 1) (layout.lead (level + 1) '[') ++
      itemPieces layout (level + 1) rest ++ [layout.newline level, "]"]
  | .obj [] => [before, "\x7b\x7d"]
  | .obj ((key, value) :: rest) =>
    [before] ++ layout.keyPieces (layout.lead (level + 1) '\x7b') key ++
      value.pieces layout (level + 1) [] ++ memberPieces layout (level + 1) rest ++
      [layout.newline level, "\x7d"]

/-- The items after the first, each behind a comma. -/
def itemPieces (layout : Layout) (level : Nat) : List Json → List Text
  | [] => []
  | item :: rest => item.pieces layout level (layout.lead level ',') ++ itemPieces layout level rest

/-- The members after the first, each behind a comma. -/
def memberPieces (layout : Layout) (level : Nat) : List (Text × Json) → List Text
  | [] => []
  | (key, value) :: rest =>
    layout.keyPieces (layout.lead level ',') key ++ value.pieces layout level [] ++
      memberPieces layout level rest
end

def compact (document : Json) : Text := (document.pieces .compact 0 []).flatten

def indented (document : Json) : Text := (document.pieces .indented 0 []).flatten

/-- Why a document cannot be written to a file: the place is counted in the piece that cannot. -/
def encodingError? (document : Json) : Option EncodingError :=
  (document.pieces .indented 0 []).findSome? (EncodingError.find? fun _ => false)

end Json
end MinimalistGrammar
