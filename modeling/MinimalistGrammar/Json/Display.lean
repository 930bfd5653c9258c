import MinimalistGrammar.Text.Integer
import MinimalistGrammar.Text.Quoted
import MinimalistGrammar.Json.Double

/-! JSON values as messages show them, which is not how documents write them: the three words begin
with a capital, texts are quoted for a message, and decimals are shown as the nearest double. -/
namespace MinimalistGrammar
namespace Json
namespace Decimal

/-- Digits with the point after as many of them as `point` says. -/
def positional (digits : Text) (point : Int) : Text :=
  if point ≤ 0 then "0." ++ List.replicate point.natAbs (CodePoint.char '0') ++ digits
  else
    let padded := digits ++ List.replicate (point.toNat - digits.length) (CodePoint.char '0')
    let fraction := padded.drop point.toNat
    padded.take point.toNat ++ "." ++ if fraction = [] then ("0" : Text) else fraction

/-- One digit before the point, and an exponent of at least two digits. -/
def scientific (digits : Text) (point : Int) : Text :=
  let e := point - 1
  let size := Text.ofNat e.natAbs
  let mantissa : Text := match digits with
    | [d] => [d]
    | d :: rest => d :: '.' :: rest
    | [] => []
  mantissa ++ (if e < 0 then "e-" else "e+") ++ (if size.length < 2 then "0" else "") ++ size

/-- The digits of a double, positional from a ten-thousandth up to ten to the sixteenth, with an
exponent beyond. -/
def displayMagnitude (digits : Nat) (exponent : Int) : Text :=
  match Double.ofDecimal digits exponent with
  | .infinite => "inf"
  | .finite 0 _ => "0.0"
  | .finite _ _ =>
    let (digits, exponent) := Double.shortest digits exponent
    let all := Text.ofNat digits
    let point := all.length + exponent
    let shown := (all.reverse.dropWhile (· = .char '0')).reverse
    if -4 < point ∧ point ≤ 16 then positional shown point else scientific shown point

def signText (negative : Bool) : Text := if negative then "-" else ""

def display : Decimal → Text
  | .notANumber => "nan"
  | .infinite negative => signText negative ++ "inf"
  | .finite negative digits exponent => signText negative ++ displayMagnitude digits exponent

end Decimal

/-- The value as a message shows it. -/
def Scalar.display : Scalar → Text
  | .null => "None"
  | .bool value => if value then "True" else "False"
  | .int value => Text.ofInt value
  | .decimal value => value.display
  | .text value => quoted value

mutual
/-- The value as a message shows it. -/
def display : Json → Text
  | .scalar value => value.display
  | .arr items => bracketed (displayItems items)
  | .obj members => Text.enclose '\x7b' '\x7d' (Text.join ", " (displayMembers members))

def displayItems : List Json → List Text
  | [] => []
  | item :: rest => item.display :: displayItems rest

def displayMembers : List (Text × Json) → List Text
  | [] => []
  | (key, value) :: rest => (quoted key ++ ": " ++ value.display) :: displayMembers rest
end

/-- The value as it stands in running text, where a text is not quoted. -/
def Scalar.plain : Scalar → Text
  | .text value => value
  | value => value.display

/-- The value as it stands in running text, where a text is not quoted. -/
def plain : Json → Text
  | .scalar value => value.plain
  | value => value.display

end Json
end MinimalistGrammar
