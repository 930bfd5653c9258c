import MinimalistGrammar.Json.Basic

/-! Decimals as numbers of double precision: the double nearest to a decimal, and the shortest
decimal to which a double is the nearest one. -/
namespace MinimalistGrammar
namespace Json

/-- A double without its sign: a number of at most 53 bits times a power of two, or what is beyond
all of these. Only the lowest exponent goes with less than 53 bits. -/
inductive Double where
  | finite (mantissa : Nat) (exponent : Int)
  | infinite
  deriving DecidableEq, Repr

namespace Double

def lowestExponent : Int := -1074

def highestExponent : Int := 971

/-- The least number of 53 bits. -/
def leastFull : Nat := 0x10000000000000

def zero : Double := finite 0 lowestExponent

/-- The quotient as a natural number: the nearest one, or the even one of two that are as near. -/
def roundDiv (numerator denominator : Nat) : Nat :=
  let low := numerator / denominator
  let twice := 2 * (numerator % denominator)
  if twice < denominator ∨ twice = denominator ∧ low % 2 = 0 then low else low + 1

/-- A quotient times a power of a base, as numerator and denominator. -/
def scaled (numerator denominator base : Nat) (power : Int) : Nat × Nat :=
  (numerator * Nat.pow base power.toNat, denominator * Nat.pow base (-power).toNat)

/-- The exponent that leaves 53 bits of a positive quotient, if it is not too low. -/
def exponentOf (numerator denominator : Nat) : Int :=
  let high := (numerator.log2 : Int) - denominator.log2 - 52
  let (n, d) := scaled numerator denominator 2 (-high)
  max lowestExponent (if n / d < leastFull then high - 1 else high)

/-- The double nearest to a positive quotient. -/
def ofQuotient (numerator denominator : Nat) : Double :=
  let exponent := exponentOf numerator denominator
  let (n, d) := scaled numerator denominator 2 (-exponent)
  let mantissa := roundDiv n d
  let (mantissa, exponent) :=
    if mantissa = 2 * leastFull then (leastFull, exponent + 1) else (mantissa, exponent)
  if highestExponent < exponent then infinite else finite mantissa exponent

/-- The number of decimal digits. -/
def digitCount (n : Nat) : Nat := (Nat.toDigits 10 n).length

/-- The double nearest to a number times a power of ten. Far from one it is infinite or zero. -/
def ofDecimal (digits : Nat) (exponent : Int) : Double :=
  let point := digitCount digits + exponent
  if digits = 0 ∨ point < -400 then zero
  else if 400 < point then infinite
  else
    let (n, d) := scaled digits 1 10 exponent
    ofQuotient n d

/-- Of the two neighbours of a double among the multiples of a power of ten, the nearer one that has
this double nearest to it; the even one if both are as near. -/
def neighbour? (mantissa : Nat) (exponent power : Int) : Option (Nat × Int) :=
  let (n, d) := scaled mantissa 1 2 exponent
  let (n, d) := scaled n d 10 (-power)
  let low := n / d
  let nearer := roundDiv n d
  let farther := if nearer = low then low + 1 else low
  ([nearer, farther].find? fun k => ofDecimal k power = finite mantissa exponent).map (·, power)

/-- The fewest digits that have the same double nearest to them as the given ones. -/
def shortest (digits : Nat) (exponent : Int) : Nat × Int :=
  match ofDecimal digits exponent with
  | infinite => (digits, exponent)
  | finite mantissa binary =>
    let point := digitCount digits + exponent
    ((List.range 19).findSome? fun (k : Nat) => neighbour? mantissa binary (point - k)).getD
      (digits, exponent)

example : ofDecimal 5 (-324) = finite 1 (-1074) := by decide +kernel

example : shortest 12345678901234567890 (-20) = (12345678901234568, -17) := by decide +kernel

end Double
end Json
end MinimalistGrammar
