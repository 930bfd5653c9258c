import MinimalistGrammar.Collection.SortedSet
import MinimalistGrammar.Json.Display

/-! Names as documents give them: texts as a rule, though any scalar may stand for one. Numbers of
one value are one name, and so are a truth value and the number zero or one. -/
namespace MinimalistGrammar

abbrev Name := Json.Scalar

namespace Name

/-- What a name is compared by: the kind of value that it is, then a number, then a text. -/
structure Key where
  rank : Nat
  number : Int
  text : Text
  deriving DecidableEq, Repr

/-- The smallest double is one of as many equal parts of one. -/
def partsOfOne : Nat := Nat.pow 2 1074

/-- The key of a double. -/
def doubleKey (negative : Bool) : Json.Double → Key
  | .infinite => ⟨if negative then 2 else 4, 0, []⟩
  | .finite mantissa exponent =>
    let parts : Int := mantissa * Nat.pow 2 (exponent - Json.Double.lowestExponent).toNat
    ⟨3, if negative then -parts else parts, []⟩

def key : Name → Key
  | .null => ⟨0, 0, []⟩
  | .decimal .notANumber => ⟨1, 0, []⟩
  | .decimal (.infinite negative) => doubleKey negative .infinite
  | .decimal (.finite negative digits exponent) =>
    doubleKey negative (Json.Double.ofDecimal digits exponent)
  | .bool value => ⟨3, if value then partsOfOne else 0, []⟩
  | .int value => ⟨3, value * partsOfOne, []⟩
  | .text value => ⟨5, 0, value⟩

def rank (name : Name) : Nat := (key name).rank

/-- By kind, then numbers by value and texts by code points. -/
instance : Ord Name :=
  ⟨compareLex (compareOn (·.key.rank))
    (compareLex (compareOn (·.key.number)) (compareOn (·.key.text)))⟩

instance : Std.TransOrd Name :=
  inferInstanceAs (Std.TransCmp (compareLex (compareOn (fun n : Name => n.key.rank))
    (compareLex (compareOn (fun n : Name => n.key.number))
      (compareOn (fun n : Name => n.key.text)))))

/-- Two names are one. -/
def same (a b : Name) : Bool := compare a b = .eq

theorem same_iff {a b : Name} : same a b ↔ key a = key b := by
  have h : same a b ↔ compareLex (compareOn fun n : Name => n.key.rank)
      (compareLex (compareOn fun n : Name => n.key.number) (compareOn fun n : Name => n.key.text))
      a b = .eq := decide_eq_true_iff
  rw [h, compareLex_eq_eq, compareLex_eq_eq]
  simp only [compareOn, Std.LawfulEqCmp.compare_eq_iff_eq]
  cases key a
  cases key b
  simp

@[simp] theorem same_self (a : Name) : same a a := same_iff.mpr rfl

@[simp] theorem same_text {s t : Text} : same (.text s) (.text t) ↔ s = t := by
  rw [same_iff]
  simp [key]

theorem same_comm {a b : Name} : same a b ↔ same b a := by
  rw [same_iff, same_iff, eq_comm]

/-- Nothing else than a text is one name with a text. -/
theorem same_text_iff {name : Name} {s : Text} : same name (.text s) ↔ name = .text s := by
  rw [same_iff]
  constructor
  · intro h
    have hrank : (key name).rank = 5 := by
      rw [h]
      rfl
    cases name with
    | text t => simpa [key] using h
    | decimal d =>
      cases d with
      | finite negative digits exponent =>
        simp only [key] at hrank
        unfold doubleKey at hrank
        split at hrank
        · cases negative <;> cases hrank
        · cases hrank
      | infinite negative => cases negative <;> cases hrank
      | notANumber => cases hrank
    | null => cases hrank
    | bool value => cases hrank
    | int value => cases hrank
  · rintro rfl
    rfl

/-- Names without those that come again. -/
def distinct (names : List Name) : List Name := names.eraseDupsBy same

/-- Equality as a test on two values, which holds of nothing that is not a number. -/
def equals (a b : Name) : Bool := same a b && rank a ≠ 1

def isText : Name → Bool
  | .text _ => true
  | _ => false

def isNumber (name : Name) : Bool := 1 ≤ rank name && rank name ≤ 4

/-- Names have an order among each other if they are all texts or all numbers. -/
def haveOrder (names : List Name) : Bool :=
  names.length ≤ 1 || names.all isText || names.all isNumber

end Name

/-- The text that a name is, if it is one. -/
def Json.Scalar.text? : Json.Scalar → Option Text
  | .text value => some value
  | _ => none

end MinimalistGrammar
