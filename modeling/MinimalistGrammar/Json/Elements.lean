import MinimalistGrammar.Json.Double

/-! JSON values taken for collections: a text counts as the list of its characters and an object as
the list of its keys. -/
namespace MinimalistGrammar
namespace Json

/-- The members of a collection; other values are none. -/
def elements? : Json → Option (List Json)
  | .arr items => some items
  | .str s => some (s.map fun c => .str [c])
  | .obj members => some (members.map fun m => .str m.1)
  | _ => none

def text? : Json → Option Text
  | .str s => some s
  | _ => none

def scalar? : Json → Option Scalar
  | .scalar value => some value
  | _ => none

/-- Nothing, no, zero, or a collection without members. -/
def isEmpty : Json → Bool
  | .null => true
  | .bool value => !value
  | .int value => value = 0
  | .decimal (.finite _ digits exponent) => Double.ofDecimal digits exponent = .zero
  | .decimal _ => false
  | .str s => s = []
  | .arr items => items.isEmpty
  | .obj members => members.isEmpty

end Json
end MinimalistGrammar
