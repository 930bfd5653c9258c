import MinimalistGrammar.Text.CodePoint

/-! Documents in JSON as values. -/
namespace MinimalistGrammar

/-- A number written with a fraction or an exponent, or one of the three words for values that no
digits denote. -/
inductive Json.Decimal where
  /-- The digits, read as one natural number, times ten to the exponent. -/
  | finite (negative : Bool) (digits : Nat) (exponent : Int)
  | infinite (negative : Bool)
  | notANumber
  deriving DecidableEq, Repr

/-- A value without parts. -/
inductive Json.Scalar where
  | null
  | bool (value : Bool)
  | int (value : Int)
  | decimal (value : Json.Decimal)
  | text (value : Text)
  deriving DecidableEq, Repr

/-- The members of an object keep their order, and no two have the same key. -/
inductive Json where
  | scalar (value : Json.Scalar)
  | arr (items : List Json)
  | obj (members : List (Text × Json))
  deriving Repr

namespace Json

@[match_pattern] abbrev null : Json := scalar .null

@[match_pattern] abbrev bool (value : Bool) : Json := scalar (.bool value)

@[match_pattern] abbrev int (value : Int) : Json := scalar (.int value)

@[match_pattern] abbrev decimal (value : Decimal) : Json := scalar (.decimal value)

@[match_pattern] abbrev str (value : Text) : Json := scalar (.text value)

instance : Inhabited Json := ⟨null⟩

mutual
/-- Documents are equal if they are written alike. -/
def decideEq : (a b : Json) → Decidable (a = b)
  | scalar v, scalar w => decidable_of_iff (v = w) (by simp)
  | arr items, arr items' =>
    match decideEqItems items items' with
    | isTrue h => isTrue (by rw [h])
    | isFalse h => isFalse (by intro he; cases he; exact h rfl)
  | obj members, obj members' =>
    match decideEqMembers members members' with
    | isTrue h => isTrue (by rw [h])
    | isFalse h => isFalse (by intro he; cases he; exact h rfl)
  | scalar _, arr _ => isFalse nofun
  | scalar _, obj _ => isFalse nofun
  | arr _, scalar _ => isFalse nofun
  | arr _, obj _ => isFalse nofun
  | obj _, scalar _ => isFalse nofun
  | obj _, arr _ => isFalse nofun

def decideEqItems : (a b : List Json) → Decidable (a = b)
  | [], [] => isTrue rfl
  | [], _ :: _ => isFalse nofun
  | _ :: _, [] => isFalse nofun
  | a :: as, b :: bs =>
    match decideEq a b, decideEqItems as bs with
    | isTrue h, isTrue hs => isTrue (by rw [h, hs])
    | isFalse h, _ => isFalse (by intro he; cases he; exact h rfl)
    | _, isFalse hs => isFalse (by intro he; cases he; exact hs rfl)

def decideEqMembers : (a b : List (Text × Json)) → Decidable (a = b)
  | [], [] => isTrue rfl
  | [], _ :: _ => isFalse nofun
  | _ :: _, [] => isFalse nofun
  | (key, a) :: as, (key', b) :: bs =>
    if hk : key = key' then
      match decideEq a b, decideEqMembers as bs with
      | isTrue h, isTrue hs => isTrue (by rw [hk, h, hs])
      | isFalse h, _ => isFalse (by intro he; cases he; exact h rfl)
      | _, isFalse hs => isFalse (by intro he; cases he; exact hs rfl)
    else isFalse (by intro he; cases he; exact hk rfl)
end

instance : DecidableEq Json := decideEq

/-- Of two members with one key the later value counts, in the place of the earlier. -/
def putMember (key : Text) (value : Json) : List (Text × Json) → List (Text × Json)
  | [] => [(key, value)]
  | m :: rest => if m.1 = key then (key, value) :: rest else m :: putMember key value rest

def member? (members : List (Text × Json)) (key : Text) : Option Json :=
  (members.find? (·.1 = key)).map (·.2)

def strings (items : List Text) : Json := .arr (items.map .str)

end Json
end MinimalistGrammar
