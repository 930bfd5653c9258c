import MinimalistGrammar.Json.Basic

/-! Logical forms: conjunctions of monadic predicates of entities and events, with theta roles,
existential closure over events, and quantifiers that are formulas of their own. -/
namespace MinimalistGrammar

inductive Formula where
  | const (name : Text)
  | var (index : Int)
  /-- The internal role of an event: borne by something that satisfies the operand. -/
  | internal (operand : Formula)
  /-- An internal role that still waits for the variable it will bind. -/
  | indexed (index : Int) (operand : Formula)
  /-- The external role of an event. -/
  | external (operand : Formula)
  | and (left right : Formula)
  /-- Existential closure over events. -/
  | close (operand : Formula)
  | quantifier (kind : Text)
  /-- What stands in the place of a formula and is none. It can only be shown. -/
  | foreign (value : Json)
  deriving DecidableEq, Repr

namespace Formula

/-- The quantifier that asks for one witness. -/
def existential : Text := "some"

/-- The quantifier that asks for all. -/
def universal : Text := "every"

/-- The first conjunct, found by going left. -/
def first : Formula → Formula
  | and left _ => left.first
  | f => f

/-- The last conjunct, found by going right. -/
def last : Formula → Formula
  | and _ right => right.last
  | f => f

/-- A phrase takes scope if its first conjunct is a quantifier. -/
def isQuantificational (f : Formula) : Bool :=
  match f.first with
  | quantifier _ => true
  | _ => false

/-- The index of the role that stands last. -/
def boundIndex? (f : Formula) : Option Int :=
  match f.last with
  | indexed index _ => some index
  | _ => none

end Formula
end MinimalistGrammar
