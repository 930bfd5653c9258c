import MinimalistGrammar.Model.Basic
import MinimalistGrammar.Text.Integer

/-! Assignments as a user writes them: an index, an equals sign, and an entity. -/
namespace MinimalistGrammar

inductive AssignmentError where
  | form (text : Text)
  | index (text : Text)
  | notAnEntity (index : Int) (name : Text)
  deriving DecidableEq, Repr

def AssignmentError.message : AssignmentError → Text
  | form text => "Invalid assignment " ++ quoted text ++ ". Expected 'I=ENTITY'."
  | index text => "Invalid assignment index in " ++ quoted text ++ "."
  | notAnEntity i name =>
    "Cannot assign x_" ++ Text.ofInt i ++ ": " ++ quoted name ++ " is not an entity."

structure Assignment where
  index : Int
  entity : Text
  deriving DecidableEq, Repr

namespace Assignment

/-- The index stands before the first equals sign, the entity behind it. -/
def ofText (text : Text) : Except AssignmentError Assignment :=
  let before := text.takeWhile (· ≠ .char '=')
  match text.dropWhile (· ≠ .char '=') with
  | [] => .error (.form text)
  | _ :: after =>
    if Text.trim after = [] then .error (.form text)
    else
      match Text.readInteger? (Text.trim before) with
      | none => .error (.index text)
      | some index => .ok ⟨index, Text.trim after⟩

end Assignment

namespace Model

def assignText (m : Model) (text : Text) : Except AssignmentError Model := do
  let a ← Assignment.ofText text
  if m.isEntity (.text a.entity) then return m.assign a.index (.text a.entity)
  else throw (.notAnEntity a.index a.entity)

/-- Assignments one after the other; a later one for the same index counts. -/
def assignAll (m : Model) (texts : List Text) : Except AssignmentError Model :=
  texts.foldlM assignText m

end Model
end MinimalistGrammar
