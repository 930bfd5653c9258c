import MinimalistGrammar.Json.Elements
import MinimalistGrammar.Model.Basic

/-! Models from the description of their parts, which is checked part after part. -/
namespace MinimalistGrammar

/-- Why something describes no model. -/
inductive ModelError where
  /-- What should be an object is none. -/
  | notAnObject
  /-- A part of the document has a type that cannot stand there. -/
  | wrongType
  /-- An object stands in the place of a pair. -/
  | keyedPair
  | indexText (text : Text)
  | pair (relation : Text) (value : Json)
  | pairLength (length : Nat)
  | indexKey (key : Name)
  | notAnEntity (index : Int) (value : Json)

/-- The message, for the errors that have one. Of a text that is no integer at most two hundred
characters are shown. -/
def ModelError.message? : ModelError → Option Text
  | notAnObject => none
  | wrongType => none
  | keyedPair => none
  | indexText text => some ("Assignment indices must be integers: " ++
      "invalid literal for int() with base 10: " ++ (quoted text).take 200)
  | pair relation value => some ("Relation " ++ quoted relation ++
      ": expected [event, entity], got " ++ value.display)
  | pairLength length => some (
      if 2 < length then "too many values to unpack (expected 2)"
      else "not enough values to unpack (expected 2, got " ++ Text.ofNat length ++ ")")
  | indexKey key => some ("Assignment index " ++ key.display ++ " is not an integer.")
  | notAnEntity index value => some ("Assignment x_" ++ Text.ofInt index ++ " -> " ++
      value.display ++ ": not an entity of the model.")

/-- The parts of a model before they are checked, each of which may still be any value. -/
structure ModelDescription where
  entities : Json := .arr []
  events : Json := .arr []
  assignments : List (Name × Json) := []
  predicates : Json := .null
  relations : Json := .null

namespace Model

/-- The members of a collection. -/
def readElements (value : Json) : Except ModelError (List Json) :=
  value.elements?.elim (.error .wrongType) .ok

def readName (value : Json) : Except ModelError Name :=
  value.scalar?.elim (.error .wrongType) .ok

def readNames (value : Json) : Except ModelError (List Name) := do
  (← readElements value).mapM readName

/-- A key has one value: the last one, in the place of the first. -/
def putAssignment (key : Name) (value : Json) : List (Name × Json) → List (Name × Json)
  | [] => [(key, value)]
  | a :: rest => if Name.same a.1 key then (a.1, value) :: rest else a :: putAssignment key value rest

/-- The members of an object, for which anything empty stands as well. -/
def readMembers : Json → Except ModelError (List (Text × Json))
  | .obj members => .ok members
  | value => if value.isEmpty then .ok [] else .error .notAnObject

def readPredicate (predicate : Text × Json) : Except ModelError (Text × SortedSet Name) := do
  return (predicate.1, .ofList (← readNames predicate.2))

/-- A pair of an event and an entity. -/
def readParticipation (pair : Json) : Except ModelError Participation := do
  match ← readElements pair with
  | [event, bearer] => return ⟨← readName event, ← readName bearer⟩
  | parts => throw (.pairLength parts.length)

def readRelation (relation : Text × Json) :
    Except ModelError (Text × SortedSet Participation) := do
  return (relation.1, .ofList (← (← readElements relation.2).mapM readParticipation))

/-- The number of an index. -/
def index? : Name → Option Int
  | .int index => some index
  | .bool value => some (if value then 1 else 0)
  | _ => none

/-- An index must be a number, and its value an entity. -/
def readAssignment (entities : List Name) (a : Name × Json) : Except ModelError (Int × Name) :=
  match index? a.1, a.2 with
  | none, _ => .error (.indexKey a.1)
  | some index, .scalar name =>
    if entities.any (Name.same name) then .ok (index, name) else .error (.notAnEntity index a.2)
  | some index, value => .error (.notAnEntity index value)

/-- The model that a description describes; names that are repeated count once. -/
def ofDescription (d : ModelDescription) : Except ModelError Model := do
  let entities := Name.distinct (← readNames d.entities)
  let events := Name.distinct (← readNames d.events)
  let predicates ← (← readMembers d.predicates).mapM readPredicate
  let relations ← (← readMembers d.relations).mapM readRelation
  let assignments := d.assignments.foldl (fun done a => putAssignment a.1 a.2 done) []
  let read ← assignments.mapM (readAssignment entities)
  return {
    entities, events
    assignments := .ofList read
    predicates := .ofList predicates
    relations := .ofList relations }

end Model
end MinimalistGrammar
