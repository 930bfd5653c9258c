import MinimalistGrammar.Model.Description
import MinimalistGrammar.Text.Integer

/-! Models as JSON documents. -/
namespace MinimalistGrammar
namespace Model

def names (list : List Name) : Json := .arr (list.map .scalar)

/-- Every extension and every relation can be put in order. -/
def hasOrder (m : Model) : Bool :=
  m.predicates.entries.all (Name.haveOrder ·.2.elements) &&
    m.relations.entries.all (Participation.haveOrder ·.2.elements)

def assignmentsDocument (m : Model) : Json :=
  .obj (m.assignments.entries.map fun (i, e) => (Text.ofInt i, .scalar e))

/-- Sets, and everything that has a name or an index, are written in order. -/
def document (m : Model) : Json :=
  .obj [("entities", names m.entities), ("events", names m.events),
    ("assignments", m.assignmentsDocument),
    ("predicates", .obj (m.predicates.entries.map fun (name, s) => (name, names s.elements))),
    ("predicates2", .obj (m.relations.entries.map fun (name, s) =>
      (name, .arr (s.elements.map fun p => names [p.event, p.bearer]))))]

/-- The document of a model, if everything that has to be in order can be. -/
def toDocument? (m : Model) : Option Json := if m.hasOrder then some m.document else none

/-- The members of an object, which may be missing. -/
def decodeMembers (members : List (Text × Json)) (key : Text) :
    Except ModelError (List (Text × Json)) :=
  match Json.member? members key with
  | none => .ok []
  | some (.obj found) => .ok found
  | some _ => .error .notAnObject

/-- A pair, whose two parts may still be of any type. -/
def decodePair (relation : Text) (pair : Json) : Except ModelError Json :=
  match pair, pair.elements? with
  | _, none => .error .wrongType
  | .obj members, _ =>
    .error (if members.length = 2 then .keyedPair else .pair relation pair)
  | _, some parts => if parts.length = 2 then .ok (.arr parts) else .error (.pair relation pair)

def decodeIndex (entry : Text × Json) : Except ModelError (Name × Json) :=
  match Text.readInteger? entry.1 with
  | some index => .ok (.int index, entry.2)
  | none => .error (.indexText entry.1)

/-- A relation and its pairs. -/
def decodeRelation (entry : Text × Json) : Except ModelError (Text × Json) := do
  return (entry.1, .arr (← (← readElements entry.2).mapM (decodePair entry.1)))

/-- Indices and the number of parts of each pair are checked before names are. -/
def ofDocument : Json → Except ModelError Model
  | .obj members => do
    let part (key : Text) (missing : Json) := (Json.member? members key).getD missing
    ofDescription {
      assignments := ← (← decodeMembers members "assignments").mapM decodeIndex
      relations := .obj (← (← decodeMembers members "predicates2").mapM decodeRelation)
      entities := part "entities" (.arr [])
      events := part "events" (.arr [])
      predicates := part "predicates" (.obj []) }
  | _ => .error .notAnObject

end Model
end MinimalistGrammar
