import MinimalistGrammar.Collection.SortedMap
import MinimalistGrammar.Name

/-! Finite models: entities and events, an assignment of entities to indices, the extensions of
monadic predicates, and relations between events and the entities that bear a role in them. -/
namespace MinimalistGrammar

/-- An entity bears some role in an event. -/
structure Participation where
  event : Name
  bearer : Name
  deriving DecidableEq, Repr

namespace Participation

/-- By event, then by bearer. -/
instance : Ord Participation := ⟨compareLex (compareOn event) (compareOn bearer)⟩

instance : Std.TransOrd Participation :=
  inferInstanceAs (Std.TransCmp (compareLex (compareOn event) (compareOn bearer)))

/-- Different pairs have an order among each other if their events do, each taken once, and so do
the bearers of each event. -/
def haveOrder (pairs : List Participation) : Bool :=
  Name.haveOrder (Name.distinct (pairs.map event)) &&
    pairs.all fun p =>
      Name.haveOrder ((pairs.filter fun q => Name.same p.event q.event).map bearer)

end Participation

/-- Entities and events keep the order in which they are first named. -/
structure Model where
  entities : List Name
  events : List Name
  assignments : SortedMap Int Name
  predicates : SortedMap Text (SortedSet Name)
  relations : SortedMap Text (SortedSet Participation)
  deriving DecidableEq

namespace Model

/-- The names of the two theta relations. -/
def internalRole : Text := "int"

def externalRole : Text := "ext"

instance : EmptyCollection Model := ⟨⟨[], [], ∅, ∅, ∅⟩⟩

instance : Inhabited Model := ⟨∅⟩

def isEntity (m : Model) (name : Name) : Bool := m.entities.any (Name.same name)

/-- The individual is in the extension of the predicate. -/
def satisfies (m : Model) (predicate : Text) (individual : Name) : Bool :=
  individual ∈ (m.predicates.find? predicate).getD ∅

def related (m : Model) (relation : Text) (event bearer : Name) : Bool :=
  ⟨event, bearer⟩ ∈ (m.relations.find? relation).getD (∅ : SortedSet Participation)

def assignment? (m : Model) (index : Int) : Option Name := m.assignments.find? index

/-- The model with one index bound anew. -/
def assign (m : Model) (index : Int) (entity : Name) : Model :=
  { m with assignments := m.assignments.insert index entity }

@[simp] theorem assignment?_assign (m : Model) (i j : Int) (e : Name) :
    (m.assign i e).assignment? j = if i = j then some e else m.assignment? j := by
  simp [assignment?, assign]

end Model
end MinimalistGrammar
