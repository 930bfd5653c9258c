import MinimalistGrammar.Formula.Printer
import MinimalistGrammar.Model.Basic

/-! Truth conditions of formulas in a finite model. A formula has a truth value through closure over
events or through a quantifier; other predicates hold of an individual or do not. Evaluation goes
from left to right and stops as soon as the result is known, and a formula that no derivation
produces is an error only where it is reached. -/
namespace MinimalistGrammar

/-- A formula may have one of the truth values, or hold of an individual. -/
inductive Value where
  | truth (value : Bool)
  | individual (name : Name)
  deriving DecidableEq, Repr

inductive EvaluationError where
  | indexedRole (role : Formula)
  | quantifiedIndividual (name : Name)
  | restrictor (kind : Text) (found : Formula)
  | unknownQuantifier (kind : Text)
  | variableTruth (index : Int)
  | unboundVariable (index : Int)
  /-- What was reached is no formula at all. -/
  | notAFormula
  deriving DecidableEq, Repr

/-- The message, for the errors of formulas. -/
def EvaluationError.message? : EvaluationError → Option Text
  | indexedRole role =>
    some (role.text ++ " outside a quantified conjunction has no interpretation")
  | quantifiedIndividual name => some ("Individual " ++ name.display ++ " cannot be quantified")
  | restrictor kind found =>
    some ("Quantifier " ++ quoted kind ++ " must restrict an indexed theta role, got " ++
      found.text)
  | unknownQuantifier kind => some ("Unknown quantifier " ++ quoted kind)
  | variableTruth index => some ("Variable x_" ++ Text.ofInt index ++ " has no truth value")
  | unboundVariable index => some ("Unbound variable x_" ++ Text.ofInt index)
  | notAFormula => none

namespace Model

/-- The first value for which a test holds, tests being made in order until one does. -/
def exists? {α ε : Type} (test : α → Except ε Bool) : List α → Except ε Bool
  | [] => .ok false
  | a :: rest => do if ← test a then .ok true else exists? test rest

/-- A test holds for all values, tests being made in order until one does not. -/
def forall? {α ε : Type} (test : α → Except ε Bool) : List α → Except ε Bool
  | [] => .ok true
  | a :: rest => do if ← test a then forall? test rest else .ok false

/-- The values for which a test holds; all are tested. -/
def filter? {α ε : Type} (test : α → Except ε Bool) : List α → Except ε (List α)
  | [] => .ok []
  | a :: rest => do
    let holds ← test a
    let others ← filter? test rest
    return if holds then a :: others else others

/-- A test at a truth value, from the test at true. -/
def atTruth {ε : Type} (value : Bool) (isTrue : Except ε Bool) : Except ε Bool :=
  if value then isTrue else isTrue.map (!·)

/-- A constant holds of what is in its extension, and of the entity of that name. -/
def constantHolds (m : Model) (name : Text) : Value → Bool
  | .truth _ => false
  | .individual e => m.satisfies name e || (Name.same e (.text name) && m.isEntity e)

def variableHolds (m : Model) (index : Int) : Value → Except EvaluationError Bool
  | .truth _ => .error (.variableTruth index)
  | .individual e =>
    match m.assignment? index with
    | some entity => .ok (Name.equals entity e)
    | none => .error (.unboundVariable index)

/-- A role holds of an event if some bearer of it satisfies a test. -/
def roleHolds {ε : Type} (m : Model) (relation : Text) (test : Name → Except ε Bool)
    (event : Name) : Except ε Bool :=
  exists? (fun bearer => if m.related relation event bearer then test bearer else .ok false)
    m.entities

/-- A quantifier over the entities that satisfy its restrictor. -/
def quantify (kind : Text) (scope : Name → Except EvaluationError Bool)
    (satisfiers : List Name) : Except EvaluationError Bool :=
  if kind = Formula.existential then exists? scope satisfiers
  else if kind = Formula.universal then forall? scope satisfiers
  else .error (.unknownQuantifier kind)

/-- Whether the formula has the value in the model. -/
def hasValue : Formula → Model → Value → Except EvaluationError Bool
  | .and (.and (.quantifier kind) restrictor) body, m, value =>
    match value, restrictor with
    | .individual name, _ => .error (.quantifiedIndividual name)
    | .truth value, .indexed index operand =>
      atTruth value do
        let satisfiers ← filter? (fun e => hasValue operand m (.individual e)) m.entities
        quantify kind (fun e => hasValue body (m.assign index e) (.truth true)) satisfiers
    | .truth _, restrictor => .error (.restrictor kind restrictor)
  | .const name, m, value => .ok (m.constantHolds name value)
  | .and left right, m, value => do
    if ← hasValue left m value then hasValue right m value else .ok false
  | .close operand, m, .individual e => hasValue operand m (.individual e)
  | .close operand, m, .truth value =>
    atTruth value (exists? (fun e => hasValue operand m (.individual e)) m.events)
  | .internal operand, m, .individual e =>
    m.roleHolds internalRole (fun x => hasValue operand m (.individual x)) e
  | .internal operand, m, .truth value =>
    atTruth value
      (exists? (m.roleHolds internalRole fun x => hasValue operand m (.individual x)) m.events)
  | .external operand, m, .individual e =>
    m.roleHolds externalRole (fun x => hasValue operand m (.individual x)) e
  | .external operand, m, .truth value =>
    atTruth value
      (exists? (m.roleHolds externalRole fun x => hasValue operand m (.individual x)) m.events)
  | .var index, m, value => m.variableHolds index value
  | .indexed index operand, _, _ => .error (.indexedRole (.indexed index operand))
  | .quantifier _, _, _ => .ok false
  | .foreign _, _, _ => .error .notAFormula

/-- A conjunction that is no quantified one is evaluated one side after the other. -/
theorem hasValue_and {left right : Formula}
    (h : ∀ kind restrictor, left ≠ .and (.quantifier kind) restrictor) (m : Model) (v : Value) :
    hasValue (.and left right) m v =
      (do if ← hasValue left m v then hasValue right m v else .ok false) := by
  rw [hasValue]
  exact h

/-- Whether the formula is true in the model. -/
def evaluate (m : Model) (f : Formula) : Except EvaluationError Bool := hasValue f m (.truth true)

end Model
end MinimalistGrammar
