import MinimalistGrammar.Truth.Evaluation

/-! What a log tells about an evaluation: the satisfiers that each quantifier found, in the order in
which evaluation reached the quantifiers. -/
namespace MinimalistGrammar
namespace Model

/-- A quantifier was reached and its restrictor evaluated. -/
structure QuantifierReport where
  kind : Text
  index : Int
  satisfiers : Nat
  restrictor : Formula
  deriving DecidableEq, Repr

def QuantifierReport.message (r : QuantifierReport) : Text :=
  "Quantifier " ++ r.kind ++ " over x_" ++ Text.ofInt r.index ++ ": " ++ Text.ofNat r.satisfiers ++
    " satisfiers of " ++ r.restrictor.text

/-- What is reported by tests that are made in order while they give a result. -/
def reportsWhile {α β ε : Type} (result : Bool) (test : α → Except ε Bool) (reports : α → List β) :
    List α → List β
  | [] => []
  | a :: rest =>
    reports a ++
      match test a with
      | .ok found => if found = result then reportsWhile result test reports rest else []
      | .error _ => []

/-- What is reported by tests that are all made, up to an error. -/
def reportsOfAll {α β ε : Type} (test : α → Except ε Bool) (reports : α → List β) : List α → List β
  | [] => []
  | a :: rest =>
    reports a ++
      match test a with
      | .ok _ => reportsOfAll test reports rest
      | .error _ => []

/-- What a quantifier reports while it looks through its satisfiers. -/
def scopeReports (kind : Text) (test : Name → Except EvaluationError Bool)
    (reports : Name → List QuantifierReport) (satisfiers : List Name) : List QuantifierReport :=
  if kind = Formula.existential then reportsWhile false test reports satisfiers
  else if kind = Formula.universal then reportsWhile true test reports satisfiers
  else []

/-- What the bearers of a role in an event report until one of them satisfies a test. -/
def roleReports (m : Model) (relation : Text) (test : Name → Except EvaluationError Bool)
    (reports : Name → List QuantifierReport) (event : Name) : List QuantifierReport :=
  reportsWhile false test reports (m.entities.filter (m.related relation event))

/-- The reports of an evaluation. -/
def reports : Formula → Model → Value → List QuantifierReport
  | .and (.and (.quantifier kind) restrictor) body, m, value =>
    match value, restrictor with
    | .truth _, .indexed index operand =>
      let test := fun e => hasValue operand m (.individual e)
      reportsOfAll test (fun e => reports operand m (.individual e)) m.entities ++
        match filter? test m.entities with
        | .error _ => []
        | .ok satisfiers =>
          ⟨kind, index, satisfiers.length, operand⟩ ::
            scopeReports kind (fun e => hasValue body (m.assign index e) (.truth true))
              (fun e => reports body (m.assign index e) (.truth true)) satisfiers
    | _, _ => []
  | .and left right, m, value =>
    reports left m value ++
      match hasValue left m value with
      | .ok true => reports right m value
      | _ => []
  | .close operand, m, .individual e => reports operand m (.individual e)
  | .close operand, m, .truth _ =>
    reportsWhile false (fun e => hasValue operand m (.individual e))
      (fun e => reports operand m (.individual e)) m.events
  | .internal operand, m, .individual e =>
    m.roleReports internalRole (fun x => hasValue operand m (.individual x))
      (fun x => reports operand m (.individual x)) e
  | .internal operand, m, .truth _ =>
    reportsWhile false (m.roleHolds internalRole fun x => hasValue operand m (.individual x))
      (m.roleReports internalRole (fun x => hasValue operand m (.individual x)) fun x =>
        reports operand m (.individual x)) m.events
  | .external operand, m, .individual e =>
    m.roleReports externalRole (fun x => hasValue operand m (.individual x))
      (fun x => reports operand m (.individual x)) e
  | .external operand, m, .truth _ =>
    reportsWhile false (m.roleHolds externalRole fun x => hasValue operand m (.individual x))
      (m.roleReports externalRole (fun x => hasValue operand m (.individual x)) fun x =>
        reports operand m (.individual x)) m.events
  | _, _, _ => []

/-- All messages of an evaluation, the last one with the truth value if there is one. -/
def evaluationMessages (m : Model) (f : Formula) : List Text :=
  (reports f m (.truth true)).map QuantifierReport.message ++
    match m.evaluate f with
    | .ok value => ["Evaluated " ++ f.text ++ ": " ++ if value then "True" else "False"]
    | .error _ => []

end Model
end MinimalistGrammar
