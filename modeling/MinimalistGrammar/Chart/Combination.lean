import MinimalistGrammar.Chart.Entry
import MinimalistGrammar.Expression.Attachment
import MinimalistGrammar.Expression.Merge
import MinimalistGrammar.Expression.Spellout

/-! Combining chart entries. Two entries combine only if their derivations share nothing, so that a
lexical insertion is used at most once, and a combination that fails takes no id and no index. -/
namespace MinimalistGrammar

/-- The next id of a chart entry, and the next index of a role; ids count up and indices down. -/
structure Counters where
  nextId : Int := 0
  nextIndex : Int := -1
  deriving DecidableEq, Repr

/-- From the next free index and an expression to another one and the next free index after it. -/
abbrev UnaryOperator := Int → Expression → Option (Expression × Int)

abbrev BinaryOperator := Expression → Expression → Option Expression

namespace ChartEntry

/-- An operator on one entry, whose id the result retires. -/
def applyUnary? (name : Text) (operator : UnaryOperator) (entry : ChartEntry)
    (counters : Counters) : Option (ChartEntry × Counters) :=
  if entry.id ∈ entry.retired then none
  else
    (operator counters.nextIndex entry.expression).map fun (expression, nextIndex) =>
      (⟨counters.nextId, expression, some name, [entry], entry.retired.insert entry.id⟩,
        ⟨counters.nextId + 1, nextIndex⟩)

/-- Two entries are different, neither went into the other or into itself, and nothing went into
both. -/
def areApart (first second : ChartEntry) : Bool :=
  first.id ≠ second.id &&
    first.id ∉ first.retired && first.id ∉ second.retired &&
    second.id ∉ first.retired && second.id ∉ second.retired &&
    first.retired.isDisjoint second.retired

/-- An operator on two entries, whose ids the result retires. -/
def applyBinary? (name : Text) (operator : BinaryOperator) (first second : ChartEntry)
    (counters : Counters) : Option (ChartEntry × Counters) :=
  match operator first.expression second.expression with
  | none => none
  | some expression =>
    if areApart first second then
      let retired := ((first.retired.union second.retired).insert first.id).insert second.id
      some (⟨counters.nextId, expression, some name, [first, second], retired⟩,
        { counters with nextId := counters.nextId + 1 })
    else none

end ChartEntry

namespace Operation

/-- An operator that takes no index. -/
def withoutIndex (operator : Expression → Option Expression) : UnaryOperator :=
  fun index e => (operator e).map (·, index)

/-- The operators on one expression by name, in the order in which they are tried. -/
def unary (categories : PhraseCategories) : List (Text × UnaryOperator) :=
  [("spellout", Expression.spellOut? categories),
    ("merge_comp", withoutIndex Expression.mergeComplement?),
    ("merge_spec", withoutIndex Expression.mergeSpecifier?),
    ("merge_nonfinal", withoutIndex Expression.mergeMover?)]

/-- The operators on two expressions by name. -/
def binary : List (Text × BinaryOperator) :=
  [("insert_adjunct", Expression.insertAdjunct?), ("insert", Expression.insert?)]

end Operation

namespace ChartEntry

/-- The first combination of an entry that succeeds. Adjuncts come first, then the operators on the
entry alone, then insertion; the newest partners come first. -/
def derive? (categories : PhraseCategories) (entry : ChartEntry) (chart : Chart)
    (counters : Counters) : Option (ChartEntry × Counters) :=
  let withPartner (name : Text) (operator : BinaryOperator) :=
    chart.newestFirst.findSome? fun other => applyBinary? name operator entry other counters
  withPartner "insert_adjunct" Expression.insertAdjunct? <|>
    ((Operation.unary categories).findSome? fun (name, operator) =>
      applyUnary? name operator entry counters) <|>
    withPartner "insert" Expression.insert?

end ChartEntry
end MinimalistGrammar
