import MinimalistGrammar.Grammar.Lexicon
import MinimalistGrammar.Parsing.Report

/-! Parsing with a lexicon as it is stated. If no entry of the text states anything but features, it
is a parse with the grammar of the lexicon. Else the parse breaks off: at once if an entry has parts
that cannot be compared, or where the search first looks at something that is no feature. -/
namespace MinimalistGrammar
namespace Parsing

/-- Why a parse breaks off. -/
inductive Breakdown where
  /-- A lexical entry that is not plain cannot be put into a chart. -/
  | notPlain
  /-- What was looked at is no feature. -/
  | notAFeature
  deriving DecidableEq, Repr

/-- A parse that broke off, what was said before, and where the counters stand. -/
structure Interruption where
  breakdown : Breakdown
  messages : List Text := []
  counters : Counters

/-- An operator tries the partners of an entry, the newest first, and comes to one that it cannot
look at before it succeeds. -/
def stumbles (isUnreadable : ChartEntry → Bool) (operator : BinaryOperator) (entry : ChartEntry)
    (chart : Chart) : Bool :=
  let comesTo (other : ChartEntry) : Bool :=
    entry.areApart other &&
      (isUnreadable other || (operator entry.expression other.expression).isSome)
  (chart.newestFirst.find? comesTo).any isUnreadable

/-- No operator on the entry alone succeeds. -/
def isStuck (categories : PhraseCategories) (entry : ChartEntry) (counters : Counters) : Bool :=
  (Operation.unary categories).all fun (name, operator) =>
    (entry.applyUnary? name operator counters).isNone

namespace State

/-- The next step looks at something that is no feature. Licensees and adjuncts look for adjunction
before anything else, and licensors look for insertion when nothing else succeeds. -/
def meets (categories : PhraseCategories) (isUnreadable : ChartEntry → Bool) (s : State) : Bool :=
  s.focus?.any fun entry =>
    isUnreadable entry ||
      match entry.expression.outer? with
      | none => false
      | some ⟨.licensor, _⟩ =>
        isStuck categories entry s.counters &&
          stumbles isUnreadable Expression.insert? entry s.chart
      | some _ => stumbles isUnreadable Expression.insertAdjunct? entry s.chart

/-- As many steps as lead to a state with some property or to the end, but no more than given. -/
def runUntil (categories : PhraseCategories) (accepts : ChartEntry → Bool)
    (stops : State → Bool) : Nat → State → State
  | 0, s => s
  | bound + 1, s =>
    if stops s || s.isFinal then s
    else runUntil categories accepts stops bound (s.step categories accepts)

end State

/-- The entries of a text: those without sound, then those of each token. -/
def entriesOf (lexicon : Lexicon) (tokens : List Text) : List LexicalEntry :=
  lexicon.nullEntries ++ tokens.flatMap lexicon.lookup

/-- The ids of the entries that cannot be looked at, the first entry having a given id. -/
def unreadableIds (first : Int) (stated : List LexicalEntry) : List Int :=
  stated.zipIdx.filterMap fun (entry, k) =>
    if entry.features.isUnreadable then some (first + k) else none

/-- A search with entries that cannot be looked at breaks off, since they have to be consumed. -/
def breakOff (setting : Setting) (stated : List LexicalEntry) (text : Text)
    (counters : Counters) : Interruption :=
  let tokens := tokenize text
  let unreadable := unreadableIds counters.nextId stated
  let last := State.runUntil setting.categories (setting.accepts tokens counters)
    (·.meets setting.categories (·.id ∈ unreadable)) (stepBound (itemsOf setting.grammar tokens))
    (setting.initial tokens counters)
  { breakdown := .notAFeature
    messages := beginMessage text tokens.length stated.length ::
      last.chart.entries.filterMap entryMessage?
    counters := last.counters }

/-- Parse a text with a lexicon from given counters. -/
def attempt (lexicon : Lexicon) (categories : PhraseCategories) (text : Text)
    (counters : Counters) : Except Interruption Outcome :=
  let setting : Setting := ⟨lexicon.grammar, categories⟩
  let tokens := tokenize text
  let stated := entriesOf lexicon tokens
  if tokens.any fun token => (lexicon.lookup token).isEmpty then .ok (setting.parse text counters)
  else if stated.any (!·.isPlain) then
    .error ⟨.notPlain, [], { counters with nextId := counters.nextId + stated.length }⟩
  else if stated.any (·.features.isUnreadable) then
    .error (breakOff setting stated text counters)
  else .ok (setting.parse text counters)

end Parsing
end MinimalistGrammar
