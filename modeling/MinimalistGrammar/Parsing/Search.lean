import MinimalistGrammar.Chart.Combination

/-! Parsing as a search over a chart without spans. Every lexical item of the text is an entry of
the chart and of the agenda. The entry in focus is combined by the first operator that succeeds,
the result is entered and comes into focus itself, and when nothing applies the agenda gives the
next focus. Only one combination of an entry is kept at a time, so a parse that needs another
choice can be missed. -/
namespace MinimalistGrammar
namespace Parsing

/-- What a search is run with. -/
structure Setting where
  grammar : Grammar
  categories : PhraseCategories := {}

/-- A state of the search. The agenda gives its first entry next. -/
structure State where
  counters : Counters
  chart : Chart
  agenda : List ChartEntry
  focus? : Option ChartEntry := none
  accepted? : Option ChartEntry := none
  steps : Nat := 0

namespace State

/-- The search ends with the chain of combinations in which an entry is accepted, or with an empty
agenda. -/
def isFinal (s : State) : Bool := s.focus?.isNone && (s.agenda.isEmpty || s.accepted?.isSome)

/-- Enter a combination into the chart and the agenda, and accept it if nothing was before. -/
def enter (s : State) (accepts : ChartEntry → Bool) (entry : ChartEntry) (counters : Counters) :
    State :=
  match s.chart.add? entry with
  | none => { s with counters := counters, focus? := none }
  | some chart =>
    { counters := counters
      chart := chart
      agenda := entry :: s.agenda
      focus? := some entry
      accepted? := s.accepted? <|> if accepts entry then some entry else none
      steps := s.steps + 1 }

/-- Combine the entry in focus, or move the next one of the agenda into focus. -/
def step (categories : PhraseCategories) (accepts : ChartEntry → Bool) (s : State) : State :=
  match s.focus?, s.agenda with
  | some entry, _ =>
    match entry.derive? categories s.chart s.counters with
    | none => { s with focus? := none }
    | some (result, counters) => s.enter accepts result counters
  | none, entry :: agenda => { s with agenda := agenda, focus? := some entry }
  | none, [] => s

/-- As many steps as are needed for a final state, but no more than given. -/
def run (categories : PhraseCategories) (accepts : ChartEntry → Bool) : Nat → State → State
  | 0, s => s
  | bound + 1, s =>
    if s.isFinal then s else run categories accepts bound (s.step categories accepts)

end State

/-- The items of a text: those without sound, then those of each token. -/
def itemsOf (grammar : Grammar) (tokens : List Text) : List LexicalItem :=
  grammar.nullItems ++ tokens.flatMap grammar.lookup

/-- Entries for items, with ids from a given number on. -/
def lexicalEntries (first : Int) (items : List LexicalItem) : List ChartEntry :=
  items.zipIdx.map fun (item, k) => ⟨first + k, .ofItem item, none, [], ∅⟩

/-- The number of features of all items. -/
def featureCount : List LexicalItem → Nat
  | [] => 0
  | item :: rest => item.features.length + featureCount rest

/-- A number that no search from these items exceeds in steps. A derivation has at most twice as
many nodes as there are items and features, and an entry in focus or on the agenda makes place for
entries with larger derivations only. -/
def stepBound (items : List LexicalItem) : Nat :=
  let nodes := 2 * items.length + 2 * featureCount items
  items.length * (3 * Nat.pow 2 nodes)

/-- What comes of a text. A text with unknown tokens is not searched. -/
structure Outcome where
  text : Text
  tokens : List Text
  unknown : List Text := []
  /-- The number of lexical entries. -/
  lexical : Nat := 0
  chart : Chart := ∅
  steps : Nat := 0
  /-- The accepted entry of the chart, spelled out once more if that is possible. -/
  entry? : Option ChartEntry := none
  counters : Counters

namespace Outcome

def isAccepted (o : Outcome) : Bool := o.entry?.isSome

end Outcome

/-- Spell out an accepted entry. -/
def spellOutAccepted (categories : PhraseCategories) (entry : ChartEntry) (counters : Counters) :
    ChartEntry × Counters :=
  (entry.applyUnary? "spellout" (Expression.spellOut? categories) counters).getD (entry, counters)

namespace Setting

/-- The lexical entries of a text. -/
def entries (setting : Setting) (tokens : List Text) (counters : Counters) : List ChartEntry :=
  lexicalEntries counters.nextId (itemsOf setting.grammar tokens)

/-- An entry is accepted if it is a start expression in which all of the text went. -/
def accepts (setting : Setting) (tokens : List Text) (counters : Counters)
    (entry : ChartEntry) : Bool :=
  entry.isAccepting setting.grammar.startCategories
    (.ofList ((setting.entries tokens counters).map (·.id)))

/-- The state in which the search of a text begins; the last lexical entry comes first. -/
def initial (setting : Setting) (tokens : List Text) (counters : Counters) : State :=
  let entries := setting.entries tokens counters
  { counters := { counters with nextId := counters.nextId + entries.length }
    chart := .ofList entries
    agenda := entries.reverse }

/-- The state in which the search of a text ends. -/
def search (setting : Setting) (tokens : List Text) (counters : Counters) : State :=
  State.run setting.categories (setting.accepts tokens counters)
    (stepBound (itemsOf setting.grammar tokens)) (setting.initial tokens counters)

/-- Parse a text from given counters. -/
def parse (setting : Setting) (text : Text) (counters : Counters) : Outcome :=
  let tokens := tokenize text
  let unknown := tokens.filter fun token => (setting.grammar.lookup token).isEmpty
  if unknown ≠ [] then { text, tokens, unknown, counters }
  else
    let final := setting.search tokens counters
    let outcome : Outcome :=
      { text, tokens
        lexical := (setting.entries tokens counters).length
        chart := final.chart
        steps := final.steps
        counters := final.counters }
    match final.accepted? with
    | none => outcome
    | some accepted =>
      let (entry, counters) := spellOutAccepted setting.categories accepted final.counters
      { outcome with entry? := some entry, counters := counters }

end Setting
end Parsing
end MinimalistGrammar
