import MinimalistGrammar.Parsing.Search
import MinimalistGrammar.Chart.Listing
import MinimalistGrammar.Text.Integer
import MinimalistGrammar.Text.Quoted

/-! What a log tells about a parse: its beginning, each combination that was entered, and its
end. -/
namespace MinimalistGrammar
namespace Parsing

/-- Ids in brackets; a single one has a comma behind it. -/
def idsText : List Int → Text
  | [id] => "(" ++ Text.ofInt id ++ ",)"
  | ids => "(" ++ Text.join ", " (ids.map Text.ofInt) ++ ")"

/-- The name of an entry in messages. -/
def idLabel (id : Int) : Text := "e" ++ Text.ofInt id

/-- The line of an entry that was built; lexical entries have none. -/
def entryMessage? (entry : ChartEntry) : Option Text :=
  entry.operator?.map fun operator =>
    idLabel entry.id ++ " = " ++ operator ++ idsText (entry.sources.map (·.id))

/-- What is said before a search. -/
def beginMessage (text : Text) (tokens lexical : Nat) : Text :=
  "Parsing " ++ quoted text ++ ": " ++ Text.ofNat tokens ++ " tokens, " ++ Text.ofNat lexical ++
    " lexical entries"

namespace Outcome

/-- The sizes at the end of a message. -/
def sizes (o : Outcome) : Text :=
  " (" ++ Text.ofNat o.chart.size ++ " chart entries, " ++ Text.ofNat o.steps ++ " steps)"

def endMessage (o : Outcome) : Text :=
  match o.entry? with
  | none => "No parse for " ++ quoted o.text ++ o.sizes
  | some entry =>
    "Parsed " ++ quoted o.text ++ " as " ++ idLabel entry.id ++ ": " ++
      entry.expression.meaning.text ++ o.sizes

/-- All messages in order. -/
def messages (o : Outcome) : List Text :=
  if o.unknown ≠ [] then
    ["No lexical entry for " ++ bracketed (o.unknown.map quoted) ++ "; not parsing " ++ quoted o.text]
  else
    beginMessage o.text o.tokens.length o.lexical ::
      (o.chart.entries.filterMap entryMessage? ++ [o.endMessage])

end Outcome
end Parsing
end MinimalistGrammar
