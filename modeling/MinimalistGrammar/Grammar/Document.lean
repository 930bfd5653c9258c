import MinimalistGrammar.Grammar.Lexicon

/-! Lexicons as JSON documents. -/
namespace MinimalistGrammar

def LexicalEntry.toDocument (entry : LexicalEntry) : Json :=
  .obj [("token", entry.token), ("features", .str entry.features.text),
    ("meaning", .str entry.meaning.text)]

/-- Start symbols are written in order. -/
def Lexicon.toDocument (l : Lexicon) : Json :=
  .obj [("start_symbols", .arr (l.startSymbols.elements.map .scalar)),
    ("lexicon", .arr (l.entries.map LexicalEntry.toDocument))]

/-- An entry has a token and features; without a meaning it has the one of the empty text. -/
def LexicalEntry.ofDocument (entry : Json) : Except GrammarError LexicalEntry :=
  match entry with
  | .obj members =>
    match Json.member? members "token", Json.member? members "features" with
    | some token, some features =>
      ofParts token features ((Json.member? members "meaning").getD (.str ""))
    | _, _ => .error (.malformedEntry entry)
  | _ => .error (.malformedEntry entry)

namespace Lexicon

/-- The members of a collection that may be missing. -/
def decodeCollection (members : List (Text × Json)) (key : Text) :
    Except GrammarError (List Json) :=
  (((Json.member? members key).getD (.arr [])).elements?).elim (.error .wrongType) .ok

/-- The entries are read before the start symbols; each may be missing. -/
def ofDocument : Json → Except GrammarError Lexicon
  | .obj members => do
    let entries ← (← decodeCollection members "lexicon").mapM LexicalEntry.ofDocument
    ofParts entries (← decodeCollection members "start_symbols")
  | _ => .error .notAnObject

end Lexicon
end MinimalistGrammar
