import MinimalistGrammar.Formula.Printer
import MinimalistGrammar.Formula.Reader
import MinimalistGrammar.Grammar.Basic
import MinimalistGrammar.Json.Elements
import MinimalistGrammar.Name

/-! Lexicons as they are stated, of entries that need not be good for anything. An entry may have any
value for its token, a list of other values for its features, and for its meaning something that is
no formula; it is listed all the same. What can be parsed with is the grammar of the lexicon. -/
namespace MinimalistGrammar

/-- What an entry states as its features. -/
inductive StatedFeatures where
  | features (list : List Feature)
  /-- Values that are no features, at least one. -/
  | values (list : List Json)
  deriving DecidableEq, Repr

namespace StatedFeatures

def text : StatedFeatures → Text
  | features list => Feature.listText list
  | values list => Text.join " " (list.map Json.plain)

/-- What derivations see of the features. -/
def usable : StatedFeatures → List Feature
  | features list => list
  | values _ => []

/-- A look at the first of the features fails. Nothing can be seen in the place of a null. -/
def isUnreadable : StatedFeatures → Bool
  | features _ => false
  | values list => list.head?.any (· ≠ .null)

def isPlain : StatedFeatures → Bool
  | features _ => true
  | values list => list.all (·.scalar?.isSome)

end StatedFeatures

structure LexicalEntry where
  token : Json
  features : StatedFeatures
  meaning : Formula
  deriving DecidableEq, Repr

/-- Why something states no lexicon. -/
inductive GrammarError where
  /-- The document is no object. -/
  | notAnObject
  /-- A part of the document has a type that cannot stand there. -/
  | wrongType
  | malformedEntry (entry : Json)
  | feature (error : FeatureError)
  | meaning (error : Formula.ReadError)
  | noFeatures (token : Json)

/-- The message, for the errors that have one. -/
def GrammarError.message? : GrammarError → Option Text
  | notAnObject => none
  | wrongType => none
  | malformedEntry entry => some ("Malformed lexical entry " ++ entry.display)
  | feature error => some error.message
  | meaning error => some error.message
  | noFeatures token => some ("Lexical item " ++ token.display ++ " has no features.")

namespace LexicalEntry

def text (entry : LexicalEntry) : Text :=
  entry.token.plain ++ "::" ++ entry.features.text ++ " = " ++ entry.meaning.text

/-- The item of an entry whose token is a text. -/
def item? (entry : LexicalEntry) : Option LexicalItem :=
  entry.token.text?.map (⟨·, entry.features.usable, entry.meaning⟩)

def ofItem (item : LexicalItem) : LexicalEntry :=
  ⟨.str item.token, .features item.features, item.meaning⟩

@[simp] theorem item?_ofItem (item : LexicalItem) : (ofItem item).item? = some item := rfl

/-- No part of the entry is a list or an object. Entries of other parts cannot be compared. -/
def isPlain (entry : LexicalEntry) : Bool :=
  entry.features.isPlain &&
    match entry.meaning with
    | .foreign value => value.scalar?.isSome
    | _ => true

/-- The features of an entry that gives them as a text. -/
def readFeatures? : Json → Except GrammarError (Option (List Feature))
  | .str text => ((Feature.readList text).mapError .feature).map some
  | _ => .ok none

/-- The meaning of an entry is a formula in its written form; whatever else stands there is taken
along. -/
def readMeaning : Json → Except GrammarError Formula
  | .str text => (Formula.read text).mapError .meaning
  | value => .ok (.foreign value)

/-- An entry from its parts; there must be a feature. -/
def ofParts (token features meaning : Json) : Except GrammarError LexicalEntry := do
  let read? ← readFeatures? features
  let formula ← readMeaning meaning
  match read? with
  | some [] => .error (.noFeatures token)
  | some read => return ⟨token, .features read, formula⟩
  | none =>
    if features.isEmpty then .error (.noFeatures token)
    else
      match features.elements? with
      | some values => return ⟨token, .values values, formula⟩
      | none => .error .wrongType

end LexicalEntry

/-- An item from the text forms of its features and its meaning; there must be a feature. -/
def LexicalItem.ofText (token features meaning : Text) : Except GrammarError LexicalItem := do
  let read ← (Feature.readList features).mapError .feature
  let formula ← (Formula.read meaning).mapError .meaning
  if read = [] then .error (.noFeatures (.str token)) else .ok ⟨token, read, formula⟩

structure Lexicon where
  entries : List LexicalEntry
  startSymbols : SortedSet Name
  deriving DecidableEq

namespace Lexicon

instance : EmptyCollection Lexicon := ⟨⟨[], ∅⟩⟩

instance : Inhabited Lexicon := ⟨∅⟩

/-- The entries of a token, in their order. -/
def lookup (l : Lexicon) (token : Text) : List LexicalEntry :=
  l.entries.filter (·.token = .str token)

/-- The entries without sound. -/
def nullEntries (l : Lexicon) : List LexicalEntry := l.lookup []

def isStart (l : Lexicon) (category : Text) : Bool := .text category ∈ l.startSymbols

/-- The items and the start categories that derivations can use. -/
def grammar (l : Lexicon) : Grammar :=
  ⟨l.entries.filterMap LexicalEntry.item?,
    .ofList (l.startSymbols.elements.filterMap Json.Scalar.text?)⟩

/-- A lexicon whose start symbols have an order among each other. -/
def ofParts (entries : List LexicalEntry) (startSymbols : List Json) :
    Except GrammarError Lexicon :=
  match startSymbols.mapM Json.scalar? with
  | none => .error .wrongType
  | some names =>
    let symbols := SortedSet.ofList names
    if Name.haveOrder symbols.elements then .ok ⟨entries, symbols⟩ else .error .wrongType

end Lexicon
end MinimalistGrammar
