import MinimalistGrammar.Collection.SortedSet
import MinimalistGrammar.Feature
import MinimalistGrammar.Formula.Basic

/-! Lexical items, and grammars as a lexicon with start categories. An item with the empty token is
phonologically null. -/
namespace MinimalistGrammar

structure LexicalItem where
  token : Text
  features : List Feature
  meaning : Formula
  deriving DecidableEq, Repr

structure Grammar where
  items : List LexicalItem
  startCategories : SortedSet Text
  deriving DecidableEq

namespace Grammar

instance : EmptyCollection Grammar := ⟨⟨[], ∅⟩⟩

instance : Inhabited Grammar := ⟨∅⟩

/-- The items of a token, in the order of the lexicon. -/
def lookup (g : Grammar) (token : Text) : List LexicalItem := g.items.filter (·.token = token)

/-- The items without sound. -/
def nullItems (g : Grammar) : List LexicalItem := g.lookup []

def isStart (g : Grammar) (category : Text) : Bool := category ∈ g.startCategories

end Grammar

/-- The tokens of a text are what lies between its spaces, be it empty. -/
def tokenize (text : Text) : List Text := Text.splitOn ' ' text

end MinimalistGrammar
