import MinimalistGrammar.Formula.Printer
import MinimalistGrammar.Grammar.Basic

/-! Expressions of a derivation: sound, features, meaning, the arguments that a head has taken and
not yet spelled out, and the expressions attached to it and not yet merged, its children. -/
namespace MinimalistGrammar

/-- Only lexical heads take complements, and only derived ones specifiers. -/
inductive ExpressionKind where
  | lexical
  | derived
  | other (name : Text)
  deriving DecidableEq, Repr

namespace ExpressionKind

def name : ExpressionKind → Text
  | lexical => "lexical"
  | derived => "derived"
  | other name => name

def ofName (name : Text) : ExpressionKind :=
  if name = "lexical" then lexical else if name = "derived" then derived else other name

/-- The mark between sound and features. -/
def separator : ExpressionKind → Text
  | lexical => "::"
  | _ => ":"

end ExpressionKind

/-- A complement or a specifier that is spelled out later. -/
structure Argument where
  token : Text
  category : Text
  meaning : Formula
  deriving DecidableEq, Repr

namespace Argument

/-- The token of a specifier, which contributes meaning and no sound. -/
def placeholder : Text := "_"

def text (a : Argument) : Text := a.token ++ " " ++ a.category ++ " = " ++ a.meaning.text

end Argument

/-- Arguments come newest first, so the external argument before the internal one; so do
children. -/
structure Expression where
  phon : Text
  kind : ExpressionKind
  features : List Feature
  meaning : Formula
  arguments : List Argument := []
  children : List Expression := []
  deriving Repr

namespace Expression

mutual
/-- Expressions are equal if all their parts are. -/
def decideEq : (a b : Expression) → Decidable (a = b)
  | ⟨phon, kind, features, meaning, arguments, children⟩, ⟨phon', kind', features', meaning',
      arguments', children'⟩ =>
    if h : phon = phon' ∧ kind = kind' ∧ features = features' ∧ meaning = meaning' ∧
        arguments = arguments' then
      match decideEqList children children' with
      | isTrue hc => isTrue (by obtain ⟨rfl, rfl, rfl, rfl, rfl⟩ := h; rw [hc])
      | isFalse hc => isFalse (by intro he; cases he; exact hc rfl)
    else isFalse (by intro he; cases he; exact h ⟨rfl, rfl, rfl, rfl, rfl⟩)

def decideEqList : (a b : List Expression) → Decidable (a = b)
  | [], [] => isTrue rfl
  | [], _ :: _ => isFalse nofun
  | _ :: _, [] => isFalse nofun
  | a :: as, b :: bs =>
    match decideEq a b, decideEqList as bs with
    | isTrue h, isTrue hs => isTrue (by rw [h, hs])
    | isFalse h, _ => isFalse (by intro he; cases he; exact h rfl)
    | _, isFalse hs => isFalse (by intro he; cases he; exact hs rfl)
end

instance : DecidableEq Expression := decideEq

def ofItem (item : LexicalItem) : Expression :=
  { phon := item.token, kind := .lexical, features := item.features, meaning := item.meaning }

/-- The first feature, the only one that an operation may check. -/
def outer? (e : Expression) : Option Feature := e.features.head?

def outerIs (e : Expression) (kind : FeatureKind) : Bool := e.outer?.any (·.kind = kind)

def outerIsOf (e : Expression) (kind : FeatureKind) (category : Text) : Bool :=
  e.outer? = some ⟨kind, category⟩

/-- The category of the outer feature if that is of the given kind. -/
def outerCategory? (e : Expression) (kind : FeatureKind) : Option Text :=
  e.outer?.bind fun f => if f.kind = kind then some f.category else none

mutual
def text : Expression → Text
  | ⟨phon, kind, features, meaning, arguments, children⟩ =>
    "<" ++ phon ++ kind.separator ++ Feature.listText features ++ " = " ++ meaning.text ++
      (arguments.flatMap fun a => (", " : Text) ++ a.text) ++
      ", \x7b" ++ Text.join ", " (texts children) ++ "\x7d>"

def texts : List Expression → List Text
  | [] => []
  | e :: rest => e.text :: texts rest
end

end Expression
end MinimalistGrammar
