import MinimalistGrammar.Grammar.Lexicon
import MinimalistGrammar.Model.Basic
import MinimalistGrammar.Parsing.Report
import MinimalistGrammar.Truth.Trace

/-! Log lines: a level, the part of the program that speaks, and a message. -/
namespace MinimalistGrammar

inductive LogLevel where
  | debug
  | info
  deriving DecidableEq, Repr

def LogLevel.name : LogLevel → Text
  | debug => "DEBUG"
  | info => "INFO"

structure LogLine where
  level : LogLevel
  speaker : Text
  message : Text
  deriving DecidableEq, Repr

namespace LogLine

def text (l : LogLine) : Text := l.level.name ++ " " ++ l.speaker ++ ": " ++ l.message

def ofGrammar (message : Text) : LogLine := ⟨.debug, "pymgsem.grammar", message⟩

def ofModel (message : Text) : LogLine := ⟨.debug, "pymgsem.model", message⟩

/-- The lines of a parse, or of the beginning of one. -/
def ofParseMessages (messages : List Text) : List LogLine :=
  messages.map (⟨.debug, "pymgsem.parser", ·⟩)

def ofParse (outcome : Parsing.Outcome) : List LogLine := ofParseMessages outcome.messages

/-- The lines of an evaluation. -/
def ofEvaluation (m : Model) (f : Formula) : List LogLine :=
  (m.evaluationMessages f).map (⟨.debug, "pymgsem.evaluation", ·⟩)

end LogLine

/-- What is logged when there is a new lexicon. -/
def Lexicon.creationLine (l : Lexicon) : LogLine :=
  .ofGrammar ("Grammar created: " ++ Text.ofNat l.entries.length ++
    " lexical items, start symbols " ++
    bracketed (l.startSymbols.elements.map Json.Scalar.display))

/-- What is logged when there is a new model. -/
def Model.creationLine (m : Model) : LogLine :=
  .ofModel ("Model created: " ++ Text.ofNat m.entities.length ++ " entities, " ++
    Text.ofNat m.events.length ++ " events, " ++ Text.ofNat m.predicates.size ++ " predicates")

end MinimalistGrammar
