import MinimalistGrammar.Json.Writer
import MinimalistGrammar.Parsing.Attempt
import MinimalistGrammar.Storage.Files

/-! What a command puts out: text for the two output streams and log lines, in order, and how the
command ends. -/
namespace MinimalistGrammar
namespace CommandLine

inductive Output where
  | out (text : Text)
  /-- Text that is printed where errors are handled: an error of the stream is told behind a label,
  and the command goes on after that or fails. -/
  | tried (text label : Text) (goesOn : Bool)
  | err (text : Text)
  | log (line : LogLine)
  deriving DecidableEq, Repr

namespace Output

/-- A line of the first stream. -/
def line (text : Text) : Output := out (text ++ "\n")

def document (document : Json) : Output := line document.compact

/-- An error, as a line of the second stream or as a document on the first. -/
def error (json : Bool) (message : Text) : Output :=
  if json then document (.obj [("error", .str message)]) else err ("Error: " ++ message ++ "\n")

end Output

abbrev Transcript := List Output

namespace Transcript

/-- What appears on the first stream if it takes every text. -/
def stdout (t : Transcript) : Text :=
  t.flatMap fun
    | .out text => text
    | .tried text _ _ => text
    | _ => []

/-- What appears on the second stream; log lines do if the log is wanted. -/
def stderr (verbose : Bool) (t : Transcript) : Text :=
  t.flatMap fun
    | .err text => text
    | .log line => if verbose then line.text ++ "\n" else []
    | _ => []

def ofLog (lines : List LogLine) : Transcript := lines.map .log

end Transcript

/-- What no command is prepared for. -/
inductive Defect where
  | load (error : LoadError)
  | evaluation (error : EvaluationError)
  | parsing (breakdown : Parsing.Breakdown)
  /-- The option for assignments was given without a value. -/
  | missingAssignment
  /-- Names that are to be listed are not all texts. -/
  | notListable

/-- How a command ends: with an exit code, or by a defect that it does not handle. -/
inductive Ending where
  | code (code : Nat)
  | defect (defect : Defect)

namespace Ending

def success : Ending := code 0

def failure : Ending := code 1

/-- The truth value was not the expected one. -/
def mismatch : Ending := code 2

end Ending

/-- How a program ends whose first stream is one of UTF-8: in its own way, or by an error of the
stream that nothing handles. -/
inductive StreamEnding where
  | own (ending : Ending)
  | refused (error : EncodingError)

/-- What comes of an output on a stream of UTF-8, which refuses a text with a half in it, and how
the program ends if it does not go on. The second stream escapes halves and takes every text. -/
def Output.print : Output → Transcript × Option StreamEnding
  | .out text =>
    match EncodingError.find? (fun _ => false) text with
    | none => ([.out text], none)
    | some error => ([], some (.refused error))
  | .tried text label goesOn =>
    match EncodingError.find? (fun _ => false) text with
    | none => ([.out text], none)
    | some error =>
      ([.line (label ++ error.message)], if goesOn then none else some (.own .failure))
  | output => ([output], none)

/-- Print one output after the other, until one of them ends the program. -/
def Transcript.print : Transcript → Transcript × Option StreamEnding
  | [] => ([], none)
  | output :: rest =>
    match output.print with
    | (printed, some ending) => (printed, some ending)
    | (printed, none) =>
      let (more, ending?) := print rest
      (printed ++ more, ending?)

/-- A command whose output goes to a stream of UTF-8. -/
def onStream (run : Transcript × Ending) : Transcript × StreamEnding :=
  (run.1.print.1, run.1.print.2.getD (.own run.2))

/-- What keeps a command from going on: a failure that it tells about, or a defect. -/
inductive Obstacle where
  | failure (message : Text)
  | defect (defect : Defect)

namespace Obstacle

def ofLoad (e : LoadError) : Obstacle := e.message?.elim (.defect (.load e)) .failure

def ofEvaluation (e : EvaluationError) : Obstacle :=
  e.message?.elim (.defect (.evaluation e)) .failure

/-- The end of a command that meets an obstacle after some output. -/
def conclude (before : Transcript) (tell : Text → Output) : Obstacle → Transcript × Ending
  | failure message => (before ++ [tell message], .failure)
  | defect d => (before, .defect d)

end Obstacle

end CommandLine
end MinimalistGrammar
