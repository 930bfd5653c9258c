import MinimalistGrammar.CommandLine.Invocation
import MinimalistGrammar.CommandLine.Session

/-! The program as a function of its arguments, of the files that it can read and of what is
typed. -/
namespace MinimalistGrammar
namespace CommandLine

/-- The exit code of a command line that cannot be read. -/
def usageCode : Nat := 2

/-- What a notice puts out, and how the program ends with it. -/
def Notice.show (n : Notice) : Transcript × Ending :=
  if n.isError then ([.err n.text], .code usageCode) else ([.out n.text], .success)

def runCommand (files : Files) (inputs : List Input) : Command → Transcript × Ending
  | .parse grammar? sentence derivation json => runParse files grammar? sentence derivation json
  | .eval grammar? model? sentence assignments expected? derivation json =>
    runEval files grammar? model? sentence assignments expected? derivation json
  | .repl grammar? model? => runSession files grammar? model? inputs

/-- What the program leaves behind: the text of its two output streams, and how it ends. -/
structure Result where
  stdout : Text
  stderr : Text
  ending : Ending

def run (files : Files) (arguments : List Text) (inputs : List Input) : Result :=
  match readInvocation arguments with
  | .error n =>
    let (t, ending) := n.show
    ⟨t.stdout, t.stderr false, ending⟩
  | .ok invocation =>
    let (t, ending) := runCommand files inputs invocation.command
    ⟨t.stdout, t.stderr invocation.verbose, ending⟩

end CommandLine
end MinimalistGrammar
