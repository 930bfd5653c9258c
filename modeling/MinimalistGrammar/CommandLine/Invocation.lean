import MinimalistGrammar.CommandLine.Arguments

/-! The commands of the program, their options and usage texts, and the reading of a whole command
line. -/
namespace MinimalistGrammar
namespace CommandLine

/-- A command with the values of its options, where an option may have been given without one. -/
inductive Command where
  /-- Parse a sentence. -/
  | parse (grammar? : Option Text) (sentence : Text) (derivation json : Bool)
  /-- Parse a sentence and evaluate it in a model. -/
  | eval (grammar? model? : Option Text) (sentence : Text) (assignments : List (Option Text))
      (expected? : Option Bool) (derivation json : Bool)
  /-- A dialogue. -/
  | repl (grammar? model? : Option Text)
  deriving DecidableEq, Repr

/-- A text that is printed instead of running a command, and where it goes. -/
structure Notice where
  isError : Bool
  text : Text
  deriving DecidableEq, Repr

structure Invocation where
  verbose : Bool
  command : Command
  deriving DecidableEq, Repr

/-- How a command is used: the name that its messages begin with, the text that a usage error shows,
the rest of its help, and what it takes. -/
structure Manual where
  program : Text
  usage : List Text
  help : List Text
  options : List OptionSpec
  positional : Positional

namespace Manual

def helpOption : OptionSpec := ⟨["-h", "--help"], "help", .help, false⟩

def derivationOption : OptionSpec := ⟨["--derivation"], "derivation", .flag, false⟩

def jsonOption : OptionSpec := ⟨["--json"], "json", .flag, false⟩

def grammarOption (isRequired : Bool) : OptionSpec :=
  ⟨["-g", "--grammar"], "grammar", .value [], isRequired⟩

def modelOption (isRequired : Bool) : OptionSpec :=
  ⟨["-m", "--model"], "model", .value [], isRequired⟩

def main : Manual where
  program := "pymgsem"
  usage := ["usage: pymgsem [-h] [--version] [-v] \x7bparse,eval,repl\x7d ..."]
  help := ["",
    "pyMGSem — Minimalist Grammar parsing with model-theoretic evaluation",
    "",
    "positional arguments:",
    "  \x7bparse,eval,repl\x7d  Available commands",
    "    parse            Parse a sentence",
    "    eval             Parse a sentence and evaluate it in a model",
    "    repl             Interactive REPL",
    "",
    "options:",
    "  -h, --help         show this help message and exit",
    "  --version          show program's version number and exit",
    "  -v, --verbose      Enable debug logging"]
  options := [helpOption, ⟨["--version"], "version", .version, false⟩,
    ⟨["-v", "--verbose"], "verbose", .flag, false⟩]
  positional := .command

def parse : Manual where
  program := "pymgsem parse"
  usage := ["usage: pymgsem parse [-h] -g GRAMMAR [--derivation] [--json] sentence"]
  help := ["",
    "positional arguments:",
    "  sentence              Input sentence (tokens separated by single spaces)",
    "",
    "options:",
    "  -h, --help            show this help message and exit",
    "  -g GRAMMAR, --grammar GRAMMAR",
    "                        Path to JSON grammar file",
    "  --derivation          Print the derivation",
    "  --json                Emit JSON output"]
  options := [helpOption, grammarOption true, derivationOption, jsonOption]
  positional := .one "sentence"

def eval : Manual where
  program := "pymgsem eval"
  usage := ["usage: pymgsem eval [-h] -g GRAMMAR -m MODEL [-a I=ENTITY]",
    "                    [--expect \x7btrue,false\x7d] [--derivation] [--json]",
    "                    sentence"]
  help := ["",
    "positional arguments:",
    "  sentence              Input sentence (tokens separated by single spaces)",
    "",
    "options:",
    "  -h, --help            show this help message and exit",
    "  -g GRAMMAR, --grammar GRAMMAR",
    "                        Path to JSON grammar file",
    "  -m MODEL, --model MODEL",
    "                        Path to JSON model file",
    "  -a I=ENTITY, --assign I=ENTITY",
    "                        Bind pronoun index I to ENTITY (repeatable)",
    "  --expect \x7btrue,false\x7d",
    "                        Expected truth value; exit with code 2 on mismatch",
    "  --derivation          Print the derivation",
    "  --json                Emit JSON output"]
  options := [helpOption, grammarOption true, modelOption true,
    ⟨["-a", "--assign"], "assign", .value [], false⟩,
    ⟨["--expect"], "expect", .value ["true", "false"], false⟩, derivationOption, jsonOption]
  positional := .one "sentence"

def repl : Manual where
  program := "pymgsem repl"
  usage := ["usage: pymgsem repl [-h] [-g GRAMMAR] [-m MODEL]"]
  help := ["",
    "options:",
    "  -h, --help            show this help message and exit",
    "  -g GRAMMAR, --grammar GRAMMAR",
    "                        Path to JSON grammar file to load",
    "  -m MODEL, --model MODEL",
    "                        Path to JSON model file to load"]
  options := [helpOption, grammarOption false, modelOption false]
  positional := .nothing

def unlines (lines : List Text) : Text := lines.flatMap (· ++ "\n")

def helpText (m : Manual) : Text := unlines (m.usage ++ m.help)

/-- What is printed when the reading of arguments ends early. -/
def notice (m : Manual) : Stop → Notice
  | .help => ⟨false, m.helpText⟩
  | .version => ⟨false, "pymgsem 0.1.0\n"⟩
  | .usage message => ⟨true, unlines (m.usage ++ [m.program ++ ": error: " ++ message])⟩

def read (m : Manual) (arguments : List Text) : Except Notice Reading :=
  (readArguments m.options m.positional arguments).mapError m.notice

end Manual

/-- A command as its name and its arguments say, and the words without a place. -/
def readCommand (name : Text) (arguments : List Text) : Except Notice (Command × List Text) := do
  if name = "parse" then
    let r ← Manual.parse.read arguments
    return (.parse (r.value? "grammar") ((r.positional?.getD []).headD []) (r.has "derivation")
      (r.has "json"), r.extras)
  else if name = "eval" then
    let r ← Manual.eval.read arguments
    let expected? := (r.values "expect").getLast?.map fun value? =>
      value? == some (Text.ofString "true")
    return (.eval (r.value? "grammar") (r.value? "model") ((r.positional?.getD []).headD [])
      (r.values "assign") expected? (r.has "derivation") (r.has "json"), r.extras)
  else if name = "repl" then
    let r ← Manual.repl.read arguments
    return (.repl (r.value? "grammar") (r.value? "model"), r.extras)
  else
    throw (Manual.main.notice (.usage ("argument command: invalid choice: " ++ quoted name ++
      " (choose from 'parse', 'eval', 'repl')")))

/-- A whole command line. Without a command there is only help. -/
def readInvocation (arguments : List Text) : Except Notice Invocation := do
  let r ← Manual.main.read arguments
  let called? ←
    match r.positional? with
    | some (name :: rest) => (readCommand name rest).map some
    | _ => .ok none
  let extras := r.extras ++ (called?.map (·.2)).getD []
  if extras ≠ [] then
    throw (Manual.main.notice (.usage ("unrecognized arguments: " ++ Text.join " " extras)))
  match called? with
  | some (command, _) => return ⟨r.has "verbose", command⟩
  | none => throw (Manual.main.notice .help)

end CommandLine
end MinimalistGrammar
