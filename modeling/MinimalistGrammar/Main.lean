import MinimalistGrammar.CommandLine.Run

/-! The program: it reads its files and its lines, and prints what `CommandLine` says. -/
namespace MinimalistGrammar
namespace CommandLine

/-- The number of links that lead to each other. -/
def loopCode : Nat := 40

/-- What the system says of the errors of opening a file. -/
def systemReasons : List (Nat × String) :=
  [(1, "Operation not permitted"), (5, "Input/output error"), (6, "No such device or address"),
    (13, "Permission denied"), (23, "Too many open files in system"), (24, "Too many open files"),
    (loopCode, "Too many levels of symbolic links")]

/-- An error as the system has it. Its number comes with a minus sign from some calls. -/
def systemError? (e : IO.Error) : Option SystemError :=
  let make (code : UInt32) (reason : String) : Option SystemError :=
    let code := (min code (0 - code)).toNat
    some ⟨code, (systemReasons.lookup code).getD reason⟩
  match e with
  | .alreadyExists _ code reason | .permissionDenied _ code reason | .invalidArgument _ code reason
  | .resourceExhausted _ code reason | .inappropriateType _ code reason
  | .noSuchThing _ code reason => make code reason
  | .noFileOrDirectory _ code reason | .interrupted _ code reason => make code reason
  | .otherError code reason | .resourceBusy code reason | .resourceVanished code reason
  | .unsupportedOperation code reason | .hardwareFault code reason
  | .unsatisfiedConstraints code reason | .illegalOperation code reason
  | .protocolError code reason | .timeExpired code reason => make code reason
  | .unexpectedEof | .userError _ => none

/-- Whether there is something under a path that cannot be opened for an error. Links that lead to
each other lead nowhere. -/
def isThere? (path : Text) (error : SystemError) : IO (Option Bool) := do
  if error.code = loopCode then return some false
  try
    discard <| IO.FS.realPath path.printed
    return some true
  catch _ => return none

/-- What a path leads to now. -/
def fileState (path : Text) : IO FileState := do
  try return .ofBytes (← IO.FS.readBinFile path.printed)
  catch e =>
    match systemError? e with
    | none => throw e
    | some ⟨2, _⟩ => return .missing
    | some ⟨20, _⟩ => return .behindFile
    | some ⟨21, _⟩ => return .directory
    | some ⟨36, _⟩ => return .nameTooLong
    | some error => return .refused (← isThere? path error) error

/-- The files of some paths, as they are now. -/
def filesNow (paths : List Text) : IO Files := do
  let all := (paths ++ paths.map Path.normalize).filter Path.isPossible
  let states ← all.mapM fun path => return (path, ← fileState path)
  return fun path => (states.lookup path).getD .missing

/-- The files that a command reads before anything is typed. -/
def Command.paths : Command → List Text
  | .parse grammar? _ _ _ => grammar?.toList
  | .eval grammar? model? _ _ _ _ _ => grammar?.toList ++ model?.toList
  | .repl grammar? model? => grammar?.toList ++ model?.toList

def Output.emit (verbose : Bool) : Output → IO Unit
  | .out text | .tried text _ _ => do
    IO.print text.printed
    (← IO.getStdout).flush
  | .err text => IO.eprint text.escaped
  | .log line => if verbose then IO.eprintln line.text.escaped else return

/-- Put out what can be printed, and how the program ends if not all of it can. -/
def emit (verbose : Bool) (t : Transcript) : IO (Option StreamEnding) := do
  let (printed, ending?) := t.print
  printed.forM (Output.emit verbose)
  return ending?

def conclude (verbose : Bool) (run : Transcript × Ending) : IO StreamEnding := do
  return (← emit verbose run.1).getD (.own run.2)

/-- What is typed next, or nothing at the end of input. -/
def nextInput? : IO (Option Input) := do
  let line ← (← IO.getStdin).getLine
  if line.isEmpty then return none
  return some (.line (if line.endsWith "\n" then (line.dropEnd 1).toString else line : String))

mutual

/-- The dialogue, line after line as they are typed. -/
partial def converse (verbose : Bool) (s : Session) : IO StreamEnding := do
  discard <| emit verbose [Session.prompt]
  match ← nextInput? with
  | none => conclude verbose (Session.farewell, .success)
  | some input => goOn verbose (s.answer (← filesNow input.path?.toList) input)

/-- The dialogue from an answer on. -/
partial def goOn (verbose : Bool) (a : Session.Answer) : IO StreamEnding := do
  match ← emit verbose a.transcript, a.next with
  | some ending, _ => return ending
  | none, .stop ending => return .own ending
  | none, .go s => converse verbose s

end

def runInvocation (invocation : Invocation) : IO StreamEnding := do
  let files ← filesNow invocation.command.paths
  match invocation.command with
  | .repl grammar? model? => goOn invocation.verbose (Session.start files grammar? model?)
  | command => conclude invocation.verbose (runCommand files [] command)

/-- The exit code; a defect is one of its own kind and says so, and so is what a stream refuses. -/
def StreamEnding.exitCode : StreamEnding → IO UInt32
  | .own (.code n) => return n.toUInt32
  | .own (.defect _) => do
    IO.eprintln "pymgsem: internal error"
    return 1
  | .refused error => do
    IO.eprintln error.message.escaped
    return 1

end CommandLine
end MinimalistGrammar

open MinimalistGrammar CommandLine in
def main (arguments : List String) : IO UInt32 := do
  match readInvocation (arguments.map Text.ofString) with
  | .error n => (← conclude false n.show).exitCode
  | .ok invocation => (← runInvocation invocation).exitCode
