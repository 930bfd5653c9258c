import MinimalistGrammar.CommandLine.Sentence

/-! The dialogue: a session keeps a lexicon, a model and whether derivations are shown, and
answers one line after the other. -/
namespace MinimalistGrammar
namespace CommandLine

structure Session where
  lexicon : Lexicon := ∅
  model : Model := ∅
  showsDerivation : Bool := false
  counters : Counters := {}

/-- What a user does at the prompt. -/
inductive Input where
  | line (text : Text)
  | interrupt
  deriving DecidableEq, Repr

/-- What a line asks for. -/
inductive Request where
  | nothing
  | quit
  | help
  | showLexicon
  | showModel
  | derivation (value : Text)
  | load (arguments : Text)
  | assign (arguments : Text)
  | formula (text : Text)
  | parse (sentence : Text)
  | eval (sentence : Text)
  | unknown (command : Text)
  deriving DecidableEq, Repr

/-- What stands behind a word and a space. -/
def argumentsOf? (word s : Text) : Option Text := Text.after? (word ++ " ") s

namespace Request

/-- The requests with an argument in which blanks at the end do not count. -/
def ofCommand? (command : Text) : Option Request :=
  (argumentsOf? "derivation" command).map derivation <|>
    (argumentsOf? "load" command).map load <|>
    (argumentsOf? "assign" command).map assign <|>
    (argumentsOf? "formula" command).map formula

/-- The requests that are a text of their own. -/
def plain : List (Text × Request) :=
  [("", nothing), ("quit", quit), ("exit", quit), ("help", help), ("show lexicon", showLexicon),
    ("show model", showModel)]

/-- Sentences are taken as they are, since spaces separate tokens; elsewhere blanks at the end of
the line do not count. -/
def ofLine (text : Text) : Request :=
  let line := Text.trimStart text
  let command := Text.trimEnd line
  (plain.lookup command <|> ofCommand? command <|> (argumentsOf? "parse" line).map parse <|>
    (argumentsOf? "eval" line).map eval).getD (unknown command)

end Request

/-- A word, and what stands behind the blanks after it. -/
def splitWord (s : Text) : Text × Text :=
  let s := Text.trimStart s
  (s.takeWhile (!Text.isBlank ·), Text.trimStart (s.dropWhile (!Text.isBlank ·)))

/-- The kinds of files. -/
inductive FileKind where
  | grammar
  | model
  deriving DecidableEq, Repr

def FileKind.name : FileKind → Text
  | grammar => "grammar"
  | model => "model"

/-- The kind of a file to load, and its path. -/
def loadTarget? (arguments : Text) : Option (FileKind × Text) :=
  let (word, path) := splitWord arguments
  if path = [] then none
  else ([FileKind.grammar, .model].find? (·.name = word)).map (·, path)

/-- The path of the file that a line loads. -/
def Input.path? : Input → Option Text
  | .interrupt => none
  | .line text =>
    match Request.ofLine text with
    | .load arguments => (loadTarget? arguments).map (·.2)
    | _ => none

namespace Session

/-- What a session goes on with after a line: a changed session, or none if the dialogue is over. -/
inductive Next where
  | go (session : Session)
  | stop (ending : Ending)

structure Answer where
  transcript : Transcript
  next : Next

def prompt : Output := .out "pymgsem> "

def greeting : Output := .line "pyMGSem REPL. Type 'help' for commands.\n"

def helpText : Text :=
  Text.join "\n" ["Commands:",
    "  parse <sentence>        Parse a sentence and show its meaning",
    "  eval <sentence>         Parse a sentence and evaluate it in the model",
    "  formula <formula>       Evaluate a formula given in notation, e.g. <run & ext(alice)>",
    "  assign <i> <entity>     Bind pronoun index i to an entity",
    "  derivation on/off       Toggle derivation display",
    "  show lexicon            Display the grammar",
    "  show model              Display the model",
    "  load grammar <file>     Load a grammar from a JSON file",
    "  load model <file>       Load a model from a JSON file",
    "  help                    Show this help",
    "  quit                    Exit the REPL",
    ""]

/-- Lines to print and no change. -/
def say (s : Session) (lines : List Text) : Answer := ⟨lines.map .line, .go s⟩

/-- The answer to a request that meets an obstacle after some output. -/
def meet (s : Session) (before : Transcript) (tell : Text → Output) : Obstacle → Answer
  | .failure message => ⟨before ++ [tell message], .go s⟩
  | .defect d => ⟨before, .stop (.defect d)⟩

/-- A label with names behind it, if all of them are texts. -/
def listing? (label : Text) (names : List Name) : Option Text :=
  (names.mapM Json.Scalar.text?).map fun texts => label ++ ": " ++ Text.join ", " texts

def lexiconLines (l : Lexicon) : List (Option Text) :=
  listing? "Start symbols" l.startSymbols.elements ::
    some ("Lexicon (" ++ Text.ofNat l.entries.length ++ " items):") ::
    l.entries.map fun entry => some ("  " ++ entry.text)

def assignmentsLine (m : Model) : Text :=
  "Assignments: " ++ Text.join ", " (m.assignments.entries.map fun (i, e) =>
    "x_" ++ Text.ofInt i ++ " = " ++ e.plain)

def relationLine (name : Text) (pairs : SortedSet Participation) : Text :=
  "  " ++ name ++ ": " ++ Text.join ", " (pairs.elements.map fun p =>
    "(" ++ p.event.plain ++ ", " ++ p.bearer.plain ++ ")")

/-- The lines of a model, whose extensions and relations must be in order for that. -/
def modelLines (m : Model) : List (Option Text) :=
  if m.hasOrder then
    List.flatten [
      [listing? "Entities" m.entities, listing? "Events" m.events],
      if m.assignments.entries = [] then [] else [some (assignmentsLine m)],
      [some ("Predicates (" ++ Text.ofNat m.predicates.size ++ "):")],
      m.predicates.entries.map fun (name, members) => listing? ("  " ++ name) members.elements,
      m.relations.entries.map fun (name, pairs) => some (relationLine name pairs)]
  else [none]

/-- Print lines one after the other. One that cannot be made is a defect where its turn comes. -/
def list (s : Session) (lines : List (Option Text)) : Answer :=
  ⟨(lines.takeWhile Option.isSome).filterMap fun line? => line?.map .line,
    if lines.all Option.isSome then .go s else .stop (.defect .notListable)⟩

def answerDerivation (s : Session) (value : Text) : Answer :=
  let word := Text.lowerCase (Text.trim value)
  if word = "on" then { s with showsDerivation := true }.say ["Derivation: ON"]
  else if word = "off" then { s with showsDerivation := false }.say ["Derivation: OFF"]
  else s.say ["Usage: derivation on/off"]

/-- Load a file of some kind in the place of what there is. -/
def load (files : Files) (s : Session) (path : Text) :
    FileKind → List LogLine × Except LoadError Session
  | .grammar =>
    let (log, loaded) := files.loadGrammar path
    (log, loaded.map fun l => { s with lexicon := l })
  | .model =>
    let (log, loaded) := files.loadModel path
    (log, loaded.map fun m => { s with model := m })

def loadLabel : Text := "Error loading: "

def loadFailure (message : Text) : Output := .line (loadLabel ++ message)

/-- What is said of a file that is loaded. -/
def loadSuccess (kind : FileKind) (path : Text) (goesOn : Bool) : Output :=
  .tried ("Loaded " ++ kind.name ++ " from " ++ path ++ "\n") loadLabel goesOn

def answerLoad (files : Files) (s : Session) (arguments : Text) : Answer :=
  match loadTarget? arguments with
  | none => s.say ["Usage: load grammar <file> | load model <file>"]
  | some (kind, path) =>
    match load files s path kind with
    | (log, .error e) => s.meet (Transcript.ofLog log) loadFailure (.ofLoad e)
    | (log, .ok s) =>
      ⟨Transcript.ofLog log ++ [loadSuccess kind path true], .go s⟩

def answerAssign (s : Session) (arguments : Text) : Answer :=
  match Text.words arguments with
  | [index, entity] =>
    match Assignment.ofText (index ++ "=" ++ entity) with
    | .error e => s.say ["Error: " ++ e.message]
    | .ok a =>
      if s.model.isEntity (.text a.entity) then
        ⟨[.tried ("Assigned x_" ++ Text.ofInt a.index ++ " = " ++ a.entity ++ "\n") "Error: " true],
          .go { s with model := s.model.assign a.index (.text a.entity) }⟩
      else s.say ["Error: " ++ quoted a.entity ++ " is not an entity of the model."]
  | _ => s.say ["Error: Usage: assign <i> <entity>"]

/-- Evaluate a formula, after what has been put out already. -/
def answerEvaluation (s : Session) (before : Transcript) (f : Formula) : Answer :=
  let before := before ++ Transcript.ofLog (LogLine.ofEvaluation s.model f)
  match s.model.evaluate f with
  | .ok value => ⟨before ++ [.line (truthWord value)], .go s⟩
  | .error e => s.meet before (fun message => .line ("Error: " ++ message)) (.ofEvaluation e)

def answerFormula (s : Session) (text : Text) : Answer :=
  match Formula.read text with
  | .error e => s.say ["Error: " ++ e.message]
  | .ok f => s.answerEvaluation [] f

def answerSentence (s : Session) (evaluates : Bool) (sentence : Text) : Answer :=
  match Parsing.attempt s.lexicon {} sentence s.counters with
  | .error i =>
    let (shown, ending) := concludeInterruption [] i
    ⟨shown, .stop ending⟩
  | .ok o =>
    let s := { s with counters := o.counters }
    let log := Transcript.ofLog (LogLine.ofParse o)
    match o.entry? with
    | none => ⟨log ++ .line (verdictWord false) :: unknownLines o, .go s⟩
    | some entry =>
      let meaning := entry.expression.meaning
      let shown := log ++ (if s.showsDerivation then [.line entry.listingText] else []) ++
        [.line meaning.text]
      if evaluates then s.answerEvaluation shown meaning else ⟨shown, .go s⟩

def answerRequest (files : Files) (s : Session) : Request → Answer
  | .nothing => ⟨[], .go s⟩
  | .quit => ⟨[], .stop .success⟩
  | .help => s.say [helpText]
  | .showLexicon => s.list (lexiconLines s.lexicon)
  | .showModel => s.list (modelLines s.model)
  | .derivation value => s.answerDerivation value
  | .load arguments => answerLoad files s arguments
  | .assign arguments => s.answerAssign arguments
  | .formula text => s.answerFormula text
  | .parse sentence => s.answerSentence false sentence
  | .eval sentence => s.answerSentence true sentence
  | .unknown command =>
    s.say ["Unknown command: " ++ quoted command ++ ". Type 'help' for commands."]

/-- What is said when there is no more input. -/
def farewell : Transcript := [.line ""]

def interrupted : Transcript := [.line "\nInterrupted."]

def answer (files : Files) (s : Session) : Input → Answer
  | .interrupt => ⟨interrupted, .stop .success⟩
  | .line text => answerRequest files s (Request.ofLine text)

/-- Answer all lines, with a prompt before each, until one of them or the end of them ends the
dialogue. -/
def run (files : Files) : Session → List Input → Transcript × Ending
  | _, [] => (prompt :: farewell, .success)
  | s, input :: rest =>
    let a := s.answer files input
    match a.next with
    | .stop ending => (prompt :: a.transcript, ending)
    | .go s =>
      let (more, ending) := run files s rest
      (prompt :: a.transcript ++ more, ending)

/-- What is said of a file that is not there. -/
def absence (kind : FileKind) (path : Text) : Output :=
  let title := match kind with
    | .grammar => "Grammar"
    | .model => "Model"
  .tried (title ++ " file " ++ path ++ " not found, starting with an empty " ++ kind.name ++ ".\n")
    loadLabel false

/-- What is logged when a session begins with the empty grammar or the empty model. -/
def emptyLine : FileKind → LogLine
  | .grammar => (∅ : Lexicon).creationLine
  | .model => (∅ : Model).creationLine

/-- Load what a session begins with from the file of a path if there is one; else the session stays
as it is. -/
def loadInitial (files : Files) (s : Session) (kind : FileKind) (path? : Option Text) :
    Transcript × Except LoadError Session :=
  match path? with
  | none => ([.log (emptyLine kind)], .ok s)
  | some [] => ([.log (emptyLine kind)], .ok s)
  | some path =>
    match files.isThere path with
    | .error e => ([], .error e)
    | .ok false => ([absence kind path, .log (emptyLine kind)], .ok s)
    | .ok true =>
      let (log, loaded) := load files s path kind
      (loadSuccess kind path false :: Transcript.ofLog log, loaded)

/-- A session to begin with; the grammar is loaded before the model. -/
def initial (files : Files) (grammar? model? : Option Text) :
    Transcript × Except LoadError Session :=
  match loadInitial files {} .grammar grammar? with
  | (said, .error e) => (said, .error e)
  | (said, .ok s) =>
    let (more, loaded) := loadInitial files s .model model?
    (said ++ more, loaded)

/-- The beginning of a dialogue: a session to go on with, or the end. -/
def start (files : Files) (grammar? model? : Option Text) : Answer :=
  match initial files grammar? model? with
  | (said, .ok s) => ⟨said ++ [greeting], .go s⟩
  | (said, .error e) =>
    let (shown, ending) := (Obstacle.ofLoad e).conclude said loadFailure
    ⟨shown, .stop ending⟩

end Session

/-- A dialogue with all its input. -/
def runSession (files : Files) (grammar? model? : Option Text) (inputs : List Input) :
    Transcript × Ending :=
  let a := Session.start files grammar? model?
  match a.next with
  | .stop ending => (a.transcript, ending)
  | .go s =>
    let (more, ending) := s.run files inputs
    (a.transcript ++ more, ending)

end CommandLine
end MinimalistGrammar
