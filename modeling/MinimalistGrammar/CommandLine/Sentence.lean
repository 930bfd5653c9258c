import MinimalistGrammar.Chart.Listing
import MinimalistGrammar.CommandLine.Output
import MinimalistGrammar.Model.Assignment

/-! The commands that parse one sentence, and evaluate it. -/
namespace MinimalistGrammar
namespace CommandLine

def truthWord (value : Bool) : Text := if value then "TRUE" else "FALSE"

def verdictWord (isAccepted : Bool) : Text := if isAccepted then "ACCEPTED" else "NO PARSE"

def comparisonWord (isEqual : Bool) : Text := if isEqual then "PASS" else "FAIL"

/-- What there is to say about tokens without an entry. -/
def unknownLines (o : Parsing.Outcome) : Transcript :=
  if o.unknown = [] then []
  else [.line ("  unknown tokens: " ++ Text.join ", " (o.unknown.map quoted))]

/-- The lines of a derivation as a document shows them; a name that holds a line end breaks its
line. -/
def derivationLines (entry : ChartEntry) : List Text := Text.lines entry.listingText

def derivationMembers (entry : ChartEntry) (derivation : Bool) : List (Text × Json) :=
  if derivation then [("derivation", .strings (derivationLines entry))] else []

def entryMembers (entry : ChartEntry) (derivation : Bool) : List (Text × Json) :=
  ("phon", .str entry.expression.phon) :: ("meaning", .str entry.expression.meaning.text) ::
    derivationMembers entry derivation

/-- The result of a parse as a document. -/
def parseDocument (o : Parsing.Outcome) (derivation : Bool) : Json :=
  .obj (List.flatten [
    [("status", .str (if o.isAccepted then "ACCEPTED" else "NO_PARSE")), ("input", .str o.text),
      ("tokens", .strings o.tokens), ("chart_size", .int o.chart.size), ("steps", .int o.steps)],
    o.entry?.elim [] (entryMembers · derivation),
    if o.unknown = [] then [] else [("unknown_tokens", .strings o.unknown)]])

/-- The result of a parse as lines. -/
def parseLines (o : Parsing.Outcome) (derivation : Bool) : Transcript :=
  match o.entry? with
  | none => .line (verdictWord false) :: unknownLines o
  | some entry =>
    [.line (verdictWord true),
      .line ("  phon:    " ++ entry.expression.phon),
      .line ("  meaning: " ++ entry.expression.meaning.text)] ++
      if derivation then
        .line "\nDerivation:" :: (derivationLines entry).map fun line => .line ("  " ++ line)
      else []

/-- A lexicon from the file that is given, if one is. -/
def loadGrammar (files : Files) (path? : Option Text) : List LogLine × Except Obstacle Lexicon :=
  let (log, loaded) := path?.elim ([], .error .noPath) files.loadGrammar
  (log, loaded.mapError .ofLoad)

/-- A model from the file that is given, if one is. -/
def loadModel (files : Files) (path? : Option Text) : List LogLine × Except Obstacle Model :=
  let (log, loaded) := path?.elim ([], .error .noPath) files.loadModel
  (log, loaded.mapError .ofLoad)

/-- A parse that broke off ends the command. -/
def concludeInterruption (before : Transcript) (i : Parsing.Interruption) : Transcript × Ending :=
  (before ++ Transcript.ofLog (LogLine.ofParseMessages i.messages), .defect (.parsing i.breakdown))

/-- Parse a sentence and show the result. -/
def runParse (files : Files) (grammar? : Option Text) (sentence : Text) (derivation json : Bool) :
    Transcript × Ending :=
  let (log, loaded) := loadGrammar files grammar?
  match loaded with
  | .error obstacle =>
    obstacle.conclude (Transcript.ofLog log) fun message =>
      .error json ("Cannot load grammar " ++ grammar?.getD [] ++ ": " ++ message)
  | .ok lexicon =>
    match Parsing.attempt lexicon {} sentence {} with
    | .error i => concludeInterruption (Transcript.ofLog log) i
    | .ok o =>
      let shown := if json then [.document (parseDocument o derivation)] else parseLines o derivation
      let told : LogLine := ⟨.info, "pymgsem.cli.parse",
        "Parse " ++ quoted sentence ++ ": " ++ verdictWord o.isAccepted ++ o.sizes⟩
      (Transcript.ofLog (log ++ LogLine.ofParse o) ++ shown ++ [.log told], .success)

/-- Assignments one after the other, as far as they have values. -/
def assignGiven (m : Model) (given : List (Option Text)) : Except Obstacle Model :=
  given.foldlM (fun m text? =>
    text?.elim (.error (.defect .missingAssignment)) fun text =>
      (m.assignText text).mapError fun e => .failure e.message) m

/-- What an evaluation starts from. -/
def loadBoth (files : Files) (grammar? model? : Option Text) (assignments : List (Option Text)) :
    List LogLine × Except Obstacle (Lexicon × Model) :=
  match loadGrammar files grammar? with
  | (log, .error obstacle) => (log, .error obstacle)
  | (log, .ok lexicon) =>
    let (more, loaded) := loadModel files model?
    (log ++ more, do return (lexicon, ← assignGiven (← loaded) assignments))

def comparisonMembers (value expected : Bool) : List (Text × Json) :=
  [("expected", .bool expected), ("status", .str (comparisonWord (value = expected)))]

/-- The result of an evaluation as a document. -/
def evaluationDocument (sentence : Text) (entry : ChartEntry) (value : Bool)
    (expected? : Option Bool) (derivation : Bool) : Json :=
  .obj (List.flatten [
    [("input", .str sentence), ("meaning", .str entry.expression.meaning.text),
      ("value", .bool value)],
    expected?.elim [] (comparisonMembers value),
    derivationMembers entry derivation])

/-- The result of an evaluation as lines. -/
def evaluationLines (entry : ChartEntry) (value : Bool) (expected? : Option Bool)
    (derivation : Bool) : Transcript :=
  (if derivation then [.line entry.listingText] else []) ++
    [.line entry.expression.meaning.text, .line (truthWord value)] ++
    match expected? with
    | none => []
    | some expected => [.line (comparisonWord (value = expected))]

/-- Evaluate a sentence that has a parse, and show the result. -/
def showEvaluation (sentence : Text) (m : Model) (entry : ChartEntry) (expected? : Option Bool)
    (derivation json : Bool) : Transcript × Ending :=
  let meaning := entry.expression.meaning
  let log := Transcript.ofLog (LogLine.ofEvaluation m meaning)
  match m.evaluate meaning with
  | .error e =>
    (Obstacle.ofEvaluation e).conclude log fun message =>
      .error json ("Cannot evaluate " ++ meaning.text ++ ": " ++ message)
  | .ok value =>
    let shown :=
      if json then [.document (evaluationDocument sentence entry value expected? derivation)]
      else evaluationLines entry value expected? derivation
    let told : LogLine := ⟨.info, "pymgsem.cli.evaluate",
      "Eval " ++ quoted sentence ++ ": " ++ meaning.text ++ " = " ++
        if value then "True" else "False"⟩
    (log ++ shown ++ [.log told],
      if expected?.all (· = value) then .success else .mismatch)

/-- Parse a sentence, evaluate it in a model, and compare the value with an expected one. -/
def runEval (files : Files) (grammar? model? : Option Text) (sentence : Text)
    (assignments : List (Option Text)) (expected? : Option Bool) (derivation json : Bool) :
    Transcript × Ending :=
  let (log, loaded) := loadBoth files grammar? model? assignments
  match loaded with
  | .error obstacle => obstacle.conclude (Transcript.ofLog log) (.error json)
  | .ok (lexicon, m) =>
    match Parsing.attempt lexicon {} sentence {} with
    | .error i => concludeInterruption (Transcript.ofLog log) i
    | .ok o =>
      let before := Transcript.ofLog (log ++ LogLine.ofParse o)
      match o.entry? with
      | none => (before ++ [.error json ("No parse for " ++ quoted sentence)], .failure)
      | some entry =>
        let (shown, ending) := showEvaluation sentence m entry expected? derivation json
        (before ++ shown, ending)

end CommandLine
end MinimalistGrammar
