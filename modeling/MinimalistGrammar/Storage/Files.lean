import MinimalistGrammar.Grammar.Document
import MinimalistGrammar.Json.Reader
import MinimalistGrammar.Json.Writer
import MinimalistGrammar.Model.Document
import MinimalistGrammar.Storage.Log
import MinimalistGrammar.Storage.Path
import MinimalistGrammar.Text.Lines

/-! Lexicons and models in files. -/
namespace MinimalistGrammar

/-- An error of the system, with its number. -/
structure SystemError where
  code : Nat
  reason : String
  deriving DecidableEq, Repr

/-- What a path leads to. -/
inductive FileState where
  | text (content : Text)
  /-- A file whose bytes are no text. -/
  | undecodable (error : DecodingError)
  | directory
  | missing
  /-- The path goes on behind a file. -/
  | behindFile
  /-- The path or a step of it is longer than the system allows. -/
  | nameTooLong
  /-- The path cannot be opened. The question whether something is there may be answered all the
  same. -/
  | refused (isThere? : Option Bool) (error : SystemError)
  deriving DecidableEq, Repr

/-- The state of a file with these bytes. -/
def FileState.ofBytes (bytes : ByteArray) : FileState :=
  match DecodingError.find? bytes.toList with
  | some error => .undecodable error
  | none => .text ((String.fromUTF8? bytes).getD "" : String)

/-- The files that can be read. -/
abbrev Files := Text → FileState

inductive FileFault where
  | missing
  | isDirectory
  | notADirectory
  | nameTooLong
  deriving DecidableEq, Repr

structure FileError where
  fault : FileFault
  path : Text
  deriving DecidableEq, Repr

def FileFault.message : FileFault → Text
  | .missing => "[Errno 2] No such file or directory: "
  | .isDirectory => "[Errno 21] Is a directory: "
  | .notADirectory => "[Errno 20] Not a directory: "
  | .nameTooLong => "[Errno 36] File name too long: "

def FileError.message (e : FileError) : Text := e.fault.message ++ quoted e.path

/-- Why there is no document in a file. -/
inductive DocumentError where
  | system (error : SystemError) (path : Text)
  | decoding (error : DecodingError)
  | json (error : Json.ReadError)
  deriving DecidableEq, Repr

def DocumentError.message : DocumentError → Text
  | system error path =>
    "[Errno " ++ Text.ofNat error.code ++ "] " ++ error.reason ++ ": " ++ quoted path
  | decoding error => error.message
  | json error => error.message

/-- Why a grammar or a model cannot be loaded. -/
inductive LoadError where
  /-- There is no path. -/
  | noPath
  | pathEncoding (error : EncodingError)
  | nullInPath
  | file (error : FileError)
  /-- There is no document in the file. -/
  | json (error : DocumentError)
  | grammar (error : GrammarError)
  | model (error : ModelError)

/-- The message, for the errors that have one. -/
def LoadError.message? : LoadError → Option Text
  | noPath => none
  | pathEncoding error => some error.message
  | nullInPath => some "embedded null byte"
  | file error => some error.message
  | json error => some error.message
  | grammar error => error.message?
  | model error => error.message?

namespace Files

/-- Whether something is where a path leads to, idle steps aside. A path that is too long is an
error. -/
def isThere (files : Files) (path : Text) : Except LoadError Bool :=
  let path := Path.normalize path
  if Path.isPossible path then
    match files path with
    | .text _ => .ok true
    | .undecodable _ => .ok true
    | .directory => .ok true
    | .missing => .ok false
    | .behindFile => .ok false
    | .nameTooLong => .error (.file ⟨.nameTooLong, path⟩)
    | .refused (some found) _ => .ok found
    | .refused none error => .error (.json (.system error path))
  else .ok false

def readText (files : Files) (path : Text) : Except LoadError Text :=
  match EncodingError.find? Path.isByte path, Path.hasNull path, files path with
  | some error, _, _ => .error (.pathEncoding error)
  | none, true, _ => .error .nullInPath
  | none, false, .text content => .ok (Text.unifyLineEnds content)
  | none, false, .undecodable error => .error (.json (.decoding error))
  | none, false, .directory => .error (.file ⟨.isDirectory, path⟩)
  | none, false, .missing => .error (.file ⟨.missing, path⟩)
  | none, false, .behindFile => .error (.file ⟨.notADirectory, path⟩)
  | none, false, .nameTooLong => .error (.file ⟨.nameTooLong, path⟩)
  | none, false, .refused _ error => .error (.json (.system error path))

def readDocument (files : Files) (path : Text) : Except LoadError Json := do
  (Json.read (← files.readText path)).mapError fun error => .json (.json error)

/-- A lexicon from a file, and what is logged meanwhile. -/
def loadGrammar (files : Files) (path : Text) : List LogLine × Except LoadError Lexicon :=
  match files.readDocument path with
  | .error e => ([], .error e)
  | .ok document =>
    let loaded := LogLine.ofGrammar ("Loaded grammar from " ++ path)
    match Lexicon.ofDocument document with
    | .error e => ([loaded], .error (.grammar e))
    | .ok l => ([loaded, l.creationLine], .ok l)

/-- A model from a file, and what is logged meanwhile. -/
def loadModel (files : Files) (path : Text) : List LogLine × Except LoadError Model :=
  match files.readDocument path with
  | .error e => ([], .error e)
  | .ok document =>
    let loaded := LogLine.ofModel ("Loaded model from " ++ path)
    match Model.ofDocument document with
    | .error e => ([loaded], .error (.model e))
    | .ok m => ([loaded, m.creationLine], .ok m)

end Files

/-- Why something cannot be saved. -/
inductive SaveError where
  /-- A set cannot be put in order. -/
  | noOrder
  | encoding (error : EncodingError)
  deriving DecidableEq, Repr

def SaveError.message? : SaveError → Option Text
  | noOrder => none
  | encoding error => some error.message

/-- The text of a document in a file. -/
def Json.save (document : Json) : Except SaveError Text :=
  match document.encodingError? with
  | some error => .error (.encoding error)
  | none => .ok document.indented

/-- What is written to a file, and what is logged then. -/
def Lexicon.save (l : Lexicon) (path : Text) : Except SaveError (Text × LogLine) := do
  return (← l.toDocument.save, .ofGrammar ("Saved grammar to " ++ path))

/-- What is written to a file, and what is logged then. -/
def Model.save (m : Model) (path : Text) : Except SaveError (Text × LogLine) := do
  let document ← m.toDocument?.elim (.error .noOrder) .ok
  return (← document.save, .ofModel ("Saved model to " ++ path))

end MinimalistGrammar
