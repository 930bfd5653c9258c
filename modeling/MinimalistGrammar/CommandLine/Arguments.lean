import MinimalistGrammar.Text.Digit
import MinimalistGrammar.Text.Quoted

/-! Reading the arguments of a command by a description of its options. A long option may be cut
short while it stays clear which one is meant, and its value may follow an equals sign; the value
of a short option may follow at once, and short options without values may share one dash. Two
dashes alone end the options. -/
namespace MinimalistGrammar
namespace CommandLine

inductive OptionEffect where
  | help
  | version
  | flag
  /-- The option takes a value, which may have to be one of some choices. -/
  | value (choices : List Text)
  deriving DecidableEq, Repr

structure OptionSpec where
  names : List Text
  key : Text
  effect : OptionEffect
  isRequired : Bool := false
  deriving DecidableEq, Repr

namespace OptionSpec

def takesValue (o : OptionSpec) : Bool :=
  match o.effect with
  | .value _ => true
  | _ => false

/-- All names of the option. -/
def title (o : OptionSpec) : Text := Text.join "/" o.names

end OptionSpec

/-- What a command takes besides options. -/
inductive Positional where
  | nothing
  | one (name : Text)
  /-- A command of its own, which takes all arguments after it. -/
  | command
  deriving DecidableEq, Repr

/-- Why the reading of arguments ends early. -/
inductive Stop where
  | help
  | version
  | usage (message : Text)
  deriving DecidableEq, Repr

/-- An argument that begins like an option: the option that it names, under which name, and the
value that it brings along. -/
structure OptionUse where
  spec? : Option OptionSpec
  name : Text
  attached? : Option Text := none

inductive Word where
  /-- The first two dashes alone. -/
  | separator
  | argument (text : Text)
  | option (text : Text) (use : OptionUse)

namespace Word

def text : Word → Text
  | separator => "--"
  | argument text => text
  | option text _ => text

def isOption : Word → Bool
  | option _ _ => true
  | _ => false

end Word

/-- Whether an argument looks like a negative number, which is no option. -/
def isNegativeNumber (s : Text) : Bool :=
  match if s.getLast? = some (.char '\n') then s.dropLast else s with
  | .char '-' :: s =>
    match s.dropWhile Text.isDigit with
    | [] => s ≠ []
    | .char '.' :: fraction => fraction ≠ [] && fraction.all Text.isDigit
    | _ => false
  | _ => false

/-- The name before an equals sign, and the value behind it. -/
def splitEquals (s : Text) : Text × Option Text :=
  (s.takeWhile (· ≠ .char '='), (s.dropWhile (· ≠ .char '=')).tail?)

/-- Every name of an option together with the option. -/
def namedOptions (options : List OptionSpec) : List (Text × OptionSpec) :=
  options.flatMap fun o => o.names.map fun name => (name, o)

/-- The options that an argument may mean: by the beginning of a long name, or by a short name. -/
def optionUses (options : List OptionSpec) (s : Text) : List OptionUse :=
  match s with
  | .char '-' :: .char '-' :: _ =>
    let (name, value?) := splitEquals s
    (namedOptions options).filterMap fun (full, o) =>
      if name.isPrefixOf full then some ⟨some o, full, value?⟩ else none
  | _ =>
    (namedOptions options).filterMap fun (full, o) =>
      if full = s.take 2 then some ⟨some o, full, some (s.drop 2)⟩
      else if s.isPrefixOf full then some ⟨some o, full, none⟩
      else none

/-- The option that an argument names in full, be it before an equals sign. -/
def exactUse? (options : List OptionSpec) (s : Text) : Option OptionUse :=
  let named (name : Text) (value? : Option Text) : Option OptionUse :=
    ((namedOptions options).lookup name).map fun o => ⟨some o, name, value?⟩
  let (name, value?) := splitEquals s
  named s none <|> if value?.isSome then named name value? else none

/-- What an argument is, before the two dashes that end the options. -/
def classify (options : List OptionSpec) (s : Text) : Except Stop Word :=
  if s.head? ≠ some (.char '-') ∨ s.length = 1 then .ok (.argument s)
  else
    match exactUse? options s with
    | some use => .ok (.option s use)
    | none =>
      match optionUses options s with
      | [use] => .ok (.option s use)
      | [] =>
        if isNegativeNumber s || s.contains (.char ' ') then .ok (.argument s)
        else .ok (.option s ⟨none, s, none⟩)
      | uses =>
        .error (.usage ("ambiguous option: " ++ s ++ " could match " ++
          Text.join ", " (uses.map OptionUse.name)))

/-- All arguments as words. -/
def classifyAll (options : List OptionSpec) : List Text → Except Stop (List Word)
  | [] => .ok []
  | text :: rest =>
    if text = Word.separator.text then .ok (.separator :: rest.map .argument)
    else do
      let word ← classify options text
      let words ← classifyAll options rest
      return word :: words

/-- What has been read: the options by key with their values, the positional arguments, and the
words that have no place. An option may be given without a value. -/
structure Reading where
  given : List (Text × Option Text) := []
  positional? : Option (List Text) := none
  extras : List Text := []

namespace Reading

def has (r : Reading) (key : Text) : Bool := r.given.any (·.1 = key)

/-- What an option is given with, each time that it is given. -/
def values (r : Reading) (key : Text) : List (Option Text) :=
  (r.given.filter (·.1 = key)).map (·.2)

/-- The value of an option where it is given last. -/
def value? (r : Reading) (key : Text) : Option Text := (r.values key).getLast?.join

end Reading

/-- The message of a fault with an option. -/
def optionFault {α : Type} (o : OptionSpec) (message : Text) : Except Stop α :=
  .error (.usage ("argument " ++ o.title ++ ": " ++ message))

def ignoredValue {α : Type} (o : OptionSpec) (value : Text) : Except Stop α :=
  optionFault o ("ignored explicit argument " ++ quoted value)

/-- Flags that share one dash, and the option behind them with the value that it brings along. -/
structure Cluster where
  flags : List OptionSpec := []
  last : OptionSpec
  value? : Option Text := none

/-- Resolve an option that brings a value along. Behind a flag of one letter the value is more
letters. -/
def readCluster (options : List OptionSpec) (o : OptionSpec) (isLong : Bool) :
    Text → Except Stop Cluster
  | [] => if o.takesValue then .ok { last := o, value? := some [] } else ignoredValue o []
  | c :: rest =>
    if o.takesValue then .ok { last := o, value? := some (c :: rest) }
    else
      match if isLong then none else (namedOptions options).lookup [.char '-', c] with
      | none => ignoredValue o (c :: rest)
      | some next =>
        if rest = [] then .ok { flags := [o], last := next }
        else
          (readCluster options next false rest).map fun cluster =>
            { cluster with flags := o :: cluster.flags }

/-- Act on an option and its value. -/
def act (r : Reading) (o : OptionSpec) (value? : Option Text) : Except Stop Reading :=
  let done := { r with given := r.given ++ [(o.key, value?)] }
  match o.effect, value? with
  | .help, _ => .error .help
  | .version, _ => .error .version
  | .value choices, some value =>
    if choices ≠ [] ∧ value ∉ choices then
      optionFault o ("invalid choice: " ++ quoted value ++ " (choose from " ++
        Text.join ", " (choices.map quoted) ++ ")")
    else .ok done
  | _, _ => .ok done

/-- The value of the last option of a cluster, and the words that are left. It is taken from the
words if the option brings none along. Two dashes alone are no value. -/
def takeValue (c : Cluster) (words : List Word) : Except Stop (Option Text × List Word) :=
  match c.value?, c.last.takesValue, words with
  | some value, _, words => .ok (if value = Word.separator.text then none else some value, words)
  | none, false, words => .ok (none, words)
  | none, true, .argument value :: rest => .ok (some value, rest)
  | none, true, _ => optionFault c.last "expected one argument"

/-- Read an option with the words after it. Everything about it is clear before it is acted on. The
result holds the words that are left. -/
def readOption (options : List OptionSpec) (r : Reading) (text : Text) (use : OptionUse)
    (rest : List Word) : Except Stop (Reading × List Word) :=
  match use.spec? with
  | none => .ok ({ r with extras := r.extras ++ [text] }, rest)
  | some o => do
    let isLong := use.name.take 2 = Word.separator.text
    let cluster ← use.attached?.elim (.ok { last := o }) (readCluster options o isLong)
    let (value?, rest) ← takeValue cluster rest
    let r ← cluster.flags.foldlM (fun r flag => act r flag none) r
    return (← act r cluster.last value?, rest)

/-- The positional arguments at the beginning of some words, and the words that are left. A
separator beside the one argument is dropped; before a command it is taken for the command. -/
def readPositional? (positional : Positional) (words : List Word) :
    Option (List Text × List Word) :=
  match positional, words with
  | .one _, .separator :: .argument text :: rest => some ([text], rest)
  | .one _, .argument text :: .separator :: rest => some ([text], rest)
  | .one _, .argument text :: rest => some ([text], rest)
  | .command, .separator :: .argument _ :: _ => some (words.map Word.text, [])
  | .command, .argument _ :: _ => some (words.map Word.text, [])
  | _, _ => none

/-- Read all words. The first argument bounds their number. -/
def readWords (options : List OptionSpec) (positional : Positional) :
    Nat → Reading → List Word → Except Stop Reading
  | 0, r, _ => .ok r
  | _, r, [] => .ok r
  | bound + 1, r, .option text use :: rest => do
    let (r, rest) ← readOption options r text use rest
    readWords options positional bound r rest
  | bound + 1, r, words =>
    match if r.positional?.isSome then none else readPositional? positional words with
    | some (texts, rest) =>
      readWords options positional bound { r with positional? := some texts } rest
    | none =>
      let loose := words.takeWhile (!·.isOption)
      readWords options positional bound { r with extras := r.extras ++ loose.map Word.text }
        (words.drop loose.length)

/-- The titles of what is required and not given. -/
def missing (options : List OptionSpec) (positional : Positional) (r : Reading) : List Text :=
  (options.filter fun o => o.isRequired && !r.has o.key).map OptionSpec.title ++
    match positional, r.positional? with
    | .one name, none => [name]
    | _, _ => []

/-- Read the arguments of a command; what is required must be given. -/
def readArguments (options : List OptionSpec) (positional : Positional) (arguments : List Text) :
    Except Stop Reading := do
  let words ← classifyAll options arguments
  let r ← readWords options positional words.length {} words
  let absent := missing options positional r
  if absent = [] then return r
  else throw (.usage ("the following arguments are required: " ++ Text.join ", " absent))

end CommandLine
end MinimalistGrammar
