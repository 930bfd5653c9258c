import MinimalistGrammar.Text.Encoding

/-! Paths: steps with slashes between them. -/
namespace MinimalistGrammar
namespace Path

/-- A step that stays where it is. -/
def isIdle (step : Text) : Bool := step = [] || step = "."

/-- The slashes that a path from the root begins with: one, unless there are exactly two. -/
def rootOf (path : Text) : Text :=
  match (path.takeWhile (· = .char '/')).length with
  | 0 => ""
  | 2 => "//"
  | _ => "/"

/-- The path without idle steps. -/
def normalize (path : Text) : Text :=
  let steps := (Text.splitOn '/' path).filter (!isIdle ·)
  match rootOf path ++ Text.join "/" steps with
  | [] => "."
  | shortened => shortened

/-- The halves that stand for bytes in a path. -/
def isByte (c : CodePoint) : Bool := 0xdc80 ≤ c.toNat && c.toNat ≤ 0xdcff

def hasNull (path : Text) : Bool := path.contains (.char '\x00')

/-- The path can be given to the system. -/
def isPossible (path : Text) : Bool :=
  (EncodingError.find? isByte path).isNone && !hasNull path

/-- The number of bytes that a path must stay below. -/
def sizeLimit : Nat := 4096

/-- The number of bytes that a step may have. -/
def stepLimit : Nat := 255

end Path
end MinimalistGrammar
