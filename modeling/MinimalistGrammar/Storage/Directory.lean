import MinimalistGrammar.Storage.Files

/-! A directory that holds some files and nothing else. It lies in the directory for temporary files
of a system that is otherwise known by its usual directories only. -/
namespace MinimalistGrammar

/-- Where a path has led so far. -/
inductive Place where
  /-- In the directory, some steps from it. -/
  | inside (steps : List Text)
  /-- Some steps from the root. -/
  | fromRoot (steps : List Text)
  deriving DecidableEq, Repr

/-- Files by the steps that lead to them. A directory is what a file lies in. -/
abbrev FileTree := List (List Text × Text)

namespace FileTree

def ofList (entries : List (Text × Text)) : FileTree :=
  entries.map fun (path, content) =>
    ((Text.splitOn '/' path).filter (!Path.isIdle ·), content)

def state (tree : FileTree) (steps : List Text) : FileState :=
  match tree.find? (·.1 = steps) with
  | some entry => .text entry.2
  | none =>
    if steps = [] ∨ tree.any fun entry => steps.isPrefixOf entry.1 then .directory else .missing

end FileTree

/-- The directories in the root. -/
def systemDirectories : List Text :=
  ["bin", "boot", "dev", "etc", "home", "lib", "media", "mnt", "opt", "proc", "root", "run", "sbin",
    "srv", "sys", "tmp", "usr", "var"]

namespace Place

/-- What is at a place. -/
def state (tree : FileTree) : Place → FileState
  | inside steps => tree.state steps
  | fromRoot [] => .directory
  | fromRoot [step] => if step ∈ systemDirectories then .directory else .missing
  | fromRoot steps => if steps = (["dev", "null"] : List Text) then .text [] else .missing

/-- One step up. The root is above itself. -/
def up : Place → Place
  | inside [] => fromRoot ["tmp"]
  | inside steps => inside steps.dropLast
  | fromRoot steps => fromRoot steps.dropLast

def down (step : Text) : Place → Place
  | inside steps => inside (steps ++ [step])
  | fromRoot steps => fromRoot (steps ++ [step])

/-- What the rest of a path leads to. Every step goes on from a directory. -/
def follow (tree : FileTree) : Place → List Text → FileState
  | place, [] => place.state tree
  | place, step :: rest =>
    match place.state tree with
    | .directory =>
      if Path.isIdle step then follow tree place rest
      else if step = ".." then follow tree place.up rest
      else if Path.stepLimit < Text.size step then .nameTooLong
      else follow tree (place.down step) rest
    | .text _ => .behindFile
    | other => other

end Place

/-- The files of a directory as they are seen from there. -/
def Files.ofList (entries : List (Text × Text)) : Files := fun path =>
  if path = [] then .missing
  else if Path.sizeLimit ≤ Text.size path then .nameTooLong
  else
    let start := if path.head? = some (.char '/') then Place.fromRoot [] else .inside []
    start.follow (.ofList entries) (Text.splitOn '/' path)

end MinimalistGrammar
