import MinimalistGrammar.Expression.Basic

/-! Merging: a head checks its outer licensor against the one child whose outer licensee matches,
and takes it as an argument. -/
namespace MinimalistGrammar
namespace Expression

/-- The whole feature list is one licensee of the category. -/
def isFinal (category : Text) (e : Expression) : Bool := e.features = [⟨.licensee, category⟩]

/-- Take the only child that has nothing left but the licensee. Its own children pass on to the
head. The token of the argument is the one given, else the sound of the child. -/
def mergeFinal? (token? : Option Text) (e : Expression) : Option Expression :=
  match e.features with
  | ⟨.licensor, category⟩ :: features =>
    match e.children.filter (isFinal category) with
    | [child] =>
      some { e with
        kind := .derived
        features := features
        arguments := ⟨token?.getD child.phon, category, child.meaning⟩ :: e.arguments
        children := e.children.filter (!isFinal category ·) ++ child.children }
    | _ => none
  | _ => none

/-- A lexical head takes its complement. -/
def mergeComplement? (e : Expression) : Option Expression :=
  if e.kind = .lexical then e.mergeFinal? none else none

/-- A derived head takes its specifier, which is not pronounced here. -/
def mergeSpecifier? (e : Expression) : Option Expression :=
  if e.kind = .derived then e.mergeFinal? (some Argument.placeholder) else none

/-- The meaning that a child leaves where it is merged and moves on from. A quantifier phrase leaves
the variable that it binds, and none before it is spelled out. -/
def traceMeaning? (meaning : Formula) : Option Formula :=
  if meaning.isQuantificational then meaning.boundIndex?.map .var else some meaning

/-- Check one feature of the only child with the matching licensee, if that child has more features;
it stays attached and can move on. -/
def mergeMover? (e : Expression) : Option Expression :=
  match e.features with
  | ⟨.licensor, category⟩ :: features =>
    match e.children.filter (·.outerIsOf .licensee category) with
    | [child] =>
      if child.features.length < 2 then none
      else
        (traceMeaning? child.meaning).map fun meaning =>
          { e with
            kind := .derived
            features := features
            arguments := ⟨child.phon, category, meaning⟩ :: e.arguments
            children := e.children.map fun c =>
              if c.outerIsOf .licensee category then { c with features := c.features.tail } else c }
    | _ => none
  | _ => none

end Expression
end MinimalistGrammar
