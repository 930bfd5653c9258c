import MinimalistGrammar.Chart.Entry

/-! The derivation of a chart entry as numbered lines, each source before what is made of it. -/
namespace MinimalistGrammar
namespace ChartEntry

def label (number : Nat) : Text := "e" ++ Text.ofNat number

/-- The line of an entry under its number, with the labels of its sources. -/
def line (number : Nat) (operator? : Option Text) (labels : List Text)
    (expression : Expression) : Text :=
  match operator? with
  | none => label number ++ " = " ++ expression.text
  | some operator =>
    label number ++ " = " ++ operator ++ "(" ++ Text.join ", " labels ++ ") = " ++ expression.text

mutual
/-- The lines of a derivation, numbered from a given number on; the last line is the entry. -/
def linesFrom (next : Nat) : ChartEntry → List Text
  | ⟨_, expression, operator?, sources, _⟩ =>
    let (before, labels) := sourceLinesFrom next sources
    before ++ [line (next + before.length) operator? labels expression]

/-- The lines of several derivations, and the label of the last line of each. -/
def sourceLinesFrom (next : Nat) : List ChartEntry → List Text × List Text
  | [] => ([], [])
  | source :: rest =>
    let first := linesFrom next source
    let (more, labels) := sourceLinesFrom (next + first.length) rest
    (first ++ more, label (next + first.length - 1) :: labels)
end

/-- The lines of the derivation of an entry. -/
def listing (entry : ChartEntry) : List Text := linesFrom 0 entry

/-- The lines as one text. -/
def listingText (entry : ChartEntry) : Text := Text.join "\n" entry.listing

end ChartEntry
end MinimalistGrammar
