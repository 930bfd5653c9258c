import MinimalistGrammar.Text.CodePoint

/-! The lines of a text, which may end in any of the line ends of Unicode. -/
namespace MinimalistGrammar
namespace Text

/-- Line feed, vertical tab, form feed, carriage return, the three larger information separators,
next line, line separator and paragraph separator. -/
def isLineEnd (c : CodePoint) : Bool :=
  let n := c.toNat
  (0x0a ≤ n && n ≤ 0x0d) || (0x1c ≤ n && n ≤ 0x1e) || n == 0x85 || n == 0x2028 || n == 0x2029

/-- Lines without their ends, after a begun line whose characters come in reverse; a carriage return
and a line feed after it are one end, and nothing after the last end is no line. -/
def linesFrom (begun : Text) : Text → List Text
  | [] => if begun = [] then [] else [begun.reverse]
  | .char '\r' :: .char '\n' :: s => begun.reverse :: linesFrom [] s
  | c :: s => if isLineEnd c then begun.reverse :: linesFrom [] s else linesFrom (c :: begun) s

def lines (s : Text) : List Text := linesFrom [] s

/-- Every line end of a file read as text becomes a line feed. -/
def unifyLineEnds : Text → Text
  | [] => []
  | .char '\r' :: .char '\n' :: s => '\n' :: unifyLineEnds s
  | c :: s => (if c = '\r' then ('\n' : CodePoint) else c) :: unifyLineEnds s

end Text

end MinimalistGrammar
