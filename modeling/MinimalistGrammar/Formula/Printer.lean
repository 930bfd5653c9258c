import MinimalistGrammar.Formula.Name
import MinimalistGrammar.Json.Display

/-! The written form of formulas. Conjunction associates to the right, so only a conjunction on the
left stands in brackets. -/
namespace MinimalistGrammar
namespace Formula

/-- The formula as text. -/
def text : Formula → Text
  | const name => writeName name
  | var index => "x_" ++ Text.ofInt index
  | internal operand => "int(" ++ operand.text ++ ")"
  | indexed index operand => "int_" ++ Text.ofInt index ++ "(" ++ operand.text ++ ")"
  | external operand => "ext(" ++ operand.text ++ ")"
  | and (and a b) right => "(" ++ (and a b).text ++ ") & " ++ right.text
  | and left right => left.text ++ " & " ++ right.text
  | close operand => "<" ++ operand.text ++ ">"
  | quantifier kind => kind
  | foreign value => value.plain

example : (and (and (const "some") (quantifier "some")) (indexed (-1) (const "girl"))).text =
    "(\"some\" & some) & int_-1(girl)" := by decide +kernel

end Formula
end MinimalistGrammar
