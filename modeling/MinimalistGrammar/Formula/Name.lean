import MinimalistGrammar.Text.Blank
import MinimalistGrammar.Text.Integer
import MinimalistGrammar.Formula.Basic

/-! Names of constants in the written form of formulas, and the words that are no names: variables,
quantifiers, and whatever holds a reserved character. Such a word names a constant in quotes. -/
namespace MinimalistGrammar
namespace Formula

/-- The characters with a meaning of their own. -/
def isReserved (c : CodePoint) : Bool :=
  c = '(' || c = ')' || c = '<' || c = '>' || c = '&' || c = '"'

/-- A number at the beginning of a text, and what is left after it. -/
def splitNumber? (s : Text) : Option (Nat × Text) :=
  match s.takeWhile Text.isDigit with
  | [] => none
  | digits => some (Text.digitsValue 0 digits, s.dropWhile Text.isDigit)

/-- An index at the beginning of a text, which may be negative, and what is left after it. -/
def splitIndex? : Text → Option (Int × Text)
  | .char '-' :: s => (splitNumber? s).map fun (n, rest) => (-(n : Int), rest)
  | s => (splitNumber? s).map fun (n, rest) => ((n : Int), rest)

/-- The index of a variable. -/
def readVariable? : Text → Option Int
  | .char 'x' :: .char '_' :: s =>
    match splitIndex? s with
    | some (index, []) => some index
    | _ => none
  | _ => none

/-- A bare name would be read as something else than the constant of that name. -/
def needsQuotes (name : Text) : Bool :=
  name = [] || Text.trim name ≠ name || name = existential || name = universal ||
    (readVariable? name).isSome || name.any isReserved

/-- A backslash before each quote and each backslash. -/
def escapeName : Text → Text
  | [] => []
  | c :: s => if c = '"' ∨ c = '\\' then '\\' :: c :: escapeName s else c :: escapeName s

def writeName (name : Text) : Text :=
  if needsQuotes name then Text.enclose '"' '"' (escapeName name) else name

/-- A quoted name after its opening quote; the closing quote ends the text. -/
def readQuoted? : Text → Option Text
  | [] => none
  | .char '"' :: s => if s = [] then some [] else none
  | [.char '\\'] => none
  | .char '\\' :: c :: s => (readQuoted? s).map (c :: ·)
  | c :: s => (readQuoted? s).map (c :: ·)

@[simp] theorem readQuoted?_escapeName (name : Text) :
    readQuoted? (escapeName name ++ [.char '"']) = some name := by
  induction name with
  | nil => rfl
  | cons c s ih =>
    by_cases h : c = '"' ∨ c = '\\'
    · simp [escapeName, h, readQuoted?, ih]
    · obtain ⟨hq, hb⟩ := not_or.mp h
      rw [escapeName, if_neg h, List.cons_append, readQuoted?.eq_5 _ _ (by simpa using hq)
        (by simp [hb]) (by simp [hb]), ih]
      rfl

end Formula
end MinimalistGrammar
