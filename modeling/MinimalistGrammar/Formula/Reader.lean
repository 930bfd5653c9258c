import MinimalistGrammar.Text.Quoted
import MinimalistGrammar.Formula.Name

/-! Reading formulas. A text is taken apart at the first `&` outside all brackets, else it is an
operator with an operand in brackets, else a quoted or bare name. Both kinds of brackets are counted
together, and nothing inside quotes counts. -/
namespace MinimalistGrammar
namespace Formula

inductive ReadFault where
  | unterminatedQuote
  | unbalancedBrackets
  | conjunction
  | noOperand
  | malformed
  deriving DecidableEq, Repr

/-- A fault and the part of the text that has it. -/
structure ReadError where
  fault : ReadFault
  text : Text
  deriving DecidableEq, Repr

def ReadFault.message : ReadFault → Text
  | .unterminatedQuote => "Unterminated quoted constant in: "
  | .unbalancedBrackets => "Unbalanced brackets in: "
  | .conjunction => "Malformed conjunction in: "
  | .noOperand => "Operator with no operand in: "
  | .malformed => "Malformed formula: "

def ReadError.message (e : ReadError) : Text :=
  e.fault.message ++ quoted e.text

/-- Where a character of a text stands: outside quotes, inside, or inside behind a backslash. -/
inductive Place where
  | outside
  | inside
  | escaped
  deriving DecidableEq, Repr

/-- The place after a character. -/
def Place.next (c : CodePoint) : Place → Place
  | outside => if c = '"' then inside else outside
  | inside => if c = '"' then outside else if c = '\\' then escaped else inside
  | escaped => inside

def isOpening (c : CodePoint) : Bool := c = '(' || c = '<'

def isClosing (c : CodePoint) : Bool := c = ')' || c = '>'

/-- The number of open brackets after a character outside quotes. -/
def depthAfter (c : CodePoint) (depth : Nat) : Nat :=
  if isOpening c then depth + 1 else if isClosing c then depth - 1 else depth

/-- Whether some bracket is open after every character outside quotes but the last of the text;
undecided if the text ends inside quotes before one is found that is not. -/
def staysOpen? : Place → Nat → Text → Option Bool
  | .outside, _, [] => some true
  | _, _, [] => none
  | .outside, depth, c :: s =>
    if c = '"' then staysOpen? .inside depth s
    else if depthAfter c depth = 0 ∧ s ≠ [] then some false
    else staysOpen? .outside (depthAfter c depth) s
  | place, depth, c :: s => staysOpen? (place.next c) depth s

/-- Whether the first character is a bracket that closes with the last one. -/
def isWrapped? (opening closing : CodePoint) (s : Text) : Option Bool :=
  if s.head? = some opening ∧ s.getLast? = some closing then staysOpen? .outside 0 s
  else some false

/-- What lies between the first and the last character. -/
def inner (s : Text) : Text := s.tail.dropLast

/-- What a search for a conjunction finds. -/
inductive Cut where
  | conjunction (left right : Text)
  | whole
  | unbalancedBrackets
  | unterminatedQuote

/-- The same find one character later. -/
def Cut.behind (c : CodePoint) : Cut → Cut
  | conjunction left right => conjunction (c :: left) right
  | other => other

/-- Take a text apart at the first `&` outside quotes and brackets. -/
def cut : Place → Nat → Text → Cut
  | .outside, depth, [] => if depth = 0 then .whole else .unbalancedBrackets
  | _, _, [] => .unterminatedQuote
  | .outside, depth, c :: s =>
    if c = '"' then (cut .inside depth s).behind c
    else if isClosing c ∧ depth = 0 then .unbalancedBrackets
    else if c = '&' ∧ depth = 0 then .conjunction [] s
    else (cut .outside (depthAfter c depth) s).behind c
  | place, depth, c :: s => (cut (place.next c) depth s).behind c

/-- The operators that take one operand. -/
inductive Operator where
  | close
  | internal
  | indexed (index : Int)
  | external
  deriving DecidableEq, Repr

def Operator.apply : Operator → Formula → Formula
  | close, f => .close f
  | internal, f => .internal f
  | indexed index, f => .indexed index f
  | external, f => .external f

/-- The name of a role, and the text after it. -/
def splitRole? (s : Text) : Option (Operator × Text) :=
  match Text.after? "int_" s, Text.after? "int" s with
  | some s, _ => (splitIndex? s).map fun (index, rest) => (.indexed index, rest)
  | none, some s => some (.internal, s)
  | none, none => (Text.after? "ext" s).map (.external, ·)

/-- An operator and its operand, if the brackets of the operand reach to the end of the text. -/
def splitOperator? (s : Text) : Option (Operator × Text) :=
  if isWrapped? '<' '>' s = some true then some (.close, inner s)
  else
    match splitRole? s with
    | some (role, rest) =>
      if isWrapped? '(' ')' rest = some true then some (role, inner rest) else none
    | none => none

/-- A text that is neither a conjunction nor an operator with an operand. -/
def readName (s : Text) : Except ReadError Formula :=
  match (if s.head? = some (.char '"') then readQuoted? s.tail else none), readVariable? s with
  | some name, _ => .ok (const name)
  | none, some index => .ok (var index)
  | none, none =>
    if s = existential then .ok (quantifier existential)
    else if s = universal then .ok (quantifier universal)
    else if s.any isReserved then .error ⟨.malformed, s⟩
    else .ok (const s)

theorem length_inner_lt {s : Text} (h : s ≠ []) : (inner s).length < s.length := by
  have := List.length_pos_iff.mpr h
  simp [inner]
  omega

theorem ne_nil_of_isWrapped? {opening closing : CodePoint} {s : Text}
    (h : isWrapped? opening closing s = some true) : s ≠ [] := by
  rintro rfl
  simp [isWrapped?] at h

theorem Cut.eq_conjunction_of_behind {c : CodePoint} {found : Cut} {left right : Text}
    (h : found.behind c = .conjunction left right) :
    ∃ l, left = c :: l ∧ found = .conjunction l right := by
  cases found <;> simp_all [behind]

theorem eq_of_cut {place : Place} {depth : Nat} {s left right : Text}
    (h : cut place depth s = .conjunction left right) : s = left ++ CodePoint.char '&' :: right := by
  induction s generalizing place depth left with
  | nil => cases place <;> simp [cut] at h; split at h <;> cases h
  | cons c s ih =>
    cases place <;> simp only [cut] at h
    · split at h
      · obtain ⟨l, rfl, hl⟩ := Cut.eq_conjunction_of_behind h
        simp [ih hl]
      split at h
      · cases h
      split at h
      · rename_i hc
        cases h
        simp [hc.1]
      · obtain ⟨l, rfl, hl⟩ := Cut.eq_conjunction_of_behind h
        simp [ih hl]
    all_goals
      obtain ⟨l, rfl, hl⟩ := Cut.eq_conjunction_of_behind h
      simp [ih hl]

theorem length_splitNumber?_le {s rest : Text} {n : Nat}
    (h : splitNumber? s = some (n, rest)) : rest.length ≤ s.length := by
  unfold splitNumber? at h
  split at h
  · cases h
  · cases h
    exact (List.dropWhile_sublist _).length_le

theorem length_splitIndex?_le {s rest : Text} {index : Int}
    (h : splitIndex? s = some (index, rest)) : rest.length ≤ s.length := by
  unfold splitIndex? at h
  split at h <;> obtain ⟨⟨n, r⟩, hr, he⟩ := Option.map_eq_some_iff.mp h <;> cases he
  · exact Nat.le_succ_of_le (length_splitNumber?_le hr)
  · exact length_splitNumber?_le hr

theorem length_splitRole?_lt {s rest : Text} {role : Operator}
    (h : splitRole? s = some (role, rest)) : rest.length < s.length := by
  unfold splitRole? at h
  split at h
  · rename_i hs
    obtain ⟨⟨index, r⟩, hr, he⟩ := Option.map_eq_some_iff.mp h
    cases he
    exact Nat.lt_of_le_of_lt (length_splitIndex?_le hr) (Text.length_after?_lt (by decide) hs)
  · rename_i hs
    cases h
    exact Text.length_after?_lt (by decide) hs
  · obtain ⟨r, hs, he⟩ := Option.map_eq_some_iff.mp h
    cases he
    exact Text.length_after?_lt (by decide) hs

theorem length_splitOperator?_lt {s operand : Text} {operator : Operator}
    (h : splitOperator? s = some (operator, operand)) : operand.length < s.length := by
  unfold splitOperator? at h
  split at h
  · rename_i hw
    cases h
    exact length_inner_lt (ne_nil_of_isWrapped? hw)
  · split at h
    · rename_i hr
      split at h
      · rename_i hw
        cases h
        exact Nat.lt_trans (length_inner_lt (ne_nil_of_isWrapped? hw)) (length_splitRole?_lt hr)
      · cases h
    · cases h

/-- The formula that a text denotes. -/
def read (text : Text) : Except ReadError Formula :=
  let s := Text.trim text
  if _hs : s = [] then .ok (const "")
  else
    match isWrapped? '(' ')' s with
    | none => .error ⟨.unterminatedQuote, s⟩
    | some true => read (inner s)
    | some false =>
      match _hc : cut .outside 0 s with
      | .unterminatedQuote => .error ⟨.unterminatedQuote, s⟩
      | .unbalancedBrackets => .error ⟨.unbalancedBrackets, s⟩
      | .conjunction left right =>
        if Text.trim left = [] ∨ Text.trim right = [] then .error ⟨.conjunction, s⟩
        else do
          let l ← read left
          let r ← read right
          return and l r
      | .whole =>
        match _ho : splitOperator? s with
        | some (operator, operand) =>
          if Text.trim operand = [] then .error ⟨.noOperand, s⟩
          else return operator.apply (← read operand)
        | none => readName s
termination_by text.length
decreasing_by
  all_goals have ht : s.length ≤ text.length := Text.length_trim_le text
  · exact Nat.lt_of_lt_of_le (length_inner_lt _hs) ht
  · have := congrArg List.length (eq_of_cut _hc)
    rw [List.length_append, List.length_cons] at this
    omega
  · have := congrArg List.length (eq_of_cut _hc)
    rw [List.length_append, List.length_cons] at this
    omega
  · exact Nat.lt_of_lt_of_le (length_splitOperator?_lt _ho) ht

end Formula
end MinimalistGrammar
