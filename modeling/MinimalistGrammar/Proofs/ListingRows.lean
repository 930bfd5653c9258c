import MinimalistGrammar.Chart.Listing
import MinimalistGrammar.Proofs.Numeral

/-! Lines of a listing: what they tell, and that it can be told from their texts if the names of the operators are
plain. -/
namespace MinimalistGrammar

theorem Expression.head?_text (e : Expression) : e.text.head? = some (.char '<') := by
  cases e
  unfold Expression.text
  rfl

namespace ChartEntry

inductive Row where
  | lexical (expression : Text)
  | derived (operator : Text) (operands : List Nat) (expression : Text)

/-- The operator with the labels of its operands, and the expression; of a lexical entry the expression alone. -/
def Row.content : Row → Text
  | lexical expression => expression
  | derived operator operands expression =>
    operator ++ "(" ++ Text.join ", " (operands.map label) ++ ") = " ++ expression

def Row.text (number : Nat) (row : Row) : Text := label number ++ " = " ++ row.content

/-- A name behind which the operands can be found, and which begins like no expression. -/
def IsPlainName (operator : Text) : Prop := .char '(' ∉ operator ∧ operator.head? ≠ some (.char '<')

instance (operator : Text) : Decidable (IsPlainName operator) := inferInstanceAs (Decidable (_ ∧ _))

def Row.IsPlain : Row → Prop
  | lexical expression => expression.head? = some (.char '<')
  | derived operator _ _ => IsPlainName operator

theorem label_injective : Function.Injective label := by
  intro m n h
  have hnumber : Text.ofNat m = Text.ofNat n := List.append_cancel_left h
  rw [← Formula.digitsValue_ofNat m, hnumber, Formula.digitsValue_ofNat]

theorem not_mem_label {c : CodePoint} (hletter : c ≠ .char 'e') (hdigit : ¬Text.isDigit c) (n : Nat) :
    c ∉ label n := by
  intro hc
  rcases List.mem_cons.mp hc with rfl | hc
  · exact hletter rfl
  · exact hdigit (Formula.isDigit_ofNat n c hc)

theorem eq_of_append_cons_eq {a b s t : Text} {c : CodePoint} (ha : c ∉ a) (hb : c ∉ b)
    (h : a ++ c :: s = b ++ c :: t) : a = b ∧ s = t := by
  induction a generalizing b with
  | nil =>
    cases b with
    | nil => exact ⟨rfl, (List.cons.inj h).2⟩
    | cons d b => exact absurd (List.cons.inj h).1 (List.ne_of_not_mem_cons hb)
  | cons d a ih =>
    cases b with
    | nil => exact absurd (List.cons.inj h).1.symm (List.ne_of_not_mem_cons ha)
    | cons d' b =>
      obtain ⟨rfl, htail⟩ := List.cons.inj h
      obtain ⟨rfl, rfl⟩ := ih (List.not_mem_of_not_mem_cons ha) (List.not_mem_of_not_mem_cons hb) htail
      exact ⟨rfl, rfl⟩

/-- Numbers can be told from their labels with a comma behind each. -/
theorem flatMap_labels_injective {numbers others : List Nat} (h : (numbers.flatMap fun n => label n ++ (", " : Text)) =
    others.flatMap fun n => label n ++ (", " : Text)) : numbers = others := by
  induction numbers generalizing others with
  | nil =>
    cases others with
    | nil => rfl
    | cons m others => cases h
  | cons n numbers ih =>
    cases others with
    | nil => cases h
    | cons m others =>
      have hcomma : ∀ n, CodePoint.char ',' ∉ label n := not_mem_label (by decide) (by decide)
      rw [List.flatMap_cons, List.flatMap_cons, List.append_assoc, List.append_assoc] at h
      obtain ⟨hlabel, hrest⟩ := eq_of_append_cons_eq (hcomma n) (hcomma m) h
      rw [label_injective hlabel, ih (List.cons.inj hrest).2]

theorem join_labels_append (n : Nat) (numbers : List Nat) : Text.join ", " ((n :: numbers).map label) ++ (", " : Text) =
    (n :: numbers).flatMap fun n => label n ++ (", " : Text) := by
  induction numbers generalizing n with
  | nil => simp [Text.join]
  | cons m numbers ih =>
    rw [List.map_cons, List.map_cons, Text.join_cons_cons, ← List.map_cons, List.append_assoc, ih]
    rfl

theorem join_labels_injective {numbers others : List Nat}
    (h : Text.join ", " (numbers.map label) = Text.join ", " (others.map label)) : numbers = others := by
  have hcommas := congrArg (· ++ (", " : Text)) h
  cases numbers with
  | nil =>
    cases others with
    | nil => rfl
    | cons m others => cases hcommas.trans (join_labels_append m others)
  | cons n numbers =>
    cases others with
    | nil => cases (join_labels_append n numbers).symm.trans hcommas
    | cons m others =>
      exact flatMap_labels_injective
        ((join_labels_append n numbers).symm.trans (hcommas.trans (join_labels_append m others)))

theorem not_mem_join_labels (numbers : List Nat) : CodePoint.char ')' ∉ Text.join ", " (numbers.map label) := by
  intro hc
  cases numbers with
  | nil => cases hc
  | cons n numbers =>
    have hcommas : CodePoint.char ')' ∈ (n :: numbers).flatMap fun n => label n ++ (", " : Text) :=
      join_labels_append n numbers ▸ List.mem_append_left _ hc
    obtain ⟨m, -, hm⟩ := List.mem_flatMap.mp hcommas
    rcases List.mem_append.mp hm with hm | hm
    · exact not_mem_label (by decide) (by decide) m hm
    · exact absurd hm (by decide)

theorem Row.head?_content_ne {operator : Text} (h : IsPlainName operator) (operands : List Nat)
    (expression : Text) : (derived operator operands expression).content.head? ≠ some (.char '<') := by
  cases operator with
  | nil => exact fun h => nomatch h
  | cons c operator => exact h.2

theorem Row.content_injective {row other : Row} (hrow : row.IsPlain) (hother : other.IsPlain)
    (h : row.content = other.content) : row = other := by
  cases row with
  | lexical expression =>
    cases other with
    | lexical expression' => exact congrArg lexical h
    | derived operator' operands' expression' =>
      exact absurd ((congrArg List.head? h).symm.trans hrow) (head?_content_ne hother operands' expression')
  | derived operator operands expression =>
    cases other with
    | lexical expression' =>
      exact absurd ((congrArg List.head? h).trans hother) (head?_content_ne hrow operands expression)
    | derived operator' operands' expression' =>
      simp only [content, List.append_assoc] at h
      obtain ⟨rfl, hbehind⟩ := eq_of_append_cons_eq hrow.1 hother.1 h
      obtain ⟨hoperands, hexpression⟩ :=
        eq_of_append_cons_eq (not_mem_join_labels operands) (not_mem_join_labels operands') hbehind
      rw [join_labels_injective hoperands, List.append_cancel_left hexpression]

theorem rows_eq_of_texts_eq {rows others : List Row} (hrows : ∀ row ∈ rows, row.IsPlain)
    (hothers : ∀ row ∈ others, row.IsPlain) {next : Nat}
    (h : ((rows.zipIdx next).map fun row => row.1.text row.2) = (others.zipIdx next).map fun row => row.1.text row.2) :
    rows = others := by
  induction rows generalizing others next with
  | nil =>
    cases others with
    | nil => rfl
    | cons other others => cases h
  | cons row rows ih =>
    cases others with
    | nil => cases h
    | cons other others =>
      obtain ⟨hrow, hrest⟩ := List.forall_mem_cons.mp hrows
      obtain ⟨hother, hrest'⟩ := List.forall_mem_cons.mp hothers
      obtain ⟨htext, htexts⟩ := List.cons.inj h
      rw [Row.content_injective hrow hother (List.append_cancel_left htext), ih hrest hrest' htexts]

end ChartEntry
end MinimalistGrammar
