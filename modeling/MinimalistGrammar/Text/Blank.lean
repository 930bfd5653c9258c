import MinimalistGrammar.Text.CodePoint

/-! Blank characters: cutting them off the ends of a text, and the words between them. -/
namespace MinimalistGrammar
namespace Text

/-- White space of Unicode together with the four information separators. -/
def isBlank (c : CodePoint) : Bool :=
  let n := c.toNat
  (0x09 ≤ n && n ≤ 0x0d) || (0x1c ≤ n && n ≤ 0x20) || n == 0x85 || n == 0xa0 || n == 0x1680 ||
    (0x2000 ≤ n && n ≤ 0x200a) || n == 0x2028 || n == 0x2029 || n == 0x202f || n == 0x205f ||
    n == 0x3000

def trimStart (s : Text) : Text := s.dropWhile isBlank

def trimEnd (s : Text) : Text := (s.reverse.dropWhile isBlank).reverse

/-- The text without the blanks at its two ends. -/
def trim (s : Text) : Text := trimEnd (trimStart s)

theorem length_trimStart_le (s : Text) : (trimStart s).length ≤ s.length :=
  (List.dropWhile_sublist _).length_le

theorem length_trimEnd_le (s : Text) : (trimEnd s).length ≤ s.length := by
  simpa [trimEnd] using (List.dropWhile_sublist isBlank (l := s.reverse)).length_le

theorem length_trim_le (s : Text) : (trim s).length ≤ s.length :=
  Nat.le_trans (length_trimEnd_le _) (length_trimStart_le _)

/-- The longest runs of characters that are not blank, in order. -/
def words (s : Text) : List Text := (s.splitOnP isBlank).filter (· ≠ [])

end Text

end MinimalistGrammar
