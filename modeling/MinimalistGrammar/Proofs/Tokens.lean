import Mathlib.Data.List.Basic
import Mathlib.Data.List.Flatten
import MinimalistGrammar.Grammar.Basic

/-! Texts as words with a space between each two: how often a word stands in some texts, the words of texts that
are put together, and that a token has no space in it. -/
namespace MinimalistGrammar

/-- The number of times that a word stands between the spaces of some texts. -/
def occurrences (word : Text) (texts : List Text) : Nat := (texts.flatMap tokenize).count word

section
variable {word : Text}

@[simp] theorem occurrences_nil : occurrences word [] = 0 := rfl

@[simp] theorem occurrences_cons (text : Text) (texts : List Text) :
    occurrences word (text :: texts) = (tokenize text).count word + occurrences word texts := by
  rw [occurrences, List.flatMap_cons, List.count_append, occurrences]

@[simp] theorem occurrences_append (s t : List Text) :
    occurrences word (s ++ t) = occurrences word s + occurrences word t := by
  rw [occurrences, List.flatMap_append, List.count_append, occurrences, occurrences]

theorem occurrences_replicate (n : Nat) (text : Text) :
    occurrences word (List.replicate n text) = n * (tokenize text).count word := by
  induction n with
  | zero => simp
  | succ n ih => rw [List.replicate_succ, occurrences_cons, ih, Nat.succ_mul, Nat.add_comm]

theorem occurrences_of_sublist (word : Text) {s t : List Text} (h : s.Sublist t) :
    occurrences word s ≤ occurrences word t :=
  (h.flatMap tokenize).count_le word

theorem occurrences_of_perm {s t : List Text} (h : s.Perm t) : occurrences word s = occurrences word t :=
  (h.flatMap_right tokenize).count_eq word

theorem tokenize_join {texts : List Text} (h : texts ≠ []) :
    tokenize (Text.join " " texts) = texts.flatMap tokenize := by
  induction texts with
  | nil => exact absurd rfl h
  | cons text texts ih =>
    cases texts with
    | nil => simp [Text.join]
    | cons next texts =>
      rw [Text.join_cons_cons, List.append_assoc, List.flatMap_cons, ← ih (List.cons_ne_nil next texts)]
      exact List.splitOnP_append_cons text _ rfl

theorem count_tokenize_join {texts : List Text} (h : texts ≠ []) :
    (tokenize (Text.join " " texts)).count word = occurrences word texts := by
  rw [tokenize_join h, occurrences]

/-- The parts between the separators have no separators to be split at. -/
theorem splitOnP_of_mem_splitOnP {p : CodePoint → Bool} {text part : Text} (h : part ∈ text.splitOnP p) :
    part.splitOnP p = [part] := by
  induction text generalizing part with
  | nil =>
    obtain rfl := List.mem_singleton.mp h
    rfl
  | cons first text ih =>
    rw [List.splitOnP_cons_eq_if_modifyHead] at h
    split at h
    · rcases List.mem_cons.mp h with rfl | h
      · rfl
      · exact ih h
    · rename_i hfirst
      obtain ⟨head, others, hparts⟩ := List.exists_cons_of_ne_nil (List.splitOnP_ne_nil p text)
      rw [hparts] at h ih
      rcases List.mem_cons.mp h with rfl | h
      · -- the first part grows by a code point that is no separator
        rw [List.splitOnP_cons_eq_if_modifyHead, if_neg hfirst, ih List.mem_cons_self]
        rfl
      · exact ih (List.mem_cons_of_mem head h)

theorem tokenize_of_mem_tokenize {text token : Text} (h : token ∈ tokenize text) :
    tokenize token = [token] :=
  splitOnP_of_mem_splitOnP h

theorem occurrences_of_tokens {tokens : List Text} (h : ∀ token ∈ tokens, tokenize token = [token]) :
    occurrences word tokens = tokens.count word := by
  rw [occurrences, List.flatMap_congr h, List.flatMap_singleton']

end

end MinimalistGrammar
