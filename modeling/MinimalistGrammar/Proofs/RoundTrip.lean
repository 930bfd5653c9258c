import MinimalistGrammar.Formula.Printer
import MinimalistGrammar.Proofs.Notation

/-! The written form of a formula is one of the texts that denote it, so what is written is read
back. -/
namespace MinimalistGrammar
namespace Formula

/-- The notation has a form for the formula: there is no quantifier in it but the two, and nothing that
is no formula. -/
def isWritable : Formula → Bool
  | const _ => true
  | var _ => true
  | internal operand => operand.isWritable
  | indexed _ operand => operand.isWritable
  | external operand => operand.isWritable
  | and left right => left.isWritable && right.isWritable
  | close operand => operand.isWritable
  | quantifier kind => kind = existential || kind = universal
  | foreign _ => false

/-- Only a conjunction is written as something else than an atom. -/
def level : Formula → Level
  | and _ _ => .text
  | _ => .atom

theorem isBareName_of_not_needsQuotes {name : Text} (h : ¬needsQuotes name) : IsBareName name := by
  simp only [needsQuotes, Bool.or_eq_true, decide_eq_true_eq, not_or, ne_eq, not_not] at h
  obtain ⟨⟨⟨⟨⟨hne, htrim⟩, hexistential⟩, huniversal⟩, hvariable⟩, hreserved⟩ := h
  refine ⟨?_, by simpa using hreserved, hexistential, huniversal, ?_⟩
  · rw [← htrim] at hne ⊢
    exact Text.isSolid_trim hne
  · rintro digits index hd rfl
    rw [readVariable?_eq_some_iff.mpr ⟨digits, hd, rfl⟩] at hvariable
    exact hvariable rfl

theorem denotes_writeName (name : Text) : Denotes .atom (writeName name) (.const name) := by
  unfold writeName
  split
  · exact .quoted (escapes_escapeName name)
  · rename_i h
    exact .bare (isBareName_of_not_needsQuotes h)

theorem Denotes.conjunction {level : Level} {s t : Text} {f g : Formula} (h : Denotes .atom s f)
    (hg : Denotes level t g) (ht : ¬Text.IsBlanks t) : Denotes .text (s ++ " & " ++ t) (.and f g) := by
  have hspace : Text.IsBlanks [.char ' '] := by simp [Text.IsBlanks]; decide
  have hright : Denotes .text (.char ' ' :: t) g := hg.toText.append_text hspace
  have hne : Text.trim (.char ' ' :: t) ≠ [] := by
    rw [ne_eq, Text.trim_eq_nil_iff]
    exact fun hb => ht fun c hc => hb c (List.mem_cons_of_mem _ hc)
  have hand := Denotes.and Text.isBlanks_nil h hspace hright hne
  simpa [Text.ofString] using hand

def leftText (f : Formula) : Text :=
  match f.level with
  | .atom => f.text
  | .text => Text.enclose '(' ')' f.text

theorem text_and (l r : Formula) : (and l r).text = l.leftText ++ " & " ++ r.text := by
  cases l with
  | and a b => simp [text, leftText, level, Text.ofString, Text.enclose]
  | _ => rfl

theorem denotes_leftText {f : Formula} (h : Denotes f.level f.text f) :
    Denotes .atom f.leftText f := by
  unfold leftText
  cases hl : f.level with
  | atom => rwa [hl] at h
  | text => exact .brackets h.toText

theorem not_isBlanks_text {f : Formula} (h : Denotes f.level f.text f) : ¬Text.IsBlanks f.text := by
  cases f with
  | and l r =>
    rw [text_and]
    intro hb
    exact absurd (hb (.char '&') (by simp [Text.ofString])) (by decide)
  | _ => exact h.isSolid.not_isBlanks

theorem trim_text_ne_nil {f : Formula} (h : Denotes f.level f.text f) : Text.trim f.text ≠ [] :=
  fun hb => not_isBlanks_text h (Text.trim_eq_nil_iff.mp hb)

/-- The written form of a formula is in the notation, and denotes the formula. -/
theorem denotes_text {f : Formula} (h : f.isWritable) : Denotes f.level f.text f := by
  induction f with
  | const name => exact denotes_writeName name
  | var index => exact .var (spellsIndex_ofInt index)
  | internal f ih =>
    have hf := ih h
    exact .role .internal hf.toText (trim_text_ne_nil hf)
  | indexed index f ih =>
    have hf := ih h
    have hrole := Denotes.role (.indexed (spellsIndex_ofInt index)) hf.toText (trim_text_ne_nil hf)
    have htext : (indexed index f).text =
        "int_" ++ Text.ofInt index ++ Text.enclose '(' ')' f.text := by
      simp [text, Text.enclose, Text.ofString]
    rw [htext]
    exact hrole
  | external f ih =>
    have hf := ih h
    exact .role .external hf.toText (trim_text_ne_nil hf)
  | and l r ihl ihr =>
    obtain ⟨hl, hr⟩ := Bool.and_eq_true_iff.mp h
    rw [text_and]
    exact (denotes_leftText (ihl hl)).conjunction (ihr hr) (not_isBlanks_text (ihr hr))
  | close f ih =>
    have hf := ih h
    exact .close hf.toText (trim_text_ne_nil hf)
  | quantifier kind =>
    simp only [isWritable, Bool.or_eq_true, decide_eq_true_eq] at h
    rcases h with rfl | rfl
    · exact .existential
    · exact .universal
  | foreign value => cases h

/-- What is written is read back. -/
theorem read_text {f : Formula} (h : f.isWritable) : read f.text = .ok f :=
  read_of_denotes (denotes_text h)

/-- Names that look like notation, a conjunction on the left, and a negative index. -/
theorem read_text_of_misleading_names :
    let f : Formula := and (and (const "a & (b") (const "\"\\")) (indexed (-3) (close (const "x_1")))
    f.isWritable ∧ read f.text = .ok f :=
  ⟨by decide, read_text (by decide)⟩

end Formula
end MinimalistGrammar
