import MinimalistGrammar.Feature
import MinimalistGrammar.Proofs.RoundTrip

/-! The characters of written forms. What stands around the texts that a formula or a list of features is made of is
visible, so the written form has some property of visible characters throughout if and only if these texts have it. -/
namespace MinimalistGrammar

def CodePoint.isGraphic (c : CodePoint) : Bool := 0x20 ≤ c.toNat && c.toNat ≤ 0x7e

theorem CodePoint.isGraphic_iff {c : CodePoint} : c.isGraphic ↔ 0x20 ≤ c.toNat ∧ c.toNat ≤ 0x7e := by
  rw [isGraphic, Bool.and_eq_true, decide_eq_true_eq, decide_eq_true_eq]

namespace Text

def IsGraphic (s : Text) : Prop := ∀ c ∈ s, c.isGraphic

instance (s : Text) : Decidable s.IsGraphic := inferInstanceAs (Decidable (∀ c ∈ s, c.isGraphic))

theorem IsGraphic.append {s t : Text} (hs : s.IsGraphic) (ht : t.IsGraphic) : (s ++ t).IsGraphic :=
  List.forall_mem_append.mpr ⟨hs, ht⟩

theorem isGraphic_ofNat (n : Nat) : (ofNat n).IsGraphic := by
  intro c hc
  obtain ⟨digit, hdigit, rfl⟩ := List.mem_map.mp hc
  have hdigit : digit.isDigit := Nat.isDigit_of_mem_toDigits (by decide) (by decide) hdigit
  simp only [Char.isDigit, Bool.and_eq_true, decide_eq_true_eq, ge_iff_le, UInt32.le_iff_toNat_le] at hdigit
  have hzero : '0'.val.toNat = 0x30 := rfl
  have hnine : '9'.val.toNat = 0x39 := rfl
  have hvalue : (CodePoint.char digit).toNat = digit.val.toNat := rfl
  rw [CodePoint.isGraphic_iff, hvalue]
  omega

theorem isGraphic_ofInt (i : Int) : (ofInt i).IsGraphic := by
  have hdigits := isGraphic_ofNat i.natAbs
  unfold ofInt
  split
  · exact List.forall_mem_cons.mpr ⟨by decide, hdigits⟩
  · exact hdigits

theorem join_cons (separator item : Text) (items : List Text) :
    join separator (item :: items) = item ++ items.flatMap fun next => separator ++ next := by
  induction items generalizing item with
  | nil => simp [join]
  | cons next items ih =>
    rw [join_cons_cons, ih, List.flatMap_cons]
    simp only [List.append_assoc]

theorem forall_mem_join {p : CodePoint → Prop} {separator : Text} (hseparator : ∀ c ∈ separator, p c)
    {items : List Text} : (∀ c ∈ join separator items, p c) ↔ ∀ item ∈ items, ∀ c ∈ item, p c := by
  cases items with
  | nil => simp [join]
  | cons item items =>
    have hnext (next : Text) : (∀ c ∈ separator ++ next, p c) ↔ ∀ c ∈ next, p c := by
      rw [List.forall_mem_append]
      exact and_iff_right hseparator
    rw [join_cons, List.forall_mem_append, List.forall_mem_flatMap, List.forall_mem_cons]
    simp only [hnext]

end Text

section Written
variable {p : CodePoint → Prop} (hp : ∀ c : CodePoint, c.isGraphic → p c)
include hp

theorem Text.IsGraphic.forall_mem {s : Text} (h : s.IsGraphic) : ∀ c ∈ s, p c := fun c hc => hp c (h c hc)

theorem Text.forall_mem_between {opening s closing : Text} (hopening : opening.IsGraphic)
    (hclosing : closing.IsGraphic) : (∀ c ∈ opening ++ s ++ closing, p c) ↔ ∀ c ∈ s, p c := by
  rw [List.forall_mem_append, List.forall_mem_append]
  exact ⟨fun h => h.1.2, fun h => ⟨⟨hopening.forall_mem hp, h⟩, hclosing.forall_mem hp⟩⟩

namespace Formula

/-- The texts in a written formula: the names of constants, quantifiers, and what is no formula. -/
def inscriptions : Formula → List Text
  | const name => [name]
  | quantifier kind => [kind]
  | foreign value => [value.plain]
  | var _ => []
  | internal operand | indexed _ operand | external operand | close operand => operand.inscriptions
  | and left right => left.inscriptions ++ right.inscriptions

theorem forall_mem_escapeName {name : Text} : (∀ c ∈ escapeName name, p c) ↔ ∀ c ∈ name, p c := by
  induction name with
  | nil => rfl
  | cons c name ih =>
    rw [escapeName]
    split
    · rw [List.forall_mem_cons, List.forall_mem_cons, List.forall_mem_cons, ih]
      exact and_iff_right (hp _ (by decide))
    · rw [List.forall_mem_cons, List.forall_mem_cons, ih]

theorem forall_mem_writeName {name : Text} : (∀ c ∈ writeName name, p c) ↔ ∀ c ∈ name, p c := by
  unfold writeName
  split
  · have hmark : Text.IsGraphic ['"'] := by decide
    exact (Text.forall_mem_between hp hmark hmark).trans (forall_mem_escapeName hp)
  · rfl

theorem forall_mem_leftText {f : Formula} : (∀ c ∈ f.leftText, p c) ↔ ∀ c ∈ f.text, p c := by
  unfold leftText
  split
  · rfl
  · have hopening : Text.IsGraphic ['('] := by decide
    have hclosing : Text.IsGraphic [')'] := by decide
    exact Text.forall_mem_between hp hopening hclosing

theorem forall_mem_text {f : Formula} :
    (∀ c ∈ f.text, p c) ↔ ∀ s ∈ f.inscriptions, ∀ c ∈ s, p c := by
  induction f with
  | const name => rw [text, inscriptions, List.forall_mem_singleton, forall_mem_writeName hp]
  | quantifier kind => rw [text, inscriptions, List.forall_mem_singleton]
  | foreign value => rw [text, inscriptions, List.forall_mem_singleton]
  | var index =>
    have hindex : Text.IsGraphic ("x_" ++ Text.ofInt index) := .append (by decide) (Text.isGraphic_ofInt index)
    exact iff_of_true (hindex.forall_mem hp) (List.forall_mem_nil _)
  | internal f ih => exact (Text.forall_mem_between hp (by decide) (by decide)).trans ih
  | external f ih => exact (Text.forall_mem_between hp (by decide) (by decide)).trans ih
  | close f ih => exact (Text.forall_mem_between hp (by decide) (by decide)).trans ih
  | indexed index f ih =>
    have hindex : Text.IsGraphic ("int_" ++ Text.ofInt index ++ "(") :=
      .append (.append (by decide) (Text.isGraphic_ofInt index)) (by decide)
    exact (Text.forall_mem_between hp hindex (by decide)).trans ih
  | and l r ihl ihr =>
    have hsign : Text.IsGraphic " & " := by decide
    rw [text_and, List.forall_mem_append, List.forall_mem_append, forall_mem_leftText hp, ihl, ihr, inscriptions,
      List.forall_mem_append]
    exact and_congr_left' (and_iff_left (hsign.forall_mem hp))

end Formula

theorem Feature.forall_mem_text {f : Feature} : (∀ c ∈ f.text, p c) ↔ ∀ c ∈ f.category, p c := by
  have hsign : f.kind.sign.isGraphic := by cases f.kind <;> decide
  rw [text, List.forall_mem_cons]
  exact and_iff_right (hp _ hsign)

theorem Feature.forall_mem_listText {features : List Feature} :
    (∀ c ∈ listText features, p c) ↔ ∀ f ∈ features, ∀ c ∈ f.category, p c := by
  have hspace : Text.IsGraphic " " := by decide
  rw [listText, Text.forall_mem_join (hspace.forall_mem hp), List.forall_mem_map]
  exact forall₂_congr fun f _ => forall_mem_text hp

end Written

end MinimalistGrammar
