import Mathlib.Data.List.TakeWhile
import MinimalistGrammar.Proofs.Serialization
import MinimalistGrammar.Proofs.WrittenForms
import MinimalistGrammar.Storage.Files

/-! Documents in files. A text can be written if no half of a surrogate pair stands alone in it, and a document if
all its texts can. What is written then is read back from the file. -/
namespace MinimalistGrammar

theorem CodePoint.not_isHalf_of_isGraphic {c : CodePoint} (h : c.isGraphic) : ¬c.isHalf := by
  obtain ⟨-, hle⟩ := isGraphic_iff.mp h
  cases c with
  | char c => exact Bool.false_ne_true
  | half offset =>
    simp only [toNat] at hle
    omega

namespace Text

/-- Every code point is a character. -/
def IsEncodable (s : Text) : Prop := ∀ c ∈ s, ¬c.isHalf

instance (s : Text) : Decidable s.IsEncodable := inferInstanceAs (Decidable (∀ c ∈ s, ¬c.isHalf))

@[simp] theorem isEncodable_nil : IsEncodable [] := by simp [IsEncodable]

@[simp] theorem isEncodable_cons {c : CodePoint} {s : Text} :
    IsEncodable (c :: s) ↔ ¬c.isHalf ∧ IsEncodable s :=
  List.forall_mem_cons

@[simp] theorem isEncodable_append {s t : Text} :
    IsEncodable (s ++ t) ↔ IsEncodable s ∧ IsEncodable t :=
  List.forall_mem_append

@[simp] theorem not_isHalf_char (c : Char) : ¬(CodePoint.char c).isHalf := Bool.false_ne_true

@[simp] theorem isEncodable_map_char (s : List Char) : IsEncodable (s.map .char) := by
  intro c hc
  obtain ⟨c, -, rfl⟩ := List.mem_map.mp hc
  exact not_isHalf_char c

@[simp] theorem isEncodable_ofString (s : String) : IsEncodable (ofString s) := isEncodable_map_char s.toList

@[simp] theorem isEncodable_ofInt (i : Int) : IsEncodable (ofInt i) :=
  (isGraphic_ofInt i).forall_mem fun _ => CodePoint.not_isHalf_of_isGraphic

theorem exists_of_mem_hexDigits {width n : Nat} {c : CodePoint} (h : c ∈ hexDigits width n) :
    ∃ digit < 16, c = .char (Nat.digitChar digit) := by
  induction width generalizing n with
  | zero => cases h
  | succ width ih =>
    rcases List.mem_append.mp h with h | h
    · exact ih h
    · exact ⟨n % 16, Nat.mod_lt n (by decide), List.mem_singleton.mp h⟩

@[simp] theorem isEncodable_hexDigits (width n : Nat) : IsEncodable (hexDigits width n) := by
  intro c hc
  obtain ⟨digit, -, rfl⟩ := exists_of_mem_hexDigits hc
  exact not_isHalf_char _

end Text

theorem EncodingError.find?_eq_none_iff {s : Text} : find? (fun _ => false) s = none ↔ s.IsEncodable := by
  have hfits : s.dropWhile (fun c => !c.isHalf || false) = [] ↔ s.IsEncodable := by
    simp [List.dropWhile_eq_nil_iff, Text.IsEncodable]
  rw [← hfits, find?]
  cases s.dropWhile (fun c => !c.isHalf || false) with
  | nil => simp
  | cons first rest => simp

namespace Json

theorem encodingError?_eq_none_iff {document : Json} :
    document.encodingError? = none ↔ document.indented.IsEncodable := by
  rw [encodingError?, List.findSome?_eq_none_iff, indented]
  simp only [EncodingError.find?_eq_none_iff, Text.IsEncodable, List.mem_flatten]
  grind

section Marks

def marks : Text :=
  [.char '\n', .char ' ', .char '"', .char '[', .char ']', .char '\x7b', .char '\x7d', .char ',', .char ':']

variable {p : CodePoint → Prop} (hp : ∀ c ∈ marks, p c) {level : Nat}
include hp

theorem forall_mem_newline : ∀ c ∈ newline level, p c := by
  refine List.forall_mem_cons.mpr ⟨hp _ List.mem_cons_self, fun c hc => ?_⟩
  rw [List.eq_of_mem_replicate hc]
  exact hp _ (by decide)

theorem forall_mem_indentedAt_str {s : Text} :
    (∀ c ∈ indentedAt level (.str s), p c) ↔ ∀ c ∈ s.flatMap escapeChar, p c := by
  have hquote := hp (.char '"') (by decide)
  rw [indentedAt_str, List.forall_mem_cons, List.forall_mem_append, List.forall_mem_singleton]
  exact ⟨fun h => h.2.1, fun h => ⟨hquote, h, hquote⟩⟩

theorem forall_mem_behindAt {α : Type} {write : α → Text} {parts : List α} :
    (∀ c ∈ behindAt level write parts, p c) ↔ ∀ part ∈ parts, ∀ c ∈ write part, p c := by
  have hcomma := hp (.char ',') (by decide)
  induction parts with
  | nil => simp [behindAt]
  | cons part parts ih =>
    rw [behindAt_cons, List.forall_mem_cons, List.forall_mem_append, List.forall_mem_append,
      List.forall_mem_cons]
    exact ⟨fun h => ⟨h.2.2.1, ih.mp h.2.2.2⟩,
      fun h => ⟨hcomma, forall_mem_newline hp, h.1, ih.mpr h.2⟩⟩

theorem forall_mem_enclosedAt {opening closing : CodePoint} (hopening : opening ∈ marks)
    (hclosing : closing ∈ marks) {α : Type} {write : α → Text} {parts : List α} :
    (∀ c ∈ enclosedAt opening closing level write parts, p c) ↔ ∀ part ∈ parts, ∀ c ∈ write part, p c := by
  cases parts with
  | nil => simp [enclosedAt, hp opening hopening, hp closing hclosing]
  | cons part parts =>
    rw [enclosedAt, List.forall_mem_cons, List.forall_mem_append, List.forall_mem_append, List.forall_mem_append,
      List.forall_mem_append, List.forall_mem_singleton, forall_mem_behindAt hp, List.forall_mem_cons]
    exact ⟨fun h => ⟨h.2.2.1, h.2.2.2.1⟩, fun h => ⟨hp opening hopening, forall_mem_newline hp, h.1, h.2,
      forall_mem_newline hp, hp closing hclosing⟩⟩

theorem forall_mem_indentedAt_arr {items : List Json} :
    (∀ c ∈ indentedAt level (.arr items), p c) ↔
      ∀ item ∈ items, ∀ c ∈ indentedAt (level + 1) item, p c := by
  rw [indentedAt_arr]
  exact forall_mem_enclosedAt hp (by decide) (by decide)

theorem forall_mem_memberAt {member : Text × Json} :
    (∀ c ∈ memberAt level member, p c) ↔
      (∀ c ∈ member.1.flatMap escapeChar, p c) ∧ ∀ c ∈ indentedAt level member.2, p c := by
  have hquote := hp (.char '"') (by decide)
  have hcolon := hp (.char ':') (by decide)
  have hspace := hp (.char ' ') (by decide)
  rw [memberAt, writeString, Text.enclose, List.forall_mem_append, List.forall_mem_cons, List.forall_mem_append,
    List.forall_mem_singleton, List.forall_mem_cons, List.forall_mem_cons]
  exact ⟨fun h => ⟨h.1.2.1, h.2.2.2⟩, fun h => ⟨⟨hquote, h.1, hquote⟩, hcolon, hspace, h.2⟩⟩

theorem forall_mem_indentedAt_obj {members : List (Text × Json)} :
    (∀ c ∈ indentedAt level (.obj members), p c) ↔ ∀ member ∈ members,
      (∀ c ∈ member.1.flatMap escapeChar, p c) ∧ ∀ c ∈ indentedAt (level + 1) member.2, p c := by
  simp only [← forall_mem_memberAt hp]
  rw [indentedAt_obj]
  exact forall_mem_enclosedAt hp (by decide) (by decide)

end Marks

section Encodable

theorem isEncodable_escapeChar {c : CodePoint} : (escapeChar c).IsEncodable ↔ ¬c.isHalf := by
  unfold escapeChar
  split
  case h_8 =>
    split
    · rename_i hcontrol
      cases c with
      | char c => simp
      | half offset =>
        simp only [CodePoint.toNat] at hcontrol
        omega
    · simp
  all_goals simp

theorem isEncodable_flatMap_escapeChar {s : Text} : Text.IsEncodable (s.flatMap escapeChar) ↔ s.IsEncodable := by
  induction s with
  | nil => simp
  | cons c s ih => rw [List.flatMap_cons, Text.isEncodable_append, ih, isEncodable_escapeChar, Text.isEncodable_cons]

theorem isEncodable_marks : ∀ c ∈ marks, ¬c.isHalf := by decide

theorem isEncodable_indentedAt_str {level : Nat} {s : Text} :
    (indentedAt level (.str s)).IsEncodable ↔ s.IsEncodable :=
  (forall_mem_indentedAt_str isEncodable_marks).trans isEncodable_flatMap_escapeChar

theorem isEncodable_indentedAt_arr {level : Nat} {items : List Json} :
    (indentedAt level (.arr items)).IsEncodable ↔
      ∀ item ∈ items, (indentedAt (level + 1) item).IsEncodable :=
  forall_mem_indentedAt_arr isEncodable_marks

theorem isEncodable_indentedAt_obj {level : Nat} {members : List (Text × Json)} :
    (indentedAt level (.obj members)).IsEncodable ↔
      ∀ member ∈ members, member.1.IsEncodable ∧ (indentedAt (level + 1) member.2).IsEncodable := by
  simp only [← isEncodable_flatMap_escapeChar (s := Prod.fst _)]
  exact forall_mem_indentedAt_obj isEncodable_marks

end Encodable

section LineEnds

theorem ne_carriageReturn_of_mem_escapeChar {c d : CodePoint} (h : d ∈ escapeChar c) : d ≠ .char '\r' := by
  unfold escapeChar at h
  split at h
  case h_8 =>
    split at h
    · have hdigit : ∀ n < 16, Nat.digitChar n ≠ '\r' := by decide
      rcases List.mem_cons.mp h with rfl | h
      · decide
      rcases List.mem_cons.mp h with rfl | h
      · decide
      · obtain ⟨n, hn, rfl⟩ := Text.exists_of_mem_hexDigits h
        exact fun heq => hdigit n hn (CodePoint.char.inj heq)
    · rename_i hcontrol
      rintro rfl
      rw [← List.mem_singleton.mp h] at hcontrol
      exact hcontrol (by decide)
  all_goals
    rintro rfl
    exact absurd h (by decide)

/-- No document has a carriage return in it, so that line ends stay as they are. -/
theorem IsPlain.ne_carriageReturn {document : Json} (h : document.IsPlain) (level : Nat) :
    ∀ c ∈ indentedAt level document, c ≠ .char '\r' := by
  have hmarks : ∀ c ∈ marks, c ≠ .char '\r' := by decide
  have htext (s : Text) : ∀ c ∈ s.flatMap escapeChar, c ≠ .char '\r' := by
    intro c hc
    obtain ⟨d, -, hmem⟩ := List.mem_flatMap.mp hc
    exact ne_carriageReturn_of_mem_escapeChar hmem
  induction h generalizing level with
  | str s => exact (forall_mem_indentedAt_str hmarks).mpr (htext s)
  | arr _ ih => exact (forall_mem_indentedAt_arr hmarks).mpr fun item hitem => ih item hitem _
  | obj _ _ ih =>
    exact (forall_mem_indentedAt_obj hmarks).mpr fun member hmember =>
      ⟨htext member.1, ih member hmember _⟩

end LineEnds

theorem save_of_isEncodable {document : Json} (h : document.indented.IsEncodable) :
    document.save = .ok document.indented := by
  rw [save, encodingError?_eq_none_iff.mpr h]

/-- A document that cannot be written is refused with the place of what cannot. -/
theorem exists_save_eq_error_iff {document : Json} :
    (∃ error, document.save = .error (.encoding error)) ↔ ¬document.indented.IsEncodable := by
  rw [← encodingError?_eq_none_iff, save]
  cases document.encodingError? with
  | none => simp
  | some error => simp

end Json

theorem Text.unifyLineEnds_eq_self {s : Text} (h : ∀ c ∈ s, c ≠ .char '\r') : unifyLineEnds s = s := by
  induction s with
  | nil => rfl
  | cons c s ih =>
    obtain ⟨hc, hs⟩ := List.forall_mem_cons.mp h
    rw [unifyLineEnds, if_neg hc, ih hs]
    exact fun _ heq _ => hc heq

theorem Files.readDocument_eq_ok {files : Files} {path : Text} (hpath : Path.isPossible path) {document : Json}
    (h : document.IsPlain) (hfile : files path = .text document.indented) :
    files.readDocument path = .ok document := by
  simp only [Path.isPossible, Bool.and_eq_true, Option.isNone_iff_eq_none, Bool.not_eq_true'] at hpath
  obtain ⟨hbytes, hnull⟩ := hpath
  have hlines : Text.unifyLineEnds document.indented = document.indented :=
    Text.unifyLineEnds_eq_self (h.ne_carriageReturn 0)
  have htext : files.readText path = .ok document.indented := by
    simp only [readText, hbytes, hnull, hfile, hlines]
  rw [readDocument, htext]
  simp only [bind, Except.bind, h.read_indented]
  rfl

end MinimalistGrammar
