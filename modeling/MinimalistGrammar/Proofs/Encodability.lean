import MinimalistGrammar.Proofs.DerivationLines
import MinimalistGrammar.Proofs.IntegerNotation
import MinimalistGrammar.Proofs.ModelDocument

/-! Texts that can be encoded. A message quotes what it is about, and quoted texts have no half of a surrogate pair in
them. Documents and derivations have one only if a text that they are made of has. -/
namespace MinimalistGrammar

namespace Text

@[simp] theorem isEncodable_ofNat (n : Nat) : IsEncodable (ofNat n) :=
  (isGraphic_ofNat n).forall_mem fun _ => CodePoint.not_isHalf_of_isGraphic

theorem isEncodable_join {separator : Text} (h : separator.IsEncodable) {items : List Text} :
    IsEncodable (join separator items) ↔ ∀ item ∈ items, item.IsEncodable :=
  forall_mem_join h

@[simp] theorem isEncodable_escapeNumber (n : Nat) : IsEncodable (escapeNumber n) := by
  unfold escapeNumber
  split
  · simp
  · split <;> simp

/-- No turn of visible and invisible characters lies among the halves, and the first of them is invisible. -/
theorem not_isPrintable_of_isHalf {c : CodePoint} (h : c.isHalf) : ¬isPrintable c := by
  have hturns : ∀ turn ∈ printableTurns.toList, turn ≤ 0xd800 ∨ 0xdfff < turn := by decide +kernel
  have hfirst : printableTurns.toList.foldl (fun odd turn => if turn ≤ 0xd800 then !odd else odd) false = false := by
    decide +kernel
  cases c with
  | char c => cases h
  | half offset =>
    have hle := offset.isLt
    have hn : ¬(CodePoint.half offset).toNat < 0x7f := by simp only [CodePoint.toNat]; omega
    have hsame := List.foldl_ext (fun odd turn => if turn ≤ (CodePoint.half offset).toNat then !odd else odd)
      (fun odd turn => if turn ≤ 0xd800 then !odd else odd) false (l := printableTurns.toList) fun odd turn hturn => by
        have hturn := hturns turn hturn
        have hiff : turn ≤ (CodePoint.half offset).toNat ↔ turn ≤ 0xd800 := by
          simp only [CodePoint.toNat]
          omega
        simp only [hiff]
    rw [isPrintable, if_neg hn, ← Array.foldl_toList, hsame, hfirst]
    exact Bool.false_ne_true

theorem isEncodable_escapeChar {mark : CodePoint} (hmark : ¬mark.isHalf) (c : CodePoint) :
    (escapeChar mark c).IsEncodable := by
  unfold escapeChar
  split
  · rename_i h
    rcases h with rfl | rfl <;> simp [hmark]
  · split
    · simp
    · split
      · simp
      · split
        · simp
        · split
          · rename_i hprintable
            exact List.forall_mem_singleton.mpr fun hhalf => not_isPrintable_of_isHalf hhalf hprintable
          · exact isEncodable_escapeNumber _

end Text

@[simp] theorem isEncodable_quoted (s : Text) : (quoted s).IsEncodable := by
  have hmark : ¬s.quoteMark.isHalf := by
    unfold Text.quoteMark
    split <;> exact Bool.false_ne_true
  refine List.forall_mem_cons.mpr ⟨hmark, List.forall_mem_append.mpr ⟨?_, List.forall_mem_singleton.mpr hmark⟩⟩
  exact List.forall_mem_flatMap.mpr fun c _ => Text.isEncodable_escapeChar hmark c

theorem isEncodable_bracketed {items : List Text} (h : ∀ item ∈ items, item.IsEncodable) :
    (bracketed items).IsEncodable := by
  have hitems := (Text.isEncodable_join (Text.isEncodable_ofString ", ")).mpr h
  simp [bracketed, Text.enclose, hitems]

theorem EncodingError.isEncodable_message (e : EncodingError) : e.message.IsEncodable := by
  unfold message
  split <;> simp

theorem DecodingError.isEncodable_message (e : DecodingError) : e.message.IsEncodable := by
  have hfault : e.fault.message.IsEncodable := by
    cases e.fault <;> exact Text.isEncodable_ofString _
  unfold message
  split <;> simp [hfault]

namespace Json

namespace Decimal

theorem isEncodable_positional {digits : Text} (h : digits.IsEncodable) (point : Int) :
    (positional digits point).IsEncodable := by
  have hzeros (n : Nat) : Text.IsEncodable (List.replicate n (CodePoint.char '0')) := by
    intro c hc
    rw [List.eq_of_mem_replicate hc]
    exact Bool.false_ne_true
  unfold positional
  split
  · simp [h, hzeros]
  · have hpadded : Text.IsEncodable (digits ++ List.replicate (point.toNat - digits.length) (CodePoint.char '0')) :=
      Text.isEncodable_append.mpr ⟨h, hzeros _⟩
    generalize digits ++ List.replicate (point.toNat - digits.length) (CodePoint.char '0') = padded at hpadded
    have htake : Text.IsEncodable (padded.take point.toNat) := fun c hc => hpadded c (List.mem_of_mem_take hc)
    have hdrop : Text.IsEncodable (padded.drop point.toNat) := fun c hc => hpadded c (List.mem_of_mem_drop hc)
    dsimp only
    split <;> simp [htake, hdrop]

theorem isEncodable_scientific {digits : Text} (h : digits.IsEncodable) (point : Int) :
    (scientific digits point).IsEncodable := by
  have hsign : Text.IsEncodable (if point - 1 < 0 then "e-" else "e+") := by
    split <;> exact Text.isEncodable_ofString _
  have hfill : Text.IsEncodable (if (Text.ofNat (point - 1).natAbs).length < 2 then "0" else "") := by
    split <;> exact Text.isEncodable_ofString _
  unfold scientific
  match digits with
  | [] => simp
  | [d] => simpa [hsign, hfill] using h
  | d :: next :: rest => simpa [hsign, hfill] using h

@[simp] theorem isEncodable_displayMagnitude (digits : Nat) (exponent : Int) :
    (displayMagnitude digits exponent).IsEncodable := by
  have hshown (n : Nat) : Text.IsEncodable ((Text.ofNat n).reverse.dropWhile (· = .char '0')).reverse := by
    intro c hc
    have hmem := (List.dropWhile_sublist _).mem (List.mem_reverse.mp hc)
    exact Text.isEncodable_ofNat n c (List.mem_reverse.mp hmem)
  unfold displayMagnitude
  split
  · exact Text.isEncodable_ofString _
  · exact Text.isEncodable_ofString _
  · dsimp only
    split
    · exact isEncodable_positional (hshown _) _
    · exact isEncodable_scientific (hshown _) _

@[simp] theorem isEncodable_signText (negative : Bool) : (signText negative).IsEncodable := by
  cases negative <;> exact Text.isEncodable_ofString _

theorem isEncodable_display (d : Decimal) : d.display.IsEncodable := by
  cases d <;> simp [display]

theorem isEncodable_write (d : Decimal) : d.write.IsEncodable := by
  cases d with
  | finite negative digits exponent =>
    rw [write]
    split <;> simp
  | _ => simp [write]

end Decimal

@[simp] theorem Scalar.isEncodable_display (value : Scalar) : value.display.IsEncodable := by
  cases value with
  | null => exact Text.isEncodable_ofString _
  | bool value => cases value <;> exact Text.isEncodable_ofString _
  | int value => exact Text.isEncodable_ofInt value
  | decimal value => exact value.isEncodable_display
  | text value => exact isEncodable_quoted value

mutual
theorem isEncodable_display : ∀ document : Json, document.display.IsEncodable
  | .scalar value => value.isEncodable_display
  | .arr items => isEncodable_bracketed (isEncodable_displayItems items)
  | .obj members => by
    have hmembers := (Text.isEncodable_join (Text.isEncodable_ofString ", ")).mpr (isEncodable_displayMembers members)
    simp [display, Text.enclose, hmembers]

theorem isEncodable_displayItems : ∀ items : List Json, ∀ s ∈ displayItems items, s.IsEncodable
  | [] => List.forall_mem_nil _
  | item :: rest => List.forall_mem_cons.mpr ⟨item.isEncodable_display, isEncodable_displayItems rest⟩

theorem isEncodable_displayMembers : ∀ members : List (Text × Json), ∀ s ∈ displayMembers members, s.IsEncodable
  | [] => List.forall_mem_nil _
  | (key, value) :: rest => by
    have hvalue := value.isEncodable_display
    exact List.forall_mem_cons.mpr ⟨by simp [hvalue], isEncodable_displayMembers rest⟩
end

attribute [simp] isEncodable_display

theorem ReadError.isEncodable_message (e : ReadError) : e.message.IsEncodable := by
  have hfault : e.fault.message.IsEncodable := by
    cases e.fault <;> exact Text.isEncodable_ofString _
  simp [message, hfault]

end Json

section Messages

theorem Formula.ReadError.isEncodable_message (e : Formula.ReadError) : e.message.IsEncodable := by
  have hfault : e.fault.message.IsEncodable := by
    cases e.fault <;> exact Text.isEncodable_ofString _
  simp [message, hfault]

theorem FeatureError.isEncodable_message (e : FeatureError) : e.message.IsEncodable := by
  simp [message]

theorem GrammarError.isEncodable_message {e : GrammarError} {message : Text} (h : e.message? = some message) :
    message.IsEncodable := by
  cases e with
  | notAnObject | wrongType => cases h
  | malformedEntry entry | noFeatures token =>
    cases h
    simp
  | feature error =>
    cases h
    exact error.isEncodable_message
  | meaning error =>
    cases h
    exact error.isEncodable_message

theorem ModelError.isEncodable_message {e : ModelError} {message : Text} (h : e.message? = some message) :
    message.IsEncodable := by
  cases e with
  | notAnObject | wrongType | keyedPair => cases h
  | indexText text =>
    cases h
    have hshown : Text.IsEncodable ((quoted text).take 200) := fun c hc =>
      isEncodable_quoted text c (List.mem_of_mem_take hc)
    simp [hshown]
  | pairLength length =>
    cases h
    split <;> simp
  | pair relation value | indexKey key | notAnEntity index value =>
    cases h
    simp

theorem AssignmentError.isEncodable_message (e : AssignmentError) : e.message.IsEncodable := by
  cases e <;> simp [message]

theorem FileError.isEncodable_message (e : FileError) : e.message.IsEncodable := by
  have hfault : e.fault.message.IsEncodable := by
    cases e.fault <;> exact Text.isEncodable_ofString _
  simp [message, hfault]

theorem DocumentError.isEncodable_message (e : DocumentError) : e.message.IsEncodable := by
  cases e with
  | system error path => simp [message]
  | decoding error => exact error.isEncodable_message
  | json error => exact error.isEncodable_message

/-- What is said when a file cannot be loaded can be encoded, whatever is in the file. -/
theorem LoadError.isEncodable_message {e : LoadError} {message : Text} (h : e.message? = some message) :
    message.IsEncodable := by
  cases e with
  | noPath => cases h
  | nullInPath =>
    cases h
    exact Text.isEncodable_ofString _
  | pathEncoding error =>
    cases h
    exact error.isEncodable_message
  | file error =>
    cases h
    exact error.isEncodable_message
  | json error =>
    cases h
    exact error.isEncodable_message
  | grammar error => exact error.isEncodable_message h
  | model error => exact error.isEncodable_message h

end Messages

section Documents

namespace Json

mutual
/-- All texts in a document, the keys of its members among them. -/
def texts : Json → List Text
  | .scalar value => value.text?.toList
  | .arr items => itemTexts items
  | .obj members => memberTexts members

def itemTexts : List Json → List Text
  | [] => []
  | item :: rest => item.texts ++ itemTexts rest

def memberTexts : List (Text × Json) → List Text
  | [] => []
  | (key, value) :: rest => key :: (value.texts ++ memberTexts rest)
end

section Texts
variable {p : Text → Prop}

theorem forall_mem_itemTexts {items : List Json} :
    (∀ s ∈ itemTexts items, p s) ↔ ∀ item ∈ items, ∀ s ∈ item.texts, p s := by
  induction items with
  | nil => simp [itemTexts]
  | cons item items ih => rw [itemTexts, List.forall_mem_append, List.forall_mem_cons, ih]

theorem forall_mem_memberTexts {members : List (Text × Json)} :
    (∀ s ∈ memberTexts members, p s) ↔ ∀ m ∈ members, p m.1 ∧ ∀ s ∈ m.2.texts, p s := by
  induction members with
  | nil => simp [memberTexts]
  | cons m members ih =>
    rw [memberTexts, List.forall_mem_cons, List.forall_mem_append, List.forall_mem_cons, ih, and_assoc]

theorem forall_mem_texts_str {s : Text} : (∀ t ∈ texts (.str s), p t) ↔ p s := List.forall_mem_singleton

theorem forall_mem_texts_strings {items : List Text} : (∀ t ∈ texts (strings items), p t) ↔ ∀ s ∈ items, p s := by
  rw [strings, texts, forall_mem_itemTexts, List.forall_mem_map]
  exact forall₂_congr fun s _ => forall_mem_texts_str

end Texts

def IsEncodable (document : Json) : Prop := ∀ s ∈ document.texts, s.IsEncodable

instance (document : Json) : Decidable document.IsEncodable :=
  inferInstanceAs (Decidable (∀ s ∈ document.texts, s.IsEncodable))

theorem isEncodable_arr {items : List Json} : (arr items).IsEncodable ↔ ∀ item ∈ items, item.IsEncodable :=
  forall_mem_itemTexts

theorem isEncodable_obj {members : List (Text × Json)} :
    (obj members).IsEncodable ↔ ∀ m ∈ members, m.1.IsEncodable ∧ m.2.IsEncodable := forall_mem_memberTexts

theorem isEncodable_str {s : Text} : (str s).IsEncodable ↔ s.IsEncodable := forall_mem_texts_str

theorem isEncodable_strings {items : List Text} : (strings items).IsEncodable ↔ ∀ s ∈ items, s.IsEncodable :=
  forall_mem_texts_strings

theorem Scalar.isEncodable_write {value : Scalar} (h : ∀ s ∈ value.text?, s.IsEncodable) : value.write.IsEncodable := by
  cases value with
  | null => exact Text.isEncodable_ofString _
  | bool value => cases value <;> exact Text.isEncodable_ofString _
  | int value => exact Text.isEncodable_ofInt value
  | decimal value => exact value.isEncodable_write
  | text value =>
    have hvalue := isEncodable_flatMap_escapeChar.mpr (h value rfl)
    simp [write, writeString, Text.enclose, hvalue]

theorem Layout.isEncodable_lead_compact (level : Nat) (mark : CodePoint) (h : ¬mark.isHalf) :
    (Layout.compact.lead level mark).IsEncodable := List.forall_mem_singleton.mpr h

theorem Layout.isEncodable_keyPieces_compact {before key : Text} (hbefore : before.IsEncodable)
    (hkey : key.IsEncodable) : ∀ piece ∈ Layout.compact.keyPieces before key, piece.IsEncodable := by
  have hcolon : Layout.compact.colon.IsEncodable := Text.isEncodable_ofString ":"
  have hkey : (Scalar.text key).write.IsEncodable := Scalar.isEncodable_write fun s hs => Option.some.inj hs ▸ hkey
  rw [Scalar.write] at hkey
  simp [keyPieces, hbefore, hkey, hcolon]

mutual
theorem isEncodable_pieces (level : Nat) {before : Text} (hbefore : before.IsEncodable) : ∀ {document : Json},
    (∀ s ∈ document.texts, s.IsEncodable) → ∀ piece ∈ document.pieces .compact level before, piece.IsEncodable
  | .scalar value, h => by
    have hvalue : value.write.IsEncodable := Scalar.isEncodable_write fun s hs => h s (Option.mem_toList.mpr hs)
    exact List.forall_mem_singleton.mpr (Text.isEncodable_append.mpr ⟨hbefore, hvalue⟩)
  | .arr [], _ => by simp [pieces, hbefore]
  | .arr (item :: rest), h => by
    obtain ⟨hitem, hrest⟩ := List.forall_mem_append.mp h
    have hopening := Layout.isEncodable_lead_compact (level + 1) '[' Bool.false_ne_true
    have hnewline : (Layout.compact.newline level).IsEncodable := Text.isEncodable_nil
    simp only [pieces, List.forall_mem_append, List.forall_mem_cons, List.not_mem_nil, false_implies, implies_true,
      and_true]
    exact ⟨⟨⟨hbefore, isEncodable_pieces (level + 1) hopening hitem⟩, isEncodable_itemPieces (level + 1) hrest⟩,
      hnewline, Text.isEncodable_ofString _⟩
  | .obj [], _ => by simp [pieces, hbefore]
  | .obj ((key, value) :: rest), h => by
    obtain ⟨hkey, hparts⟩ := List.forall_mem_cons.mp h
    obtain ⟨hvalue, hrest⟩ := List.forall_mem_append.mp hparts
    have hopening := Layout.isEncodable_lead_compact (level + 1) '\x7b' Bool.false_ne_true
    have hnewline : (Layout.compact.newline level).IsEncodable := Text.isEncodable_nil
    simp only [pieces, List.forall_mem_append, List.forall_mem_cons, List.not_mem_nil, false_implies, implies_true,
      and_true]
    exact ⟨⟨⟨⟨hbefore, Layout.isEncodable_keyPieces_compact hopening hkey⟩,
      isEncodable_pieces (level + 1) Text.isEncodable_nil hvalue⟩, isEncodable_memberPieces (level + 1) hrest⟩,
      hnewline, Text.isEncodable_ofString _⟩

theorem isEncodable_itemPieces (level : Nat) : ∀ {items : List Json},
    (∀ s ∈ itemTexts items, s.IsEncodable) → ∀ piece ∈ itemPieces .compact level items, piece.IsEncodable
  | [], _ => List.forall_mem_nil _
  | item :: rest, h => by
    obtain ⟨hitem, hrest⟩ := List.forall_mem_append.mp h
    have hcomma := Layout.isEncodable_lead_compact level ',' Bool.false_ne_true
    exact List.forall_mem_append.mpr ⟨isEncodable_pieces level hcomma hitem, isEncodable_itemPieces level hrest⟩

theorem isEncodable_memberPieces (level : Nat) : ∀ {members : List (Text × Json)},
    (∀ s ∈ memberTexts members, s.IsEncodable) → ∀ piece ∈ memberPieces .compact level members, piece.IsEncodable
  | [], _ => List.forall_mem_nil _
  | (key, value) :: rest, h => by
    obtain ⟨hkey, hparts⟩ := List.forall_mem_cons.mp h
    obtain ⟨hvalue, hrest⟩ := List.forall_mem_append.mp hparts
    have hcomma := Layout.isEncodable_lead_compact level ',' Bool.false_ne_true
    simp only [memberPieces, List.forall_mem_append]
    exact ⟨⟨Layout.isEncodable_keyPieces_compact hcomma hkey, isEncodable_pieces level Text.isEncodable_nil hvalue⟩,
      isEncodable_memberPieces level hrest⟩
end

theorem IsEncodable.compact {document : Json} (h : document.IsEncodable) : document.compact.IsEncodable := by
  intro c hc
  obtain ⟨piece, hpiece, hc⟩ := List.mem_flatten.mp hc
  exact isEncodable_pieces 0 Text.isEncodable_nil h piece hpiece c hc

end Json

end Documents

section Formulas

def Formula.IsEncodable (f : Formula) : Prop := f.isWritable ∧ ∀ s ∈ f.inscriptions, s.IsEncodable

theorem Formula.isHereditary_isEncodable : IsHereditary IsEncodable where
  internal h := h
  indexed h := h
  external h := h
  and h := by
    obtain ⟨hwritable, htexts⟩ := h
    obtain ⟨hf, hg⟩ := Bool.and_eq_true_iff.mp hwritable
    obtain ⟨hftexts, hgtexts⟩ := List.forall_mem_append.mp htexts
    exact ⟨⟨hf, hftexts⟩, hg, hgtexts⟩
  close h := h
  foreign _ h := nomatch h.1

theorem Formula.isEncodable_of_escapes {s name : Text} (h : Escapes s name) (hs : s.IsEncodable) :
    name.IsEncodable := by
  induction h with
  | nil => exact hs
  | plain _ _ _ ih =>
    obtain ⟨hc, hs⟩ := Text.isEncodable_cons.mp hs
    exact Text.isEncodable_cons.mpr ⟨hc, ih hs⟩
  | escaped _ ih =>
    obtain ⟨hc, hs⟩ := Text.isEncodable_cons.mp (Text.isEncodable_cons.mp hs).2
    exact Text.isEncodable_cons.mpr ⟨hc, ih hs⟩

/-- The texts in a formula are parts of the text that denotes it. -/
theorem Formula.isEncodable_inscriptions_of_denotes {level : Level} {s : Text} {f : Formula} (h : Denotes level s f)
    (hs : s.IsEncodable) : ∀ t ∈ f.inscriptions, t.IsEncodable := by
  have henclose {opening closing : CodePoint} {s : Text} (h : Text.IsEncodable (Text.enclose opening closing s)) :
      s.IsEncodable := (Text.isEncodable_append.mp (Text.isEncodable_cons.mp h).2).1
  induction h with
  | brackets _ ih | close _ _ ih => exact ih (henclose hs)
  | role hr _ _ ih =>
    have hoperand := ih (henclose (Text.isEncodable_append.mp hs).2)
    cases hr <;> exact hoperand
  | quoted hname => exact List.forall_mem_singleton.mpr (isEncodable_of_escapes hname (henclose hs))
  | var => exact List.forall_mem_nil _
  | existential | universal | bare => exact List.forall_mem_singleton.mpr hs
  | blank => exact List.forall_mem_singleton.mpr Text.isEncodable_nil
  | trimmed _ _ _ ih => exact ih (Text.isEncodable_append.mp (Text.isEncodable_append.mp hs).1).2
  | and _ _ _ _ _ ihf ihg =>
    obtain ⟨hleft, hright⟩ := Text.isEncodable_append.mp hs
    have hleft := (Text.isEncodable_append.mp (Text.isEncodable_append.mp hleft).1).2
    exact List.forall_mem_append.mpr ⟨ihf hleft, ihg (Text.isEncodable_cons.mp hright).2⟩

theorem Formula.isEncodable_of_read {s : Text} {f : Formula} (h : read s = .ok f) (hs : s.IsEncodable) :
    f.IsEncodable :=
  ⟨isWritable_of_read h, isEncodable_inscriptions_of_denotes (denotes_of_read h) hs⟩

theorem Formula.IsEncodable.text {f : Formula} (h : f.IsEncodable) : f.text.IsEncodable :=
  (forall_mem_text fun _ => CodePoint.not_isHalf_of_isGraphic).mpr h.2

theorem EvaluationError.Shows.isEncodable_message {e : EvaluationError} (h : e.Shows Formula.IsEncodable)
    {message : Text} (hmessage : e.message? = some message) : message.IsEncodable := by
  cases e with
  | notAFormula => cases hmessage
  | indexedRole role | restrictor kind role =>
    cases hmessage
    simp [Formula.IsEncodable.text h]
  | _ =>
    cases hmessage
    simp

end Formulas

section Derivations

theorem Text.isEncodable_of_mem_splitOn {c : CodePoint} {s part : Text} (h : s.IsEncodable)
    (hpart : part ∈ splitOn c s) : part.IsEncodable := by
  intro d hd
  cases hparts : splitOn c s with
  | nil => rw [hparts] at hpart; cases hpart
  | cons first parts =>
    refine h d ?_
    rw [eq_append_flatMap_of_splitOn hparts]
    rw [hparts] at hpart
    rcases List.mem_cons.mp hpart with rfl | hpart
    · exact List.mem_append_left _ hd
    · exact List.mem_append_right _ (List.mem_flatMap.mpr ⟨part, hpart, List.mem_cons_of_mem c hd⟩)

theorem Text.isEncodable_of_mem_linesFrom {begun s line : Text} (hbegun : begun.IsEncodable) (h : s.IsEncodable)
    (hline : line ∈ linesFrom begun s) : line.IsEncodable := by
  have hreverse {begun : Text} (h : begun.IsEncodable) : Text.IsEncodable begun.reverse :=
    fun c hc => h c (List.mem_reverse.mp hc)
  fun_induction linesFrom begun s with
  | case1 => cases hline
  | case2 begun hne => exact List.mem_singleton.mp hline ▸ hreverse hbegun
  | case3 begun s ih =>
    simp only [isEncodable_cons] at h
    rcases List.mem_cons.mp hline with rfl | hline
    · exact hreverse hbegun
    · exact ih isEncodable_nil h.2.2 hline
  | case4 begun c s hnot hend ih =>
    rcases List.mem_cons.mp hline with rfl | hline
    · exact hreverse hbegun
    · exact ih isEncodable_nil (isEncodable_cons.mp h).2 hline
  | case5 begun c s hnot hend ih =>
    obtain ⟨hc, hs⟩ := isEncodable_cons.mp h
    exact ih (isEncodable_cons.mpr ⟨hc, hbegun⟩) hs hline

def Lexicon.IsEncodable (l : Lexicon) : Prop := ∀ s ∈ l.grammar.texts, s.IsEncodable

instance (l : Lexicon) : Decidable l.IsEncodable := inferInstanceAs (Decidable (∀ s ∈ l.grammar.texts, s.IsEncodable))

def Model.IsEncodable (m : Model) : Prop := ∀ s ∈ m.texts, s.IsEncodable

instance (m : Model) : Decidable m.IsEncodable := inferInstanceAs (Decidable (∀ s ∈ m.texts, s.IsEncodable))

theorem Lexicon.IsEncodable.inscriptions {l : Lexicon} (h : l.IsEncodable) (hl : l.IsWellFormed) :
    ∀ item ∈ l.grammar.items, ∀ s ∈ item.inscriptions, s.IsEncodable := by
  intro item hitem
  have htexts : ∀ s ∈ item.texts, s.IsEncodable := fun s hs =>
    h s (List.mem_append_right _ (List.mem_flatMap.mpr ⟨item, hitem, hs⟩))
  obtain ⟨htoken, hrest⟩ := List.forall_mem_cons.mp htexts
  obtain ⟨hcategories, hnames⟩ := List.forall_mem_append.mp hrest
  have hmeaning := (Formula.forall_inscriptions_iff (Parsing.isWritable_of_mem_items hl item hitem)
    (Text.isEncodable_ofString "some") (Text.isEncodable_ofString "every")).mpr hnames
  exact List.forall_mem_cons.mpr ⟨htoken, List.forall_mem_append.mpr ⟨hcategories, hmeaning⟩⟩

structure ChartEntry.IsEncodable (e : ChartEntry) : Prop where
  phon : e.expression.phon.IsEncodable
  meaning : e.expression.meaning.IsEncodable
  listing : e.listingText.IsEncodable

theorem ChartEntry.IsEncodable.lines {e : ChartEntry} (h : e.IsEncodable) :
    ∀ line ∈ CommandLine.derivationLines e, line.IsEncodable :=
  fun _ hline => Text.isEncodable_of_mem_linesFrom Text.isEncodable_nil h.listing hline

theorem Lexicon.IsEncodable.of_parse {l : Lexicon} (h : l.IsEncodable) (hl : l.IsWellFormed)
    {categories : PhraseCategories} {counters : Counters} {text : Text} {e : ChartEntry}
    (hparse : Parsing.Outcome.entry? (Parsing.Setting.parse ⟨l.grammar, categories⟩ text counters) = some e) :
    e.IsEncodable := by
  have hp := fun c (hc : CodePoint.isGraphic c) => CodePoint.not_isHalf_of_isGraphic hc
  have hitems : ∀ item ∈ Parsing.itemsOf l.grammar (tokenize text), ∀ s ∈ item.inscriptions, s.IsEncodable :=
    fun item hitem => h.inscriptions hl item (Parsing.mem_items_of_mem_itemsOf hitem)
  have htext := (Parsing.forall_mem_text_of_parse hp hparse).mpr hitems e e.mem_nodes_self
  obtain ⟨hphon, -, hmeaning, -⟩ := Expression.isWrittenWith_iff.mp ((Expression.forall_mem_text hp _).mp htext).1
  refine ⟨hphon, ⟨Parsing.isWritable_of_parse (Parsing.isWritable_of_mem_items hl) hparse, hmeaning⟩, ?_⟩
  have hlines := (Parsing.forall_mem_listing_iff hp hparse).mpr hitems
  exact (Text.isEncodable_join (Text.isEncodable_ofString "\n")).mpr hlines

end Derivations

end MinimalistGrammar
