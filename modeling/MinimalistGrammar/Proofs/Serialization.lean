import MinimalistGrammar.Json.Reader
import MinimalistGrammar.Json.Writer

/-! Documents of texts, lists and objects, written with an item a line and read again. -/
namespace MinimalistGrammar

namespace Text

@[simp] theorem length_hexDigits (width n : Nat) : (hexDigits width n).length = width := by
  induction width generalizing n with
  | zero => rfl
  | succ width ih => rw [hexDigits, List.length_append, ih, List.length_singleton]

end Text

namespace Json

section Strings

theorem escapeChar_ne_nil (c : CodePoint) : escapeChar c ≠ [] := by
  unfold escapeChar
  split <;> try exact List.cons_ne_nil _ _
  split <;> exact List.cons_ne_nil _ _

theorem hexNumber?_hexDigits {n : Nat} (h : n < 0x20) : hexNumber? (Text.hexDigits 4 n) = some n := by
  revert n
  decide

/-- The number of a control is no half of a pair, so that nothing after it is looked at. -/
theorem readUnits_hexDigits {n : Nat} (h : n < 0x20) {s : Text} (hs : s ≠ []) :
    readUnits (Text.hexDigits 4 n ++ s) = .ok (CodePoint.ofNat n, s) := by
  have hpositive := List.length_pos_iff.mpr hs
  have htake : (Text.hexDigits 4 n ++ s).take 4 = Text.hexDigits 4 n :=
    List.take_left' (Text.length_hexDigits 4 n)
  have hdrop : (Text.hexDigits 4 n ++ s).drop 4 = s := List.drop_left' (Text.length_hexDigits 4 n)
  have hunit : codeUnit? (Text.hexDigits 4 n ++ s) = some n := by
    rw [codeUnit?, htake, hexNumber?_hexDigits h, List.length_append, Text.length_hexDigits]
    exact if_neg (by omega)
  have hhigh : ¬0xd800 ≤ n := by omega
  unfold readUnits
  rw [hunit, hdrop]
  dsimp only
  split
  · simp only [hhigh, false_and, if_false]
  · rfl

theorem ofNat_toNat_of_control {c : CodePoint} (h : c.toNat < 0x20) : CodePoint.ofNat c.toNat = c := by
  cases c with
  | char c =>
    have hlow : ¬(c.toNat - 0xd800 < 0x800 ∧ 0xd800 ≤ c.toNat) := by
      simp only [CodePoint.toNat] at h
      omega
    rw [CodePoint.toNat, CodePoint.ofNat, dif_neg hlow, Char.ofNat_toNat]
  | half offset =>
    simp only [CodePoint.toNat] at h
    omega

theorem readString_of_plain (opening bound : Nat) (done : Text) {c : CodePoint} (s : Text)
    (hquote : c ≠ '"') (hbackslash : c ≠ '\\') (hcontrol : ¬c.toNat < 0x20) :
    readString opening (bound + 1) done (c :: s) = readString opening bound (c :: done) s := by
  rw [readString]
  · exact if_neg hcontrol
  · exact hquote
  · exact fun h _ => hbackslash h
  · exact fun _ h _ => hbackslash h
  · exact fun _ _ h _ => hbackslash h

theorem readString_escapeChar (opening bound : Nat) (done : Text) (c : CodePoint) {s : Text} (hs : s ≠ []) :
    readString opening (bound + 1) done (escapeChar c ++ s) = readString opening bound (c :: done) s := by
  unfold escapeChar
  split
  case h_8 hquote hbackslash _ _ _ _ _ =>
    split
    · rename_i hcontrol
      rw [List.cons_append, List.cons_append, readString, readUnits_hexDigits hcontrol hs,
        ofNat_toNat_of_control hcontrol]
      rfl
    · rename_i hcontrol
      exact readString_of_plain opening bound done s hquote hbackslash hcontrol
  all_goals rfl

theorem readString_flatMap_escapeChar (opening : Nat) {bound : Nat} (done : Text) {s : Text} (rest : Text)
    (hbound : (s.flatMap escapeChar).length < bound) :
    readString opening bound done (s.flatMap escapeChar ++ .char '"' :: rest) = .ok (done.reverse ++ s, rest) := by
  induction s generalizing bound done with
  | nil =>
    obtain ⟨bound, rfl⟩ := Nat.exists_eq_add_one_of_ne_zero (Nat.ne_of_gt hbound)
    rw [List.flatMap_nil, List.nil_append, readString, List.append_nil]
  | cons c s ih =>
    have hescape := List.length_pos_iff.mpr (escapeChar_ne_nil c)
    rw [List.flatMap_cons, List.length_append] at hbound
    obtain ⟨bound, rfl⟩ := Nat.exists_eq_add_one_of_ne_zero (Nat.ne_of_gt (Nat.zero_lt_of_lt hbound))
    have hs : s.flatMap escapeChar ++ .char '"' :: rest ≠ [] :=
      List.append_ne_nil_of_right_ne_nil _ (List.cons_ne_nil _ _)
    rw [List.flatMap_cons, List.append_assoc, readString_escapeChar opening bound done c hs,
      ih (c :: done) (by omega), List.reverse_cons, List.append_assoc, List.singleton_append]

end Strings

/-- Texts, lists and objects, no two of whose members have one key. -/
inductive IsPlain : Json → Prop where
  | str (s : Text) : IsPlain (.str s)
  | arr {items : List Json} (h : ∀ item ∈ items, IsPlain item) : IsPlain (.arr items)
  | obj {members : List (Text × Json)} (hkeys : (members.map (·.1)).Nodup)
      (h : ∀ m ∈ members, IsPlain m.2) : IsPlain (.obj members)

section Layout

def indentedAt (level : Nat) (document : Json) : Text := (document.pieces .indented level []).flatten

def memberAt (level : Nat) (member : Text × Json) : Text :=
  writeString member.1 ++ .char ':' :: .char ' ' :: indentedAt level member.2

def newline (level : Nat) : Text := Layout.indented.newline level

theorem colon_indented : Layout.indented.colon = [.char ':', .char ' '] := rfl

/-- Parts that are written behind others, each on a line of its own after a comma. -/
def behindAt {α : Type} (level : Nat) (write : α → Text) (parts : List α) : Text :=
  parts.flatMap fun part => .char ',' :: (newline level ++ write part)

def enclosedAt {α : Type} (opening closing : CodePoint) (level : Nat) (write : α → Text) : List α → Text
  | [] => [opening, closing]
  | part :: parts =>
    opening :: (newline (level + 1) ++
      (write part ++ (behindAt (level + 1) write parts ++ (newline level ++ [closing]))))

theorem behindAt_cons {α : Type} (level : Nat) (write : α → Text) (part : α) (parts : List α) :
    behindAt level write (part :: parts) =
      .char ',' :: (newline level ++ (write part ++ behindAt level write parts)) := by
  rw [behindAt, List.flatMap_cons, ← behindAt, List.cons_append, List.append_assoc]

theorem exists_enclosedAt_eq_cons {α : Type} (opening closing : CodePoint) (level : Nat) (write : α → Text)
    (parts : List α) : ∃ s, enclosedAt opening closing level write parts = opening :: s := by
  cases parts <;> exact ⟨_, rfl⟩

theorem flatten_pieces (layout : Layout) (level : Nat) (before : Text) (document : Json) :
    (document.pieces layout level before).flatten = before ++ (document.pieces layout level []).flatten := by
  cases document with
  | scalar value => simp [pieces]
  | arr items => cases items <;> simp [pieces]
  | obj members => cases members <;> simp [pieces]

theorem flatten_itemPieces (level : Nat) (items : List Json) :
    (itemPieces .indented level items).flatten = behindAt level (indentedAt level) items := by
  induction items with
  | nil => rfl
  | cons item items ih =>
    rw [itemPieces, List.flatten_append, ih, flatten_pieces, ← indentedAt, behindAt_cons, Layout.lead]
    simp [newline]

theorem flatten_memberPieces (level : Nat) (members : List (Text × Json)) :
    (memberPieces .indented level members).flatten = behindAt level (memberAt level) members := by
  induction members with
  | nil => rfl
  | cons member members ih =>
    rw [memberPieces, List.flatten_append, ih, List.flatten_append, ← indentedAt, behindAt_cons, Layout.keyPieces,
      Layout.lead]
    simp [newline, memberAt, colon_indented]

theorem indentedAt_str (level : Nat) (s : Text) :
    indentedAt level (.str s) = .char '"' :: (s.flatMap escapeChar ++ [.char '"']) := by
  simp [indentedAt, pieces, Scalar.write, writeString, Text.enclose]

theorem indentedAt_arr (level : Nat) (items : List Json) :
    indentedAt level (.arr items) = enclosedAt (.char '[') (.char ']') level (indentedAt (level + 1)) items := by
  cases items with
  | nil => rfl
  | cons item items =>
    simp [indentedAt, pieces, flatten_pieces .indented (level + 1) (_ :: _), flatten_itemPieces, enclosedAt,
      Layout.lead, newline, Text.ofString]

theorem indentedAt_obj (level : Nat) (members : List (Text × Json)) :
    indentedAt level (.obj members) =
      enclosedAt (.char '\x7b') (.char '\x7d') level (memberAt (level + 1)) members := by
  cases members with
  | nil => rfl
  | cons member members =>
    simp [indentedAt, memberAt, pieces, flatten_memberPieces, enclosedAt, Layout.lead, Layout.keyPieces, newline,
      Text.ofString, colon_indented]

end Layout

section Space

@[simp] theorem skipSpace_newline_append (level : Nat) (s : Text) :
    skipSpace (newline level ++ s) = skipSpace s := by
  have hspace : ∀ c ∈ newline level, isSpace c := by
    intro c hc
    rcases List.mem_cons.mp hc with rfl | hc
    · decide
    · rw [List.eq_of_mem_replicate hc]
      decide
  exact List.dropWhile_append_of_pos hspace

theorem skipSpace_cons_of_not_isSpace {c : CodePoint} (h : ¬isSpace c) (s : Text) :
    skipSpace (c :: s) = c :: s :=
  List.dropWhile_cons_of_neg h

theorem IsPlain.exists_indentedAt_eq_cons {document : Json} (h : document.IsPlain) (level : Nat) :
    ∃ c s, indentedAt level document = c :: s ∧ ¬isSpace c ∧ c ≠ .char ']' ∧ c ≠ .char '\ufeff' := by
  cases h with
  | str s => exact ⟨_, _, indentedAt_str level s, by decide⟩
  | @arr items =>
    obtain ⟨s, hs⟩ := exists_enclosedAt_eq_cons (.char '[') (.char ']') level (indentedAt (level + 1)) items
    exact ⟨_, s, (indentedAt_arr level items).trans hs, by decide⟩
  | @obj members =>
    obtain ⟨s, hs⟩ := exists_enclosedAt_eq_cons (.char '\x7b') (.char '\x7d') level (memberAt (level + 1)) members
    exact ⟨_, s, (indentedAt_obj level members).trans hs, by decide⟩

theorem IsPlain.skipSpace_indentedAt_append {document : Json} (h : document.IsPlain) (level : Nat)
    (s : Text) : skipSpace (indentedAt level document ++ s) = indentedAt level document ++ s := by
  obtain ⟨c, t, ht, hc, -⟩ := h.exists_indentedAt_eq_cons level
  rw [ht, List.cons_append, skipSpace_cons_of_not_isSpace hc]

end Space

section Reading

/-- What is written is read as the document at every depth, and what stands behind it is left. -/
def IsReadBack (document : Json) : Prop :=
  ∀ (level bound : Nat) (rest : Text), (indentedAt level document).length ≤ bound →
    readValue bound (indentedAt level document ++ rest) = .ok (document, rest)

theorem isReadBack_str (s : Text) : IsReadBack (.str s) := by
  intro level bound rest hbound
  rw [indentedAt_str] at hbound ⊢
  cases bound with
  | zero => cases hbound
  | succ bound =>
    have hread := readString_flatMap_escapeChar
      (.char '"' :: (s.flatMap escapeChar ++ .char '"' :: rest)).length [] rest
      (show (s.flatMap escapeChar).length < (.char '"' :: (s.flatMap escapeChar ++ .char '"' :: rest)).length by
        simp only [List.length_cons, List.length_append]
        omega)
    rw [List.cons_append, List.append_assoc, List.singleton_append, readValue, hread]
    rfl

theorem readItems_behindAt {item : Json} {items : List Json}
    (hplain : ∀ other ∈ item :: items, other.IsPlain) (h : ∀ other ∈ item :: items, other.IsReadBack)
    (level outer : Nat) {bound : Nat} (done : List Json) (rest : Text)
    (hbound : (indentedAt level item).length + (behindAt level (indentedAt level) items).length < bound) :
    readItems bound done (indentedAt level item ++
        (behindAt level (indentedAt level) items ++ (newline outer ++ .char ']' :: rest))) =
      .ok (.arr (done.reverse ++ item :: items), rest) := by
  induction items generalizing item bound done with
  | nil =>
    obtain ⟨bound, rfl⟩ := Nat.exists_eq_add_one_of_ne_zero (Nat.ne_of_gt (Nat.zero_lt_of_lt hbound))
    have hitem := h item List.mem_cons_self level bound (newline outer ++ .char ']' :: rest) (by omega)
    have hspace : skipSpace (newline outer ++ .char ']' :: rest) = .char ']' :: rest := by
      rw [skipSpace_newline_append, skipSpace_cons_of_not_isSpace (by decide)]
    rw [show behindAt level (indentedAt level) [] = [] from rfl, List.nil_append, readItems, hitem]
    simp only [bind, Except.bind, hspace, pure, Except.pure, List.reverse_cons]
  | cons next items ih =>
    obtain ⟨bound, rfl⟩ := Nat.exists_eq_add_one_of_ne_zero (Nat.ne_of_gt (Nat.zero_lt_of_lt hbound))
    rw [behindAt_cons] at hbound ⊢
    simp only [List.length_cons, List.length_append] at hbound
    obtain ⟨hitem, hitems⟩ := List.forall_mem_cons.mp h
    obtain ⟨-, hnext⟩ := List.forall_mem_cons.mp hplain
    simp only [List.cons_append, List.append_assoc]
    rw [readItems, hitem level bound _ (by omega)]
    simp only [bind, Except.bind, skipSpace_newline_append,
      skipSpace_cons_of_not_isSpace (show ¬isSpace (.char ',') by decide)]
    rw [(hnext next List.mem_cons_self).skipSpace_indentedAt_append, ih hnext hitems (item :: done) (by omega),
      List.reverse_cons, List.append_assoc, List.singleton_append]

theorem isReadBack_arr {items : List Json} (hplain : ∀ item ∈ items, item.IsPlain)
    (h : ∀ item ∈ items, item.IsReadBack) : IsReadBack (.arr items) := by
  intro level bound rest hbound
  cases items with
  | nil =>
    cases bound with
    | zero => cases hbound
    | succ bound => rfl
  | cons item items =>
    rw [indentedAt_arr, enclosedAt] at hbound ⊢
    simp only [List.length_cons, List.length_append, List.length_nil] at hbound
    obtain ⟨bound, rfl⟩ := Nat.exists_eq_add_one_of_ne_zero (Nat.ne_of_gt (Nat.zero_lt_of_lt hbound))
    have hitem := hplain item List.mem_cons_self
    obtain ⟨c, t, ht, -, hbracket, -⟩ := hitem.exists_indentedAt_eq_cons (level + 1)
    have hread := readItems_behindAt hplain h (level + 1) level [] rest
      (show (indentedAt (level + 1) item).length +
        (behindAt (level + 1) (indentedAt (level + 1)) items).length < bound by omega)
    simp only [List.cons_append, List.append_assoc, List.nil_append]
    rw [readValue, skipSpace_newline_append, hitem.skipSpace_indentedAt_append]
    rw [ht, List.cons_append] at hread ⊢
    split
    · rename_i heq
      exact absurd (List.cons.inj heq).1 hbracket
    · exact hread

theorem readKey_writeString (key : Text) {s : Text} (hs : skipSpace s = s) :
    readKey (writeString key ++ .char ':' :: .char ' ' :: s) = .ok (key, s) := by
  have hread := readString_flatMap_escapeChar
    (.char '"' :: (key.flatMap escapeChar ++ .char '"' :: .char ':' :: .char ' ' :: s)).length []
    (.char ':' :: .char ' ' :: s)
    (show (key.flatMap escapeChar).length <
        (.char '"' :: (key.flatMap escapeChar ++ .char '"' :: .char ':' :: .char ' ' :: s)).length by
      simp only [List.length_cons, List.length_append]
      omega)
  have hspace : skipSpace (.char ' ' :: s) = s := (List.dropWhile_cons_of_pos (by decide)).trans hs
  rw [writeString, Text.enclose, List.cons_append, List.append_assoc, List.singleton_append, readKey, hread]
  simp only [bind, Except.bind, skipSpace_cons_of_not_isSpace (show ¬isSpace (.char ':') by decide), hspace,
    List.reverse_nil, List.nil_append]

theorem putMember_of_not_mem {key : Text} {members : List (Text × Json)} (h : key ∉ members.map (·.1))
    (value : Json) : putMember key value members = members ++ [(key, value)] := by
  induction members with
  | nil => rfl
  | cons m members ih =>
    rw [List.map_cons, List.mem_cons, not_or] at h
    rw [putMember, if_neg (Ne.symm h.1), ih h.2, List.cons_append]

theorem not_mem_keys_of_nodup {done members : List (Text × Json)} {member : Text × Json}
    (h : ((done ++ member :: members).map (·.1)).Nodup) : member.1 ∉ done.map (·.1) := by
  rw [List.map_append, List.map_cons] at h
  exact fun hmem => (List.nodup_append.mp h).2.2 _ hmem _ List.mem_cons_self rfl

theorem readKey_memberAt {member : Text × Json} (h : member.2.IsPlain) (level : Nat) (rest : Text) :
    readKey (memberAt level member ++ rest) = .ok (member.1, indentedAt level member.2 ++ rest) := by
  have hspace := h.skipSpace_indentedAt_append level rest
  rw [memberAt, List.append_assoc]
  exact readKey_writeString member.1 hspace

theorem skipSpace_memberAt_append (level : Nat) (member : Text × Json) (s : Text) :
    skipSpace (memberAt level member ++ s) = memberAt level member ++ s :=
  skipSpace_cons_of_not_isSpace (by decide) _

/-- A member with a new key is read, and then the mark behind it counts. -/
theorem readMembers_memberAt_append {member : Text × Json} (hplain : member.2.IsPlain)
    (h : member.2.IsReadBack) {level bound : Nat} (hbound : (memberAt level member).length ≤ bound)
    {done : List (Text × Json)} (hkey : member.1 ∉ done.map (·.1)) (s : Text) :
    readMembers (bound + 1) done (memberAt level member ++ s) =
      match skipSpace s with
      | .char '\x7d' :: rest => .ok (.obj (done ++ [member]), rest)
      | .char ',' :: rest => readMembers bound (done ++ [member]) (skipSpace rest)
      | rest => fail .comma rest := by
  have hlength : (indentedAt level member.2).length ≤ (memberAt level member).length := by
    simp only [memberAt, List.length_append, List.length_cons]
    omega
  have hvalue := h level bound s (Nat.le_trans hlength hbound)
  rw [readMembers, readKey_memberAt hplain]
  simp only [bind, Except.bind, hvalue, putMember_of_not_mem hkey]
  rfl

theorem readMembers_behindAt {member : Text × Json} {members : List (Text × Json)}
    (hplain : ∀ other ∈ member :: members, other.2.IsPlain)
    (h : ∀ other ∈ member :: members, other.2.IsReadBack) (level outer : Nat) {bound : Nat}
    (done : List (Text × Json)) (hkeys : ((done ++ member :: members).map (·.1)).Nodup) (rest : Text)
    (hbound : (memberAt level member).length + (behindAt level (memberAt level) members).length < bound) :
    readMembers bound done (memberAt level member ++
        (behindAt level (memberAt level) members ++ (newline outer ++ .char '\x7d' :: rest))) =
      .ok (.obj (done ++ member :: members), rest) := by
  induction members generalizing member bound done with
  | nil =>
    obtain ⟨bound, rfl⟩ := Nat.exists_eq_add_one_of_ne_zero (Nat.ne_of_gt (Nat.zero_lt_of_lt hbound))
    obtain ⟨hmember, -⟩ := List.forall_mem_cons.mp hplain
    obtain ⟨hvalue, -⟩ := List.forall_mem_cons.mp h
    have hkey := not_mem_keys_of_nodup hkeys
    have hspace : skipSpace (newline outer ++ .char '\x7d' :: rest) = .char '\x7d' :: rest := by
      rw [skipSpace_newline_append, skipSpace_cons_of_not_isSpace (by decide)]
    rw [show behindAt level (memberAt level) [] = [] from rfl, List.nil_append,
      readMembers_memberAt_append hmember hvalue (by omega) hkey, hspace]
    rfl
  | cons next members ih =>
    obtain ⟨bound, rfl⟩ := Nat.exists_eq_add_one_of_ne_zero (Nat.ne_of_gt (Nat.zero_lt_of_lt hbound))
    rw [behindAt_cons] at hbound ⊢
    simp only [List.length_cons, List.length_append] at hbound
    obtain ⟨hmember, hplain⟩ := List.forall_mem_cons.mp hplain
    obtain ⟨hvalue, h⟩ := List.forall_mem_cons.mp h
    have hkey := not_mem_keys_of_nodup hkeys
    have hkeys' : ((done ++ [member] ++ next :: members).map (·.1)).Nodup := by
      rwa [List.append_assoc, List.singleton_append]
    rw [readMembers_memberAt_append hmember hvalue (by omega) hkey, List.cons_append,
      skipSpace_cons_of_not_isSpace (by decide)]
    simp only [List.append_assoc, skipSpace_newline_append, skipSpace_memberAt_append]
    rw [ih hplain h (done ++ [member]) hkeys' (by omega), List.append_assoc, List.singleton_append]

theorem isReadBack_obj {members : List (Text × Json)} (hkeys : (members.map (·.1)).Nodup)
    (hplain : ∀ member ∈ members, member.2.IsPlain) (h : ∀ member ∈ members, member.2.IsReadBack) :
    IsReadBack (.obj members) := by
  intro level bound rest hbound
  cases members with
  | nil =>
    cases bound with
    | zero => cases hbound
    | succ bound => rfl
  | cons member members =>
    rw [indentedAt_obj, enclosedAt] at hbound ⊢
    simp only [List.length_cons, List.length_append, List.length_nil] at hbound
    obtain ⟨bound, rfl⟩ := Nat.exists_eq_add_one_of_ne_zero (Nat.ne_of_gt (Nat.zero_lt_of_lt hbound))
    have hread := readMembers_behindAt hplain h (level + 1) level [] hkeys rest
      (show (memberAt (level + 1) member).length +
        (behindAt (level + 1) (memberAt (level + 1)) members).length < bound by omega)
    simp only [List.cons_append, List.append_assoc, List.nil_append] at hread ⊢
    rw [readValue, skipSpace_newline_append, skipSpace_memberAt_append]
    exact hread

theorem IsPlain.isReadBack {document : Json} (h : document.IsPlain) : document.IsReadBack := by
  induction h with
  | str s => exact isReadBack_str s
  | arr h ih => exact isReadBack_arr h ih
  | obj hkeys h ih => exact isReadBack_obj hkeys h ih

theorem IsPlain.read_indented {document : Json} (h : document.IsPlain) :
    read document.indented = .ok document := by
  have hindented : document.indented = indentedAt 0 document := rfl
  obtain ⟨c, t, ht, -, -, hmark⟩ := h.exists_indentedAt_eq_cons 0
  have hhead : (indentedAt 0 document).head? ≠ some (.char '\ufeff') := by
    rw [ht]
    exact fun heq => hmark (Option.some.inj heq)
  have hvalue := h.isReadBack 0 (2 * (indentedAt 0 document).length + 2) [] (by omega)
  have hspace := h.skipSpace_indentedAt_append 0 []
  rw [List.append_nil] at hvalue hspace
  rw [hindented, read, readDocument, if_neg hhead, hspace]
  simp only [bind, Except.bind, hvalue]
  rfl

end Reading

end Json
end MinimalistGrammar
