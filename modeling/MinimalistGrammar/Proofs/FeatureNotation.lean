import Mathlib.Data.List.Basic
import MinimalistGrammar.Feature
import MinimalistGrammar.Proofs.Except

/-! Lists of features in their written form: words with a space between each two, which are the same words again
when blanks separate them. A text can be read if each of its runs of characters is a sign with a category behind it,
and what was read has these runs as its written form. -/
namespace MinimalistGrammar

namespace Text

def IsWord (s : Text) : Prop := s ≠ [] ∧ ∀ c ∈ s, ¬isBlank c

instance (s : Text) : Decidable s.IsWord := inferInstanceAs (Decidable (s ≠ [] ∧ ∀ c ∈ s, ¬isBlank c))

theorem words_append_cons (s t : Text) {blank : CodePoint} (h : isBlank blank) :
    words (s ++ blank :: t) = words s ++ words t := by
  rw [words, List.splitOnP_append_cons s t h, List.filter_append, words, words]

theorem IsWord.words_eq {s : Text} (h : s.IsWord) : words s = [s] := by
  have hsplit : s.splitOnP isBlank = [s] :=
    List.splitOnP_eq_singleton fun c hc => Bool.eq_false_iff.mpr (h.2 c hc)
  rw [words, hsplit, List.filter_singleton]
  simp [h.1]

theorem words_join {items : List Text} (h : ∀ item ∈ items, item.IsWord) : words (join " " items) = items := by
  induction items with
  | nil => rfl
  | cons item items ih =>
    obtain ⟨hitem, hitems⟩ := List.forall_mem_cons.mp h
    cases items with
    | nil => simpa [join] using hitem.words_eq
    | cons next items =>
      have hjoin : join " " (item :: next :: items) = item ++ .char ' ' :: join " " (next :: items) :=
        (join_cons_cons _ _ _ _).trans (List.append_assoc _ _ _)
      rw [hjoin, words_append_cons item _ (by decide), hitem.words_eq, ih hitems, List.singleton_append]

/-- The longest runs of characters that are not blank, in order. A text of blanks has none. Another text has blanks
before its first run, and behind it either nothing or a blank. -/
inductive HasRuns : Text → List Text → Prop where
  | blank {s : Text} (hs : ∀ c ∈ s, isBlank c) : HasRuns s []
  | run {before run behind : Text} {runs : List Text} (hbefore : ∀ c ∈ before, isBlank c) (hrun : run.IsWord)
      (hend : ∀ c ∈ behind.head?, isBlank c) (hbehind : HasRuns behind runs) :
      HasRuns (before ++ (run ++ behind)) (run :: runs)

theorem words_blank_append {before : Text} (h : ∀ c ∈ before, isBlank c) (s : Text) :
    words (before ++ s) = words s := by
  induction before with
  | nil => rfl
  | cons c before ih =>
    obtain ⟨hc, hbefore⟩ := List.forall_mem_cons.mp h
    exact (words_append_cons [] (before ++ s) hc).trans (ih hbefore)

theorem IsWord.words_append {run : Text} (h : run.IsWord) {behind : Text} (hend : ∀ c ∈ behind.head?, isBlank c) :
    words (run ++ behind) = run :: words behind := by
  cases behind with
  | nil => rw [List.append_nil, h.words_eq]; rfl
  | cons c behind =>
    have hc : isBlank c := hend c rfl
    have hbehind : words (c :: behind) = words behind := words_append_cons [] behind hc
    rw [words_append_cons run behind hc, h.words_eq, hbehind, List.singleton_append]

theorem HasRuns.words_eq {s : Text} {runs : List Text} (h : s.HasRuns runs) : words s = runs := by
  induction h with
  | @blank s hs => simpa [words] using words_blank_append hs []
  | run hbefore hrun hend _ ih => rw [words_blank_append hbefore, hrun.words_append hend, ih]

theorem HasRuns.isWord {s : Text} {runs : List Text} (h : s.HasRuns runs) : ∀ run ∈ runs, run.IsWord := by
  induction h with
  | blank _ => exact fun run hrun => nomatch hrun
  | run _ hrun _ _ ih => exact List.forall_mem_cons.mpr ⟨hrun, ih⟩

theorem HasRuns.cons_blank {s : Text} {runs : List Text} (h : s.HasRuns runs) {c : CodePoint} (hc : isBlank c) :
    HasRuns (c :: s) runs := by
  cases h with
  | blank hs => exact .blank (List.forall_mem_cons.mpr ⟨hc, hs⟩)
  | run hbefore hrun hend hbehind => exact .run (List.forall_mem_cons.mpr ⟨hc, hbefore⟩) hrun hend hbehind

/-- A character that is not blank begins a run, or makes the first one longer if no blank stands between them. -/
theorem HasRuns.exists_cons {s : Text} {runs : List Text} (h : s.HasRuns runs) {c : CodePoint} (hc : ¬isBlank c) :
    ∃ longer, HasRuns (c :: s) longer := by
  have hword : IsWord [c] := ⟨List.cons_ne_nil _ _, List.forall_mem_singleton.mpr hc⟩
  cases h with
  | blank hs =>
    have hend : ∀ d ∈ s.head?, isBlank d := fun d hd => hs d (List.mem_of_mem_head? hd)
    exact ⟨[[c]], .run (List.forall_mem_nil _) hword hend (.blank hs)⟩
  | @run before run behind runs hbefore hrun hend hbehind =>
    cases before with
    | nil =>
      have hlonger : IsWord (c :: run) := ⟨List.cons_ne_nil _ _, List.forall_mem_cons.mpr ⟨hc, hrun.2⟩⟩
      exact ⟨(c :: run) :: runs, .run (List.forall_mem_nil _) hlonger hend hbehind⟩
    | cons blank before =>
      have hnext : ∀ d ∈ (blank :: before ++ (run ++ behind)).head?, isBlank d :=
        fun d hd => Option.some.inj hd ▸ hbefore blank List.mem_cons_self
      exact ⟨[c] :: run :: runs, .run (List.forall_mem_nil _) hword hnext (.run hbefore hrun hend hbehind)⟩

theorem exists_hasRuns (s : Text) : ∃ runs, s.HasRuns runs := by
  induction s with
  | nil => exact ⟨[], .blank (by simp)⟩
  | cons c s ih =>
    obtain ⟨runs, hruns⟩ := ih
    by_cases hc : isBlank c
    · exact ⟨runs, hruns.cons_blank hc⟩
    · exact hruns.exists_cons hc

end Text

namespace Feature

def IsWritable (f : Feature) : Prop := f.category.IsWord

instance (f : Feature) : Decidable f.IsWritable := inferInstanceAs (Decidable f.category.IsWord)

theorem IsWritable.isWord_text {f : Feature} (h : f.IsWritable) : f.text.IsWord := by
  have hsign : ¬Text.isBlank f.kind.sign := by cases f.kind <;> decide
  exact ⟨List.cons_ne_nil _ _, List.forall_mem_cons.mpr ⟨hsign, h.2⟩⟩

theorem read?_eq_some_iff {word : Text} {f : Feature} : read? word = some f ↔ f.category ≠ [] ∧ word = f.text := by
  constructor
  · intro h
    cases word with
    | nil => cases h
    | cons sign category =>
      rw [read?] at h
      split at h
      · cases h
      · next hcategory =>
        obtain ⟨kind, hkind, rfl⟩ := Option.map_eq_some_iff.mp h
        exact ⟨hcategory, by rw [FeatureKind.ofSign?_eq_some hkind, text]⟩
  · rintro ⟨hcategory, rfl⟩
    rw [text, read?, if_neg hcategory, FeatureKind.ofSign?_sign, Option.map_some]

theorem IsWritable.read?_text {f : Feature} (h : f.IsWritable) : read? f.text = some f :=
  read?_eq_some_iff.mpr ⟨h.1, rfl⟩

theorem readList_eq_ok_of_words {s : Text} {features : List Feature} (hwords : Text.words s = features.map text)
    (hread : ∀ f ∈ features, read? f.text = some f) : readList s = .ok features := by
  rw [readList, hwords]
  refine mapM_map_eq_pure fun f hf => ?_
  rw [hread f hf]
  rfl

theorem readList_listText {features : List Feature} (h : ∀ f ∈ features, f.IsWritable) :
    readList (listText features) = .ok features :=
  readList_eq_ok_of_words (Text.words_join (List.forall_mem_map.mpr fun f hf => (h f hf).isWord_text))
    fun f hf => (h f hf).read?_text

/-- The word begins with a sign, and something stands behind it. -/
def IsSigned : Text → Prop
  | [] => False
  | sign :: category => (sign = .char '+' ∨ sign = .char '-' ∨ sign = .char '*') ∧ category ≠ []

instance : DecidablePred IsSigned
  | [] => inferInstanceAs (Decidable False)
  | _ :: _ => inferInstanceAs (Decidable (_ ∧ _))

theorem isSigned_text {f : Feature} (h : f.category ≠ []) : IsSigned f.text := by
  refine ⟨?_, h⟩
  cases f.kind with
  | licensor => exact .inl rfl
  | licensee => exact .inr (.inl rfl)
  | adjunct => exact .inr (.inr rfl)

theorem isSigned_iff {word : Text} : IsSigned word ↔ ∃ f, read? word = some f := by
  constructor
  · intro h
    cases word with
    | nil => cases h
    | cons sign category =>
      obtain ⟨rfl | rfl | rfl, hcategory⟩ := h
      · exact ⟨⟨.licensor, category⟩, read?_eq_some_iff.mpr ⟨hcategory, rfl⟩⟩
      · exact ⟨⟨.licensee, category⟩, read?_eq_some_iff.mpr ⟨hcategory, rfl⟩⟩
      · exact ⟨⟨.adjunct, category⟩, read?_eq_some_iff.mpr ⟨hcategory, rfl⟩⟩
  · rintro ⟨f, hf⟩
    obtain ⟨hcategory, rfl⟩ := read?_eq_some_iff.mp hf
    exact isSigned_text hcategory

theorem exists_map_text_eq {words : List Text} (h : ∀ word ∈ words, word.IsWord ∧ IsSigned word) :
    ∃ features : List Feature, (∀ f ∈ features, f.IsWritable) ∧ words = features.map text := by
  induction words with
  | nil => exact ⟨[], List.forall_mem_nil _, rfl⟩
  | cons word words ih =>
    obtain ⟨⟨hword, hsigned⟩, hwords⟩ := List.forall_mem_cons.mp h
    obtain ⟨f, hf⟩ := isSigned_iff.mp hsigned
    obtain ⟨hcategory, rfl⟩ := read?_eq_some_iff.mp hf
    obtain ⟨features, hwritable, rfl⟩ := ih hwords
    have hf : f.IsWritable := ⟨hcategory, fun c hc => hword.2 c (List.mem_cons_of_mem _ hc)⟩
    exact ⟨f :: features, List.forall_mem_cons.mpr ⟨hf, hwritable⟩, rfl⟩

variable {s : Text} {runs : List Text}

theorem readList_eq_ok_of_runs (hruns : s.HasRuns runs) (hsigned : ∀ run ∈ runs, IsSigned run) :
    ∃ found, readList s = .ok found ∧ listText found = Text.join " " runs ∧ ∀ f ∈ found, f.IsWritable := by
  obtain ⟨found, hwritable, rfl⟩ := exists_map_text_eq fun run hrun => ⟨hruns.isWord run hrun, hsigned run hrun⟩
  exact ⟨found, readList_eq_ok_of_words hruns.words_eq fun f hf => (hwritable f hf).read?_text, rfl, hwritable⟩

/-- The first run that is not signed is the one that is reported. -/
theorem readList_eq_error_of_runs (hruns : s.HasRuns runs) (hunsigned : ∃ run ∈ runs, ¬IsSigned run) :
    ∃ before word behind, runs = before ++ word :: behind ∧ (∀ run ∈ before, IsSigned run) ∧ ¬IsSigned word ∧
      readList s = .error ⟨word, s⟩ := by
  have hfound : (runs.find? fun run => ¬IsSigned run).isSome := List.find?_isSome.mpr (by simpa using hunsigned)
  obtain ⟨word, hfind⟩ := Option.isSome_iff_exists.mp hfound
  obtain ⟨hword, before, behind, hsplit, hbefore⟩ := List.find?_eq_some_iff_append.mp hfind
  have hword : ¬IsSigned word := of_decide_eq_true hword
  have hbefore : ∀ run ∈ before, IsSigned run := by simpa using hbefore
  refine ⟨before, word, behind, hsplit, hbefore, hword, ?_⟩
  rw [readList, hruns.words_eq, hsplit]
  refine mapM_append_cons_eq_error (fun run hrun => ?_) ?_
  · obtain ⟨f, hf⟩ := isSigned_iff.mp (hbefore run hrun)
    exact ⟨f, by rw [hf]⟩
  · have hnone : read? word = none :=
      Option.eq_none_iff_forall_ne_some.mpr fun f hf => hword (isSigned_iff.mpr ⟨f, hf⟩)
    rw [hnone]

theorem isSigned_of_readList {found : List Feature} (hruns : s.HasRuns runs) (h : readList s = .ok found) :
    ∀ run ∈ runs, IsSigned run := by
  intro run hrun
  by_contra hnot
  obtain ⟨_, _, _, _, _, _, herror⟩ := readList_eq_error_of_runs hruns ⟨run, hrun, hnot⟩
  cases h.symm.trans herror

theorem isWritable_of_readList {found : List Feature} (h : readList s = .ok found) : ∀ f ∈ found, f.IsWritable := by
  obtain ⟨runs, hruns⟩ := s.exists_hasRuns
  obtain ⟨read, hread, -, hwritable⟩ := readList_eq_ok_of_runs hruns (isSigned_of_readList hruns h)
  obtain rfl : found = read := Except.ok.inj (h.symm.trans hread)
  exact hwritable

/-- A list of features whose categories are words is read back from its written form. A text, whose runs of characters
are determined, can be read just if all of them are signed. The written form of what was read is then these runs with
a space between each two, and is read alike. If a run is not signed, the first such run is reported. -/
theorem readList_eq_ok_iff_isSigned (features : List Feature) (s : Text) :
    ((∀ f ∈ features, f.IsWritable) → readList (listText features) = .ok features) ∧
      ∃ runs, s.HasRuns runs ∧ (∀ others, s.HasRuns others → others = runs) ∧
        ((∃ found, readList s = .ok found) ↔ ∀ run ∈ runs, IsSigned run) ∧
        (∀ found, readList s = .ok found →
          listText found = Text.join " " runs ∧ readList (listText found) = .ok found) ∧
        ((∃ run ∈ runs, ¬IsSigned run) → ∃ before word behind, runs = before ++ word :: behind ∧
          (∀ run ∈ before, IsSigned run) ∧ ¬IsSigned word ∧ readList s = .error ⟨word, s⟩) := by
  obtain ⟨runs, hruns⟩ := s.exists_hasRuns
  have hsigned : ∀ found, readList s = .ok found → ∀ run ∈ runs, IsSigned run := fun found hfound =>
    isSigned_of_readList hruns hfound
  refine ⟨readList_listText, runs, hruns, fun others h => h.words_eq.symm.trans hruns.words_eq, ⟨?_, ?_⟩, ?_,
    readList_eq_error_of_runs hruns⟩
  · rintro ⟨found, hfound⟩
    exact hsigned found hfound
  · intro hall
    obtain ⟨found, hfound, _⟩ := readList_eq_ok_of_runs hruns hall
    exact ⟨found, hfound⟩
  · intro found hfound
    obtain ⟨read, hread, htext, hwritable⟩ := readList_eq_ok_of_runs hruns (hsigned found hfound)
    obtain rfl : found = read := Except.ok.inj (hfound.symm.trans hread)
    exact ⟨htext, readList_listText hwritable⟩

/-- A category may hold signs, and any blanks separate: a tab, or a space at which no line breaks. -/
theorem readList_eq_ok_iff_isSigned_nested_signs :
    let features : List Feature := [⟨.licensor, "+-d"⟩, ⟨.adjunct, "*"⟩]
    (∀ f ∈ features, f.IsWritable) ∧ readList (listText features) = .ok features ∧
      ¬∃ found, readList "\t+d\u00a0-v  * x" = .ok found := by
  intro features
  have hwritable : ∀ f ∈ features, f.IsWritable := by decide
  obtain ⟨hread, runs, hruns, _, hiff, _⟩ := readList_eq_ok_iff_isSigned features "\t+d\u00a0-v  * x"
  have hrun : ("*" : Text) ∈ runs := hruns.words_eq ▸ by decide
  exact ⟨hwritable, hread hwritable, fun hfound => absurd (hiff.mp hfound "*" hrun) (by decide)⟩

end Feature
end MinimalistGrammar
