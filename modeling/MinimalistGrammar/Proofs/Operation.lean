import MinimalistGrammar.Chart.Combination

/-! The operations on expressions, each by what it needs and what it makes. -/
namespace MinimalistGrammar
namespace Expression

/-- Merging the last feature of a child: the child goes, its own children stay with the head. -/
theorem mergeFinal?_eq_some_iff {token? : Option Text} {e result : Expression} :
    e.mergeFinal? token? = some result ↔ ∃ category features child,
      e.features = ⟨.licensor, category⟩ :: features ∧
      e.children.filter (isFinal category) = [child] ∧
      result = { e with
        kind := .derived
        features := features
        arguments := ⟨token?.getD child.phon, category, child.meaning⟩ :: e.arguments
        children := e.children.filter (!isFinal category ·) ++ child.children } := by
  unfold mergeFinal?
  constructor
  · intro h
    split at h
    · rename_i category features hf
      split at h
      · rename_i child hc
        exact ⟨category, features, child, hf, hc, (Option.some.inj h).symm⟩
      · cases h
    · cases h
  · rintro ⟨category, features, child, hf, hc, rfl⟩
    simp only [hf, hc]

/-- Merging a child that has more features: it loses the first of them and stays. -/
theorem mergeMover?_eq_some_iff {e result : Expression} :
    e.mergeMover? = some result ↔ ∃ category features child meaning,
      e.features = ⟨.licensor, category⟩ :: features ∧
      e.children.filter (·.outerIsOf .licensee category) = [child] ∧
      2 ≤ child.features.length ∧ traceMeaning? child.meaning = some meaning ∧
      result = { e with
        kind := .derived
        features := features
        arguments := ⟨child.phon, category, meaning⟩ :: e.arguments
        children := e.children.map fun c =>
          if c.outerIsOf .licensee category then { c with features := c.features.tail } else c } := by
  unfold mergeMover?
  constructor
  · intro h
    split at h
    · rename_i category features hf
      split at h
      · rename_i child hc
        split at h
        · cases h
        · rename_i hlength
          obtain ⟨meaning, hm, he⟩ := Option.map_eq_some_iff.mp h
          exact ⟨category, features, child, meaning, hf, hc, Nat.le_of_not_lt hlength, hm, he.symm⟩
      · cases h
    · cases h
  · rintro ⟨category, features, child, meaning, hf, hc, hlength, hm, rfl⟩
    simp only [hf, hc, if_neg (Nat.not_lt_of_le hlength), hm, Option.map_some]

theorem exists_split_of_filter_eq_singleton {p : Expression → Bool} {child : Expression}
    {s : List Expression} (h : s.filter p = [child]) :
    ∃ before after, s = before ++ child :: after ∧ p child ∧
      (∀ d ∈ before, ¬p d) ∧ ∀ d ∈ after, ¬p d := by
  obtain ⟨before, after, hs, hbefore, hchild, hafter⟩ := List.filter_eq_cons_iff.mp h
  exact ⟨before, after, hs, hchild, hbefore, List.filter_eq_nil_iff.mp hafter⟩

/-- Merging the last feature of a child, among all children: the others stay, and with them the children of
the one that goes. -/
theorem of_mergeFinal? {token? : Option Text} {e result : Expression}
    (h : e.mergeFinal? token? = some result) : ∃ category features before child after,
      e.features = ⟨.licensor, category⟩ :: features ∧
      e.children = before ++ child :: after ∧ child.features = [⟨.licensee, category⟩] ∧
      result = { e with
        kind := .derived
        features := features
        arguments := ⟨token?.getD child.phon, category, child.meaning⟩ :: e.arguments
        children := before ++ after ++ child.children } := by
  obtain ⟨category, features, child, hf, hc, rfl⟩ := mergeFinal?_eq_some_iff.mp h
  obtain ⟨before, after, hs, hchild, hbefore, hafter⟩ := exists_split_of_filter_eq_singleton hc
  refine ⟨category, features, before, child, after, hf, hs, of_decide_eq_true hchild, ?_⟩
  have hothers : e.children.filter (!isFinal category ·) = before ++ after := by
    rw [hs, List.filter_append, List.filter_cons_of_neg (by simpa using hchild)]
    congr 1
    · exact List.filter_eq_self.mpr fun d hd => by simpa using hbefore d hd
    · exact List.filter_eq_self.mpr fun d hd => by simpa using hafter d hd
  rw [← hothers]

/-- Merging a child that moves on, among all children: it stays in its place without its first feature. -/
theorem of_mergeMover? {e result : Expression} (h : e.mergeMover? = some result) :
    ∃ category features before child after rest meaning,
      e.features = ⟨.licensor, category⟩ :: features ∧
      e.children = before ++ child :: after ∧
      child.features = ⟨.licensee, category⟩ :: rest ∧ rest ≠ [] ∧
      result = { e with
        kind := .derived
        features := features
        arguments := ⟨child.phon, category, meaning⟩ :: e.arguments
        children := before ++ { child with features := rest } :: after } := by
  obtain ⟨category, features, child, meaning, hf, hc, hlength, -, rfl⟩ :=
    mergeMover?_eq_some_iff.mp h
  obtain ⟨before, after, hs, hchild, hbefore, hafter⟩ := exists_split_of_filter_eq_singleton hc
  obtain ⟨rest, houter⟩ := List.head?_eq_some_iff.mp (of_decide_eq_true hchild)
  have hrest : rest ≠ [] := by
    rintro rfl
    rw [houter, List.length_singleton] at hlength
    exact absurd hlength (Nat.not_succ_le_self 1)
  refine ⟨category, features, before, child, after, rest, meaning, hf, hs, houter, hrest, ?_⟩
  rw [hs, List.map_append, List.map_cons, if_pos hchild, houter, List.tail_cons,
    List.map_congr_left fun d hd => if_neg (hbefore d hd),
    List.map_congr_left fun d hd => if_neg (hafter d hd), List.map_id', List.map_id']

theorem outerCategory?_eq_some_iff {e : Expression} {kind : FeatureKind} {category : Text} :
    e.outerCategory? kind = some category ↔ ∃ features, e.features = ⟨kind, category⟩ :: features := by
  rw [outerCategory?, outer?]
  cases e.features with
  | nil => simp
  | cons f features =>
    obtain ⟨kind', category'⟩ := f
    simp [Option.ite_none_right_eq_some]

theorem eq_of_outerCategory? {e : Expression} {kind kind' : FeatureKind} {category category' : Text}
    (h : e.outerCategory? kind = some category) (h' : e.outerCategory? kind' = some category') :
    kind = kind' ∧ category = category' := by
  obtain ⟨features, hf⟩ := outerCategory?_eq_some_iff.mp h
  obtain ⟨features', hf'⟩ := outerCategory?_eq_some_iff.mp h'
  cases hf.symm.trans hf'
  exact ⟨rfl, rfl⟩

theorem outerIs_iff {e : Expression} {kind : FeatureKind} :
    e.outerIs kind ↔ ∃ category, e.outerCategory? kind = some category := by
  rw [outerIs, outerCategory?]
  cases e.outer? with
  | none => simp
  | some f => simp [Option.ite_none_right_eq_some]

theorem outersMatch_iff {host child : FeatureKind} {a b : Expression} :
    outersMatch host child a b ↔
      ∃ category, a.outerCategory? host = some category ∧ b.outerCategory? child = some category := by
  unfold outersMatch outerCategory?
  cases a.outer? with
  | none => simp
  | some f =>
    cases b.outer? with
    | none => simp
    | some g =>
      simp only [Option.bind_some, Option.ite_none_right_eq_some, Option.some.injEq, Bool.and_eq_true,
        decide_eq_true_eq]
      constructor
      · rintro ⟨⟨hf, hg⟩, hcategory⟩
        exact ⟨f.category, ⟨hf, rfl⟩, hg, hcategory.symm⟩
      · rintro ⟨category, ⟨hf, rfl⟩, hg, hcategory⟩
        exact ⟨⟨hf, hg⟩, hcategory.symm⟩

/-- Attaching: which of the two is the host, and the category that they have in common. -/
theorem of_attachBy? {host child : FeatureKind} {a b result : Expression}
    (h : attachBy? host child a b = some result) :
    (∃ category, a.outerCategory? host = some category ∧ b.outerCategory? child = some category ∧
        result = attach a b) ∨
      ∃ category, b.outerCategory? host = some category ∧ a.outerCategory? child = some category ∧
        result = attach b a := by
  unfold attachBy? at h
  split at h
  · rename_i hmatch
    obtain ⟨category, ha, hb⟩ := outersMatch_iff.mp hmatch
    exact .inl ⟨category, ha, hb, (Option.some.inj h).symm⟩
  · split at h
    · rename_i hmatch
      obtain ⟨category, hb, ha⟩ := outersMatch_iff.mp hmatch
      exact .inr ⟨category, hb, ha, (Option.some.inj h).symm⟩
    · cases h

theorem eq_attach_of_attachBy? {host child : FeatureKind} {a b result : Expression}
    (h : attachBy? host child a b = some result) : result = attach a b ∨ result = attach b a := by
  rcases of_attachBy? h with ⟨category, -, -, hattach⟩ | ⟨category, -, -, hattach⟩
  · exact .inl hattach
  · exact .inr hattach

theorem features_ne_nil_of_attachBy? {host child : FeatureKind} {a b result : Expression}
    (h : attachBy? host child a b = some result) : a.features ≠ [] ∧ b.features ≠ [] := by
  have hfeatures {e : Expression} {kind : FeatureKind} {category : Text}
      (he : e.outerCategory? kind = some category) : e.features ≠ [] := by
    obtain ⟨features, hf⟩ := outerCategory?_eq_some_iff.mp he
    exact hf ▸ List.cons_ne_nil _ _
  rcases of_attachBy? h with ⟨category, ha, hb, -⟩ | ⟨category, hb, ha, -⟩
  · exact ⟨hfeatures ha, hfeatures hb⟩
  · exact ⟨hfeatures ha, hfeatures hb⟩

/-- Spelling out: one or two arguments and the adjuncts among the children go, the features stay. -/
theorem of_spellOut? {categories : PhraseCategories} {index next : Int} {e result : Expression}
    (h : e.spellOut? categories index = some (result, next)) :
    (e.arguments.length = 1 ∨ e.arguments.length = 2) ∧ result.kind = e.kind ∧
      result.features = e.features ∧ result.arguments = [] ∧
      result.children = e.children.filter (!isAdjunct ·) := by
  unfold spellOut? at h
  split at h
  · rename_i ha _
    cases h
    rw [ha]
    exact ⟨.inl rfl, rfl, rfl, rfl, rfl⟩
  · rename_i ha
    cases h
    rw [ha]
    exact ⟨.inr rfl, rfl, rfl, rfl, rfl⟩
  · cases h

/-- A phrase with a quantifier that binds its argument when it is spelled out, for which it takes an index. -/
def bindsArgument (categories : PhraseCategories) (e : Expression) : Bool :=
  e.arguments.length = 1 && e.meaning.isQuantificational &&
    (e.outerCategory? .licensee).any fun category =>
      category ≠ categories.clause && category ≠ categories.verb

theorem next_of_spellOut? {categories : PhraseCategories} {index next : Int} {e result : Expression}
    (h : e.spellOut? categories index = some (result, next)) :
    next = index - if e.bindsArgument categories then 1 else 0 := by
  have hone (category : Text) (argument : Argument) :
      (phraseOfOne categories index e category argument).2 =
        index - if e.meaning.isQuantificational && (category ≠ categories.clause &&
          category ≠ categories.verb) then 1 else 0 := by
    unfold phraseOfOne
    split
    · simp [*]
    · split
      · simp [*]
      · split <;> simp [*]
  unfold spellOut? at h
  split at h
  · rename_i argument category ha houter
    cases h
    rw [bindsArgument, ha, houter]
    exact hone category argument
  · rename_i ext int ha
    cases h
    simp [bindsArgument, ha]
  · cases h

end Expression

namespace Operation

theorem withoutIndex_eq_some_iff {merge : Expression → Option Expression} {index next : Int}
    {e result : Expression} :
    withoutIndex merge index e = some (result, next) ↔ merge e = some result ∧ next = index := by
  constructor
  · intro h
    obtain ⟨r, hr, he⟩ := Option.map_eq_some_iff.mp h
    cases he
    exact ⟨hr, rfl⟩
  · rintro ⟨hr, rfl⟩
    rw [withoutIndex, hr, Option.map_some]

theorem mem_unary_iff {categories : PhraseCategories} {name : Text} {operator : UnaryOperator} :
    (name, operator) ∈ unary categories ↔
      name = "spellout" ∧ operator = Expression.spellOut? categories ∨
      name = "merge_comp" ∧ operator = withoutIndex Expression.mergeComplement? ∨
      name = "merge_spec" ∧ operator = withoutIndex Expression.mergeSpecifier? ∨
      name = "merge_nonfinal" ∧ operator = withoutIndex Expression.mergeMover? := by
  simp [unary]

def merges : List (Text × UnaryOperator) :=
  [("merge_comp", withoutIndex Expression.mergeComplement?),
    ("merge_spec", withoutIndex Expression.mergeSpecifier?),
    ("merge_nonfinal", withoutIndex Expression.mergeMover?)]

theorem unary_eq_cons (categories : PhraseCategories) :
    unary categories = (("spellout" : Text), Expression.spellOut? categories) :: merges := rfl

theorem mem_merges_iff {name : Text} {operator : UnaryOperator} :
    (name, operator) ∈ merges ↔
      name = "merge_comp" ∧ operator = withoutIndex Expression.mergeComplement? ∨
      name = "merge_spec" ∧ operator = withoutIndex Expression.mergeSpecifier? ∨
      name = "merge_nonfinal" ∧ operator = withoutIndex Expression.mergeMover? := by
  simp [merges]

theorem mem_binary_iff {name : Text} {operator : BinaryOperator} :
    (name, operator) ∈ binary ↔
      name = "insert_adjunct" ∧ operator = Expression.insertAdjunct? ∨
      name = "insert" ∧ operator = Expression.insert? := by
  simp [binary]

def names : List Text := ["spellout", "merge_comp", "merge_spec", "merge_nonfinal", "insert_adjunct", "insert"]

theorem mem_names_of_mem_unary {categories : PhraseCategories} {name : Text} {operator : UnaryOperator}
    (hop : (name, operator) ∈ unary categories) : name ∈ names := by
  rcases mem_unary_iff.mp hop with ⟨rfl, -⟩ | ⟨rfl, -⟩ | ⟨rfl, -⟩ | ⟨rfl, -⟩ <;> decide

theorem mem_names_of_mem_binary {name : Text} {operator : BinaryOperator} (hop : (name, operator) ∈ binary) :
    name ∈ names := by
  rcases mem_binary_iff.mp hop with ⟨rfl, -⟩ | ⟨rfl, -⟩ <;> decide

/-- An operator on one expression spells it out or merges a child, for the last time or to move on. -/
theorem of_unary {categories : PhraseCategories} {name : Text} {operator : UnaryOperator}
    (hop : (name, operator) ∈ unary categories) {index next : Int} {e result : Expression}
    (h : operator index e = some (result, next)) :
    name = "spellout" ∧ e.spellOut? categories index = some (result, next) ∨
      name ≠ "spellout" ∧ ((∃ token?, e.mergeFinal? token? = some result) ∨
        e.mergeMover? = some result) := by
  have hindex {merge : Expression → Option Expression}
      (h : withoutIndex merge index e = some (result, next)) : merge e = some result :=
    (withoutIndex_eq_some_iff.mp h).1
  rcases mem_unary_iff.mp hop with ⟨rfl, rfl⟩ | ⟨rfl, rfl⟩ | ⟨rfl, rfl⟩ | ⟨rfl, rfl⟩
  · exact .inl ⟨rfl, h⟩
  · exact .inr ⟨by decide, .inl ⟨none, (Option.ite_none_right_eq_some.mp (hindex h)).2⟩⟩
  · exact .inr ⟨by decide, .inl ⟨_, (Option.ite_none_right_eq_some.mp (hindex h)).2⟩⟩
  · exact .inr ⟨by decide, .inr (hindex h)⟩

theorem next_of_unary {categories : PhraseCategories} {name : Text} {operator : UnaryOperator}
    (hop : (name, operator) ∈ unary categories) {index next : Int} {e result : Expression}
    (h : operator index e = some (result, next)) :
    next = index - if name = "spellout" ∧ e.bindsArgument categories then 1 else 0 := by
  have hmerge {merge : Expression → Option Expression} (hname : name ≠ "spellout")
      (h : withoutIndex merge index e = some (result, next)) :
      next = index - if name = "spellout" ∧ e.bindsArgument categories then 1 else 0 := by
    rw [(withoutIndex_eq_some_iff.mp h).2, if_neg fun hspellout => hname hspellout.1, Int.sub_zero]
  rcases mem_unary_iff.mp hop with ⟨rfl, rfl⟩ | ⟨rfl, rfl⟩ | ⟨rfl, rfl⟩ | ⟨rfl, rfl⟩
  · rw [Expression.next_of_spellOut? h]
    simp
  · exact hmerge (by decide) h
  · exact hmerge (by decide) h
  · exact hmerge (by decide) h

theorem mergeFinal?_of_unary {categories : PhraseCategories} {name : Text} {operator : UnaryOperator}
    (hop : (name, operator) ∈ unary categories) (hname : name = "merge_comp" ∨ name = "merge_spec")
    {index next : Int} {e result : Expression} (h : operator index e = some (result, next)) :
    ∃ token?, e.mergeFinal? token? = some result := by
  rcases mem_unary_iff.mp hop with ⟨rfl, rfl⟩ | ⟨rfl, rfl⟩ | ⟨rfl, rfl⟩ | ⟨rfl, rfl⟩
  · exact absurd hname (by decide)
  · exact ⟨_, (Option.ite_none_right_eq_some.mp (withoutIndex_eq_some_iff.mp h).1).2⟩
  · exact ⟨_, (Option.ite_none_right_eq_some.mp (withoutIndex_eq_some_iff.mp h).1).2⟩
  · exact absurd hname (by decide)

theorem of_binary {name : Text} {operator : BinaryOperator} (hop : (name, operator) ∈ binary)
    {a b result : Expression} (h : operator a b = some result) :
    ∃ host child, Expression.attachBy? host child a b = some result := by
  rcases mem_binary_iff.mp hop with ⟨-, rfl⟩ | ⟨-, rfl⟩ <;> exact ⟨_, _, h⟩

end Operation
end MinimalistGrammar
