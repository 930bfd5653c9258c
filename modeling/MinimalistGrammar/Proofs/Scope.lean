import MinimalistGrammar.Proofs.Adjuncts

/-! Quantifier phrases. A phrase takes scope by its first conjunct and binds the index of its last one. A quantifier
that is spelled out binds an index of its own, which no adjunct hides, but an adjunct comes in front of the quantifier
and takes its place as the first conjunct. -/
namespace MinimalistGrammar

namespace Expression

@[simp] theorem boundIndex?_conjoin (adjuncts : List Expression) (base : Formula) :
    (conjoin adjuncts base).boundIndex? = base.boundIndex? := by
  induction adjuncts with
  | nil => rfl
  | cons a rest ih => exact ih

theorem isQuantificational_conjoin (adjuncts : List Expression) (base : Formula) :
    (conjoin adjuncts base).isQuantificational = ((adjuncts.head?.map meaning).getD base).isQuantificational := by
  cases adjuncts <;> rfl

/-- A quantifier with its restrictor is spelled out with the next index, which the restrictor gets. -/
theorem spellOut?_of_bindsArgument {categories : PhraseCategories} {e : Expression} (h : e.bindsArgument categories)
    (index : Int) : ∃ restrictor, e.arguments = [restrictor] ∧
      e.spellOut? categories index = some ({ e with
        phon := Text.join " " (e.phon :: restrictor.token :: e.adjuncts.map phon)
        arguments := []
        children := e.children.filter (!isAdjunct ·)
        meaning := conjoin e.adjuncts (.and e.meaning (.indexed index restrictor.meaning)) }, index - 1) := by
  simp only [bindsArgument, Bool.and_eq_true, decide_eq_true_eq, Option.any_eq_true] at h
  obtain ⟨⟨hlength, hmeaning⟩, category, hcategory, hclause, hverb⟩ := h
  obtain ⟨restrictor, harguments⟩ := List.length_eq_one_iff.mp hlength
  have hphrase : phraseOfOne categories index e category restrictor =
      (⟨[e.phon, restrictor.token], .and e.meaning (.indexed index restrictor.meaning)⟩, index - 1) := by
    rw [phraseOfOne, if_neg hclause, if_neg hverb, if_pos hmeaning]
  refine ⟨restrictor, harguments, ?_⟩
  unfold spellOut?
  simp only [harguments, hcategory, hphrase]
  rfl

/-- What a phrase with a bound index leaves is the variable if it takes scope, and all of its meaning if not. -/
theorem traceMeaning?_of_boundIndex? {f : Formula} {index : Int} (h : f.boundIndex? = some index) :
    traceMeaning? f = some (if f.isQuantificational then .var index else f) := by
  unfold traceMeaning?
  rw [h]
  split <;> rfl

/-- The only child with the licensee that is selected, if it moves on, leaves its trace as the newest argument. -/
theorem exists_mergeMover? {host child : Expression} {category : Text} {trace : Formula}
    (hhost : host.outerCategory? .licensor = some category)
    (honly : host.children.filter (·.outerIsOf .licensee category) = [child]) (hmoves : 2 ≤ child.features.length)
    (htrace : traceMeaning? child.meaning = some trace) :
    ∃ merged, host.mergeMover? = some merged ∧ merged.arguments = ⟨child.phon, category, trace⟩ :: host.arguments := by
  obtain ⟨features, hfeatures⟩ := outerCategory?_eq_some_iff.mp hhost
  exact ⟨_, mergeMover?_eq_some_iff.mpr ⟨category, features, child, trace, hfeatures, honly, hmoves, htrace, rfl⟩, rfl⟩

/-- No adjunct with another meaning comes in front of the quantifier. -/
def keepsScope (e : Expression) : Bool := e.adjuncts.head?.all (·.meaning.isQuantificational)

/-- A quantifier phrase that is spelled out binds the index that it takes. It still takes scope, and leaves the variable
with that index where it is merged and moves on from, if its first adjunct, should it have adjuncts, is a quantifier
itself; if not, it leaves its whole meaning there. -/
theorem scope_of_bindsArgument {categories : PhraseCategories} {e : Expression} (h : e.bindsArgument categories)
    (index : Int) : ∃ phrase : Expression, e.spellOut? categories index = some (phrase, index - 1) ∧
      phrase.meaning.boundIndex? = some index ∧ phrase.meaning.isQuantificational = e.keepsScope ∧
      ∀ (host : Expression) (category : Text), host.outerCategory? .licensor = some category →
        host.children.filter (·.outerIsOf .licensee category) = [phrase] → 2 ≤ e.features.length →
        ∃ merged : Expression, host.mergeMover? = some merged ∧ merged.arguments =
          ⟨phrase.phon, category, if e.keepsScope then .var index else phrase.meaning⟩ :: host.arguments := by
  obtain ⟨restrictor, -, hspelled⟩ := spellOut?_of_bindsArgument h index
  have hbase : (Formula.and e.meaning (.indexed index restrictor.meaning)).isQuantificational := by
    simp only [bindsArgument, Bool.and_eq_true] at h
    exact h.1.2
  have hscope : (conjoin e.adjuncts (.and e.meaning (.indexed index restrictor.meaning))).isQuantificational =
      e.keepsScope := by
    rw [isQuantificational_conjoin, keepsScope]
    cases e.adjuncts.head? with
    | none => exact hbase
    | some adjunct => rfl
  have hbound := boundIndex?_conjoin e.adjuncts (.and e.meaning (.indexed index restrictor.meaning))
  refine ⟨_, hspelled, hbound, hscope, fun host category hhost honly hmoves => ?_⟩
  rw [← hscope]
  exact exists_mergeMover? hhost honly hmoves (traceMeaning?_of_boundIndex? hbound)

/-- A phrase with something attached that is no adjunct. -/
theorem scope_of_bindsArgument_every_girl :
    let every : Expression :=
      { phon := "every", kind := .derived, features := [⟨.licensee, "d"⟩, ⟨.licensee, "q"⟩]
        meaning := .quantifier "every", arguments := [⟨"girl", "n", .const "girl"⟩]
        children := [.ofItem ⟨"he", [⟨.licensee, "k"⟩], .var 1⟩] }
    let saw : Expression := .ofItem ⟨"saw", [⟨.licensor, "d"⟩, ⟨.licensee, "v"⟩], .const "see"⟩
    let phrase : Expression :=
      { every with
        phon := "every girl", arguments := [], meaning := .and (.quantifier "every") (.indexed (-1) (.const "girl")) }
    ∃ merged, every.bindsArgument {} ∧ every.spellOut? {} (-1) = some (phrase, -2) ∧
      insert? saw phrase = some (attach saw phrase) ∧ (attach saw phrase).mergeMover? = some merged ∧
      merged.arguments = [⟨"every girl", "d", .var (-1)⟩] := by
  intro every saw phrase
  have hbinds : every.bindsArgument {} := by decide
  have hphrase : every.spellOut? {} (-1) = some (phrase, -2) := by decide
  have hhost : (attach saw phrase).outerCategory? .licensor = some "d" := by decide
  have honly : (attach saw phrase).children.filter (·.outerIsOf .licensee "d") = [phrase] := by decide
  obtain ⟨spelled, hspelled, -, -, hmerged⟩ := scope_of_bindsArgument hbinds (-1)
  cases hphrase.symm.trans hspelled
  obtain ⟨merged, hmover, harguments⟩ := hmerged (attach saw phrase) "d" hhost honly (by decide)
  exact ⟨merged, hbinds, hphrase, by decide, hmover, harguments⟩

/-- An adjunct with a meaning of its own takes the place of the quantifier, so that the phrase takes no scope and leaves
its whole meaning behind and no variable. -/
theorem exists_quantifier_behind_adjunct :
    let every : Expression :=
      { phon := "every", kind := .derived, features := [⟨.licensee, "d"⟩, ⟨.licensee, "q"⟩]
        meaning := .quantifier "every", arguments := [⟨"girl", "n", .const "girl"⟩]
        children := [.ofItem ⟨"red", [⟨.adjunct, "d"⟩], .const "red"⟩] }
    let saw : Expression := .ofItem ⟨"saw", [⟨.licensor, "d"⟩, ⟨.licensee, "v"⟩], .const "see"⟩
    ∃ phrase host merged, every.bindsArgument {} ∧ every.spellOut? {} (-1) = some (phrase, -2) ∧
      phrase.meaning.isQuantificational = false ∧ insert? saw phrase = some host ∧
      host.mergeMover? = some merged ∧ merged.arguments ≠ [⟨"every girl red", "d", .var (-1)⟩] :=
  ⟨_, _, _, by decide, rfl, rfl, rfl, rfl, by decide⟩

end Expression
end MinimalistGrammar
