import MinimalistGrammar.Proofs.Vocabulary
import MinimalistGrammar.Proofs.WrittenForms

/-! What adjuncts do to the phrase that they are attached to. They are put around what is spelled out without them:
their words behind its words, and their meanings before its meaning. The meaning of a phrase that is closed over
events is the exception, which no adjunct reaches. -/
namespace MinimalistGrammar

namespace Text

theorem join_append (separator : Text) {words : List Text} (h : words ≠ []) (more : List Text) :
    join separator (words ++ more) = join separator (join separator words :: more) := by
  cases words with
  | nil => exact absurd rfl h
  | cons word words =>
    rw [List.cons_append, join_cons, join_cons, join_cons, List.flatMap_append, List.append_assoc]

end Text

namespace Expression

def adjuncts (e : Expression) : List Expression := e.children.filter isAdjunct

def withoutAdjuncts (e : Expression) : Expression :=
  { e with children := e.children.filter (!isAdjunct ·) }

theorem adjuncts_withoutAdjuncts (e : Expression) : e.withoutAdjuncts.adjuncts = [] := by
  simp [withoutAdjuncts, adjuncts]

theorem withoutAdjuncts_withoutAdjuncts (e : Expression) :
    e.withoutAdjuncts.withoutAdjuncts = e.withoutAdjuncts := by
  simp [withoutAdjuncts]

/-- A phrase with two arguments that is neither a clause nor headed by a verb. Spelling it out closes it over
events. -/
def isClosing (categories : PhraseCategories) (e : Expression) : Bool :=
  e.arguments.length = 2 && (e.outerCategory? .licensee).all fun category =>
    category ≠ categories.clause && category ≠ categories.verb

section Phrases
variable (categories : PhraseCategories) (adjuncts : List Expression) (e : Expression)
  (category? : Option Text) (ext int : Argument)

theorem words_phraseOfTwo_eq : (phraseOfTwo categories adjuncts e category? ext int).words =
    (phraseOfTwo categories [] e category? ext int).words := by
  unfold phraseOfTwo
  split <;> rfl

/-- Adjuncts are conjoined to the meaning of the phrase without them, unless that is closed over events. -/
theorem meaning_phraseOfTwo_eq : (phraseOfTwo categories adjuncts e category? ext int).meaning =
    let meaning := (phraseOfTwo categories [] e category? ext int).meaning
    if category?.all fun category => category ≠ categories.clause && category ≠ categories.verb then meaning
    else conjoin adjuncts meaning := by
  unfold phraseOfTwo
  cases category? with
  | none => rfl
  | some category =>
    by_cases hclause : category = categories.clause
    · simp [hclause, conjoin]
    · by_cases hverb : category = categories.verb
      · subst hverb
        simp [hclause, conjoin]
      · simp [hclause, hverb]

end Phrases

/-- Adjuncts are only added on the outside. With them an expression can be spelled out if it can be without them,
and takes the same index for that; their words come behind all others, with a space before each, and their meanings
are conjoined in front, that of the first one outermost. A phrase that is closed over events keeps the meaning that
it has without them. -/
theorem spellOut?_eq_map_withoutAdjuncts (categories : PhraseCategories) (index : Int) (e : Expression) :
    e.spellOut? categories index = (e.withoutAdjuncts.spellOut? categories index).map fun made =>
      ({ made.1 with
          phon := Text.join " " (made.1.phon :: e.adjuncts.map phon)
          meaning :=
            if e.isClosing categories then made.1.meaning else conjoin e.adjuncts made.1.meaning },
        made.2) := by
  have hphrase (words : List Text) (hwords : words ≠ []) :
      Text.join " " (words ++ e.adjuncts.map phon) =
        Text.join " " (Text.join " " (words ++ List.map phon []) :: e.adjuncts.map phon) := by
    rw [List.map_nil, List.append_nil]
    exact Text.join_append " " hwords _
  have hadjuncts : e.withoutAdjuncts.children.filter isAdjunct = [] := e.adjuncts_withoutAdjuncts
  have hchildren : e.withoutAdjuncts.children.filter (!isAdjunct ·) = e.children.filter (!isAdjunct ·) :=
    congrArg children e.withoutAdjuncts_withoutAdjuncts
  unfold spellOut?
  rw [hadjuncts, hchildren]
  have harguments : e.withoutAdjuncts.arguments = e.arguments := rfl
  have houter : e.withoutAdjuncts.outerCategory? .licensee = e.outerCategory? .licensee := rfl
  rw [harguments, houter]
  match hargs : e.arguments, hcategory : e.outerCategory? .licensee with
  | [argument], some category =>
    have hopen : e.isClosing categories = false := by simp [isClosing, hargs]
    have hwords := hphrase _ (words_phraseOfOne categories index e category argument).1
    simp only [Option.map_some, hopen]
    rw [← adjuncts, hwords]
    rfl
  | [ext, int], category? =>
    have hwords := hphrase _ (words_phraseOfTwo categories [] e category? ext int).1
    have hclosing : e.isClosing categories =
        category?.all fun category => category ≠ categories.clause && category ≠ categories.verb := by
      simp [isClosing, hargs, hcategory]
    simp only [Option.map_some]
    rw [← adjuncts, words_phraseOfTwo_eq, hwords, meaning_phraseOfTwo_eq, hclosing]
    rfl
  | [], _ => rfl
  | [_], none => rfl
  | _ :: _ :: _ :: _, _ => rfl

/-- The adjunct of a phrase that is closed over events is pronounced and does not contribute its meaning. -/
theorem exists_adjunct_without_meaning :
    let e : Expression :=
      { phon := "did", kind := .derived, features := [⟨.licensee, "t"⟩], meaning := .const "past"
        arguments := [⟨"_", "k", .const "he"⟩,
          ⟨"he sleep", "v", .and (.const "sleep") (.external (.const "he"))⟩]
        children := [.ofItem ⟨"never", [⟨.adjunct, "t"⟩], .const "never"⟩] }
    ∃ made bare, e.spellOut? {} (-1) = some (made, -1) ∧
      e.withoutAdjuncts.spellOut? {} (-1) = some (bare, -1) ∧ e.adjuncts.map phon = [("never" : Text)] ∧
      bare.phon = "_ did he sleep" ∧ made.phon = "_ did he sleep never" ∧
      made.meaning ≠ conjoin e.adjuncts bare.meaning :=
  ⟨_, _, rfl, rfl, by decide, by decide, by decide, by decide⟩

end Expression
end MinimalistGrammar
