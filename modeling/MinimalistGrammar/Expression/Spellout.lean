import MinimalistGrammar.Expression.Basic

/-! Spelling out: a head with its arguments becomes one phrase, with its words in order and its
meaning put together. -/
namespace MinimalistGrammar

/-- The categories whose phrases are spelled out in their own way. -/
structure PhraseCategories where
  clause : Text := "c"
  verb : Text := "v"
  deriving DecidableEq, Repr

namespace Expression

def isAdjunct (e : Expression) : Bool := e.outerIs .adjunct

/-- The meanings of adjuncts conjoined onto a meaning, that of the first one outermost. -/
def conjoin (adjuncts : List Expression) (base : Formula) : Formula :=
  adjuncts.foldr (fun a f => .and a.meaning f) base

/-- What a phrase without its adjuncts sounds like and means. -/
structure Phrase where
  words : List Text
  meaning : Formula
  deriving DecidableEq, Repr

/-- The phrase of a licensee with one argument, and the next free index after it. The argument of a
quantifier is its restrictor, which gets an index of its own. -/
def phraseOfOne (categories : PhraseCategories) (index : Int) (e : Expression) (category : Text)
    (argument : Argument) : Phrase × Int :=
  if category = categories.clause then (⟨[argument.token], argument.meaning⟩, index)
  else if category = categories.verb then
    (⟨[argument.token, e.phon], .and e.meaning (.external argument.meaning)⟩, index)
  else if e.meaning.isQuantificational then
    (⟨[e.phon, argument.token], .and e.meaning (.indexed index argument.meaning)⟩, index - 1)
  else (⟨[e.phon, argument.token], .and e.meaning argument.meaning⟩, index)

/-- The phrase of a head with an external and an internal argument, which need not be a licensee.
The adjuncts of a phrase that is neither a clause nor headed by a verb are pronounced only. -/
def phraseOfTwo (categories : PhraseCategories) (adjuncts : List Expression) (e : Expression)
    (category? : Option Text) (ext int : Argument) : Phrase :=
  if category? = some categories.clause then
    ⟨[int.token], conjoin adjuncts (.and ext.meaning int.meaning)⟩
  else
    ⟨[ext.token, e.phon, int.token],
      if category? = some categories.verb then
        conjoin adjuncts (.and e.meaning (.and (.internal int.meaning) (.external ext.meaning)))
      else .close (.and e.meaning int.meaning)⟩

/-- Spell out an expression with one or two arguments; with one it must be a licensee. Adjuncts are
pronounced after the phrase. The result comes with the next free index. -/
def spellOut? (categories : PhraseCategories) (index : Int) (e : Expression) :
    Option (Expression × Int) :=
  let adjuncts := e.children.filter isAdjunct
  let finish (phrase : Phrase) : Expression :=
    { e with
      phon := Text.join " " (phrase.words ++ adjuncts.map phon)
      arguments := []
      children := e.children.filter (!isAdjunct ·)
      meaning := phrase.meaning }
  match e.arguments, e.outerCategory? .licensee with
  | [argument], some category =>
    let (phrase, next) := phraseOfOne categories index e category argument
    some (finish { phrase with meaning := conjoin adjuncts phrase.meaning }, next)
  | [ext, int], category? =>
    some (finish (phraseOfTwo categories adjuncts e category? ext int), index)
  | _, _ => none

end Expression
end MinimalistGrammar
