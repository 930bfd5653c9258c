import MinimalistGrammar.Text.Blank
import MinimalistGrammar.Text.Quoted

/-! Features, which drive combination, and the text form of a list of them. A licensor `+f` selects
a licensee `-f`, and an adjunct `*f` attaches to a licensee `-f`. -/
namespace MinimalistGrammar

inductive FeatureKind where
  | licensor
  | licensee
  | adjunct
  deriving DecidableEq, Repr

namespace FeatureKind

def sign : FeatureKind → CodePoint
  | .licensor => '+'
  | .licensee => '-'
  | .adjunct => '*'

def ofSign? : CodePoint → Option FeatureKind
  | .char '+' => some .licensor
  | .char '-' => some .licensee
  | .char '*' => some .adjunct
  | _ => none

@[simp] theorem ofSign?_sign (kind : FeatureKind) : ofSign? kind.sign = some kind := by
  cases kind <;> rfl

theorem ofSign?_eq_some {c : CodePoint} {kind : FeatureKind} (h : ofSign? c = some kind) :
    c = kind.sign := by
  unfold ofSign? at h
  split at h <;> cases h <;> rfl

end FeatureKind

/-- Categories are compared as texts and mean nothing else. -/
structure Feature where
  kind : FeatureKind
  category : Text
  deriving DecidableEq, Repr

/-- A word that is no feature, and the text that it stands in. -/
structure FeatureError where
  word : Text
  text : Text
  deriving DecidableEq, Repr

def FeatureError.message (e : FeatureError) : Text :=
  "Malformed feature " ++ quoted e.word ++ " in " ++ quoted e.text ++
    ". Expected '+cat', '-cat' or '*cat'."

namespace Feature

def text (f : Feature) : Text := f.kind.sign :: f.category

/-- A sign and a category after it. -/
def read? : Text → Option Feature
  | [] => none
  | sign :: category =>
    if category = [] then none
    else (FeatureKind.ofSign? sign).map fun kind => ⟨kind, category⟩

/-- The features with one space between each two. -/
def listText (features : List Feature) : Text := Text.join " " (features.map text)

/-- The words of a text as features. -/
def readList (text : Text) : Except FeatureError (List Feature) :=
  (Text.words text).mapM fun word =>
    match read? word with
    | some f => .ok f
    | none => .error ⟨word, text⟩

end Feature
end MinimalistGrammar
