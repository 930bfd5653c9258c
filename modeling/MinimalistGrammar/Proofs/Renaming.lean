import MinimalistGrammar.Proofs.Operation

/-! Expressions with other categories and other indices. Categories are only compared with each other, and no
operation looks at an index, so that each makes the same of an expression with other names as of the expression
itself, but for the names. -/
namespace MinimalistGrammar

structure Renaming where
  category : Text → Text
  index : Int → Int

namespace Formula

def indices : Formula → List Int
  | const _ | quantifier _ | foreign _ => []
  | var index => [index]
  | indexed index operand => index :: operand.indices
  | internal operand | external operand | close operand => operand.indices
  | and left right => left.indices ++ right.indices

def mapIndices (ρ : Int → Int) : Formula → Formula
  | const name => const name
  | var index => var (ρ index)
  | internal operand => internal (operand.mapIndices ρ)
  | indexed index operand => indexed (ρ index) (operand.mapIndices ρ)
  | external operand => external (operand.mapIndices ρ)
  | and left right => and (left.mapIndices ρ) (right.mapIndices ρ)
  | close operand => close (operand.mapIndices ρ)
  | quantifier kind => quantifier kind
  | foreign value => foreign value

theorem mapIndices_eq_self {ρ : Int → Int} {f : Formula} (h : ∀ index ∈ f.indices, ρ index = index) :
    f.mapIndices ρ = f := by
  induction f with
  | const | quantifier | foreign => rfl
  | var index => rw [mapIndices, h index List.mem_cons_self]
  | indexed index operand ih =>
    obtain ⟨hindex, hoperand⟩ := List.forall_mem_cons.mp h
    rw [mapIndices, hindex, ih hoperand]
  | internal operand ih | external operand ih | close operand ih => rw [mapIndices, ih h]
  | and left right ihl ihr =>
    obtain ⟨hl, hr⟩ := List.forall_mem_append.mp h
    rw [mapIndices, ihl hl, ihr hr]

@[simp] theorem mapIndices_id (f : Formula) : f.mapIndices id = f := mapIndices_eq_self fun _ _ => rfl

variable (ρ : Int → Int) (f : Formula)

theorem first_mapIndices : (f.mapIndices ρ).first = f.first.mapIndices ρ := by
  induction f with
  | and left right ih => exact ih
  | _ => rfl

theorem last_mapIndices : (f.mapIndices ρ).last = f.last.mapIndices ρ := by
  induction f with
  | and left right _ ih => exact ih
  | _ => rfl

@[simp] theorem isQuantificational_mapIndices :
    (f.mapIndices ρ).isQuantificational = f.isQuantificational := by
  rw [isQuantificational, isQuantificational, first_mapIndices]
  cases f.first <;> rfl

@[simp] theorem boundIndex?_mapIndices : (f.mapIndices ρ).boundIndex? = f.boundIndex?.map ρ := by
  rw [boundIndex?, boundIndex?, last_mapIndices]
  cases f.last <;> rfl

end Formula

def Feature.mapCategory (ρ : Text → Text) (f : Feature) : Feature := { f with category := ρ f.category }

def Argument.rename (ν : Renaming) (a : Argument) : Argument :=
  { a with category := ν.category a.category, meaning := a.meaning.mapIndices ν.index }

def PhraseCategories.map (ρ : Text → Text) (categories : PhraseCategories) : PhraseCategories :=
  ⟨ρ categories.clause, ρ categories.verb⟩

theorem Feature.mapCategory_injective {ρ : Text → Text} (hρ : Function.Injective ρ) :
    Function.Injective (Feature.mapCategory ρ) := by
  intro f g h
  obtain ⟨hkind, hcategory⟩ := Feature.mk.inj h
  cases f
  cases g
  rw [Feature.mk.injEq]
  exact ⟨hkind, hρ hcategory⟩

namespace Expression

mutual
def rename (ν : Renaming) : Expression → Expression
  | ⟨phon, kind, features, meaning, arguments, children⟩ =>
    ⟨phon, kind, features.map (·.mapCategory ν.category), meaning.mapIndices ν.index,
      arguments.map (·.rename ν), renameAll ν children⟩

def renameAll (ν : Renaming) : List Expression → List Expression
  | [] => []
  | e :: rest => rename ν e :: renameAll ν rest
end

theorem renameAll_eq_map (ν : Renaming) (s : List Expression) : renameAll ν s = s.map (rename ν) := by
  induction s with
  | nil => rfl
  | cons e s ih => rw [renameAll, ih, List.map_cons]

section
variable (ν : Renaming)

theorem rename_mk (phon : Text) (kind : ExpressionKind) (features : List Feature) (meaning : Formula)
    (arguments : List Argument) (children : List Expression) :
    rename ν ⟨phon, kind, features, meaning, arguments, children⟩ =
      ⟨phon, kind, features.map (·.mapCategory ν.category), meaning.mapIndices ν.index,
        arguments.map (·.rename ν), children.map (rename ν)⟩ := by
  rw [rename, renameAll_eq_map]

variable (e : Expression)

@[simp] theorem phon_rename : (e.rename ν).phon = e.phon := by
  cases e
  rw [rename]

@[simp] theorem kind_rename : (e.rename ν).kind = e.kind := by
  cases e
  rw [rename]

@[simp] theorem features_rename : (e.rename ν).features = e.features.map (·.mapCategory ν.category) := by
  cases e
  rw [rename]

@[simp] theorem meaning_rename : (e.rename ν).meaning = e.meaning.mapIndices ν.index := by
  cases e
  rw [rename]

@[simp] theorem arguments_rename : (e.rename ν).arguments = e.arguments.map (·.rename ν) := by
  cases e
  rw [rename]

@[simp] theorem children_rename : (e.rename ν).children = e.children.map (rename ν) := by
  cases e
  rw [rename_mk]

@[simp] theorem outer?_rename : (e.rename ν).outer? = e.outer?.map (·.mapCategory ν.category) := by
  rw [outer?, outer?, features_rename, List.head?_map]

@[simp] theorem isAdjunct_rename : (e.rename ν).isAdjunct = e.isAdjunct := by
  rw [isAdjunct, isAdjunct, outerIs, outerIs, outer?_rename]
  cases e.outer? <;> rfl

@[simp] theorem outerCategory?_rename (kind : FeatureKind) :
    (e.rename ν).outerCategory? kind = (e.outerCategory? kind).map ν.category := by
  rw [outerCategory?, outerCategory?, outer?_rename]
  cases e.outer? with
  | none => rfl
  | some f =>
    simp only [Option.map_some, Option.bind_some, Feature.mapCategory]
    split <;> rfl

end

variable {ν : Renaming}

theorem filter_map_rename {p p' : Expression → Bool} (hp : ∀ e, p' (e.rename ν) = p e)
    (s : List Expression) : (s.map (rename ν)).filter p' = (s.filter p).map (rename ν) := by
  rw [List.filter_map]
  congr 2
  exact funext hp

theorem attach_rename (host child : Expression) :
    attach (host.rename ν) (child.rename ν) = (attach host child).rename ν := by
  simp only [attach, rename_mk, List.map_cons, phon_rename, kind_rename, features_rename, meaning_rename,
    arguments_rename, children_rename]

theorem traceMeaning?_mapIndices (ρ : Int → Int) (f : Formula) :
    traceMeaning? (f.mapIndices ρ) = (traceMeaning? f).map (Formula.mapIndices ρ) := by
  unfold traceMeaning?
  rw [Formula.isQuantificational_mapIndices, Formula.boundIndex?_mapIndices]
  split
  · rw [Option.map_map, Option.map_map]
    rfl
  · rfl

theorem conjoin_rename (adjuncts : List Expression) (base : Formula) :
    conjoin (adjuncts.map (rename ν)) (base.mapIndices ν.index) =
      (conjoin adjuncts base).mapIndices ν.index := by
  induction adjuncts with
  | nil => rfl
  | cons a adjuncts ih =>
    simp only [conjoin, List.map_cons, List.foldr_cons, meaning_rename] at ih ⊢
    rw [ih, Formula.mapIndices]

def Phrase.mapIndices (ρ : Int → Int) (p : Phrase) : Phrase :=
  { p with meaning := p.meaning.mapIndices ρ }

section
variable (hν : Function.Injective ν.category)
include hν

theorem isFinal_rename (category : Text) (e : Expression) :
    isFinal (ν.category category) (e.rename ν) = isFinal category e := by
  have hfeatures : e.features.map (·.mapCategory ν.category) =
      [(⟨.licensee, category⟩ : Feature)].map (·.mapCategory ν.category) ↔
        e.features = [⟨.licensee, category⟩] :=
    List.map_inj_right (Feature.mapCategory_injective hν)
  rw [isFinal, isFinal, features_rename]
  exact decide_eq_decide.mpr hfeatures

theorem outerIsOf_rename (kind : FeatureKind) (category : Text) (e : Expression) :
    (e.rename ν).outerIsOf kind (ν.category category) = e.outerIsOf kind category := by
  have houter : e.outer?.map (·.mapCategory ν.category) = some ⟨kind, ν.category category⟩ ↔
      e.outer? = some ⟨kind, category⟩ :=
    (Option.map_injective (Feature.mapCategory_injective hν)).eq_iff (b := some ⟨kind, category⟩)
  rw [outerIsOf, outerIsOf, outer?_rename]
  exact decide_eq_decide.mpr houter

theorem outersMatch_rename (host child : FeatureKind) (a b : Expression) :
    outersMatch host child (a.rename ν) (b.rename ν) = outersMatch host child a b := by
  rw [outersMatch, outersMatch, outer?_rename, outer?_rename]
  cases a.outer? with
  | none => rfl
  | some f =>
    cases b.outer? with
    | none => rfl
    | some g => simp only [Option.map_some, Feature.mapCategory, hν.eq_iff]

theorem attachBy?_rename (host child : FeatureKind) (a b : Expression) :
    attachBy? host child (a.rename ν) (b.rename ν) = (attachBy? host child a b).map (rename ν) := by
  unfold attachBy?
  rw [outersMatch_rename hν, outersMatch_rename hν, attach_rename, attach_rename]
  split
  · rfl
  · split <;> rfl

theorem mergeFinal?_rename (token? : Option Text) (e : Expression) :
    (e.rename ν).mergeFinal? token? = (e.mergeFinal? token?).map (rename ν) := by
  match hf : e.features with
  | ⟨.licensor, category⟩ :: features =>
    have hf' : (e.rename ν).features =
        ⟨.licensor, ν.category category⟩ :: features.map (·.mapCategory ν.category) := by
      rw [features_rename, hf, List.map_cons, Feature.mapCategory]
    have hothers (d : Expression) : (!isFinal (ν.category category) (d.rename ν)) = !isFinal category d := by
      rw [isFinal_rename hν]
    simp only [mergeFinal?, hf, hf']
    rw [children_rename, filter_map_rename (isFinal_rename hν category), filter_map_rename hothers]
    match e.children.filter (isFinal category) with
    | [] => rfl
    | [child] => simp [rename_mk, Argument.rename]
    | _ :: _ :: _ => rfl
  | [] => simp [mergeFinal?, hf]
  | ⟨.licensee, _⟩ :: _ | ⟨.adjunct, _⟩ :: _ => simp [mergeFinal?, hf, Feature.mapCategory]

theorem mergeComplement?_rename (e : Expression) :
    (e.rename ν).mergeComplement? = e.mergeComplement?.map (rename ν) := by
  unfold mergeComplement?
  rw [kind_rename, mergeFinal?_rename hν]
  split <;> rfl

theorem mergeSpecifier?_rename (e : Expression) :
    (e.rename ν).mergeSpecifier? = e.mergeSpecifier?.map (rename ν) := by
  unfold mergeSpecifier?
  rw [kind_rename, mergeFinal?_rename hν]
  split <;> rfl

theorem mergeMover?_rename (e : Expression) :
    (e.rename ν).mergeMover? = e.mergeMover?.map (rename ν) := by
  match hf : e.features with
  | ⟨.licensor, category⟩ :: features =>
    have hf' : (e.rename ν).features =
        ⟨.licensor, ν.category category⟩ :: features.map (·.mapCategory ν.category) := by
      rw [features_rename, hf, List.map_cons, Feature.mapCategory]
    -- what becomes of a child that stays does not depend on names
    have hmoved (d : Expression) :
        (if (d.rename ν).outerIsOf .licensee (ν.category category) then
            { d.rename ν with features := (d.rename ν).features.tail }
          else d.rename ν) =
        (if d.outerIsOf .licensee category then { d with features := d.features.tail } else d).rename
          ν := by
      rw [outerIsOf_rename hν]
      split
      · simp [rename_mk]
      · rfl
    simp only [mergeMover?, hf, hf']
    rw [children_rename, filter_map_rename (outerIsOf_rename hν .licensee category)]
    generalize e.children.filter (·.outerIsOf .licensee category) = found
    match found with
    | [] => rfl
    | [child] =>
      simp only [List.map_cons, List.map_nil, features_rename, List.length_map, meaning_rename,
        traceMeaning?_mapIndices]
      split
      · rfl
      · rw [Option.map_map, Option.map_map]
        congr 1
        funext meaning
        simp only [Function.comp_apply, rename_mk, phon_rename, arguments_rename, List.map_cons, List.map_map,
          Argument.rename]
        congr 1
        exact List.map_congr_left fun d _ => hmoved d
    | _ :: _ :: _ => rfl
  | [] => simp [mergeMover?, hf]
  | ⟨.licensee, _⟩ :: _ | ⟨.adjunct, _⟩ :: _ => simp [mergeMover?, hf, Feature.mapCategory]

theorem phraseOfOne_rename {index d : Int} (hindex : ν.index index = index + d)
    (categories : PhraseCategories) (e : Expression) (category : Text) (argument : Argument) :
    phraseOfOne (categories.map ν.category) (index + d) (e.rename ν) (ν.category category) (argument.rename ν) =
      ((phraseOfOne categories index e category argument).1.mapIndices ν.index,
        (phraseOfOne categories index e category argument).2 + d) := by
  unfold phraseOfOne
  simp only [meaning_rename, phon_rename, Formula.isQuantificational_mapIndices, PhraseCategories.map,
    hν.eq_iff]
  split
  · rfl
  · split
    · rfl
    · split
      · have hnext : index + d - 1 = index - 1 + d := by omega
        simp only [Phrase.mapIndices, Formula.mapIndices, Argument.rename, hindex, hnext]
      · rfl

theorem phraseOfTwo_rename (categories : PhraseCategories) (adjuncts : List Expression)
    (e : Expression) (category? : Option Text) (ext int : Argument) :
    phraseOfTwo (categories.map ν.category) (adjuncts.map (rename ν)) (e.rename ν) (category?.map ν.category)
        (ext.rename ν) (int.rename ν) =
      (phraseOfTwo categories adjuncts e category? ext int).mapIndices ν.index := by
  have hcategory (category : Text) :
      category?.map ν.category = some (ν.category category) ↔ category? = some category :=
    (Option.map_injective hν).eq_iff (b := some category)
  unfold phraseOfTwo
  simp only [PhraseCategories.map, hcategory]
  split
  · simp only [Phrase.mapIndices, Argument.rename, ← conjoin_rename, Formula.mapIndices]
  · split <;>
      simp only [Phrase.mapIndices, Argument.rename, ← conjoin_rename, Formula.mapIndices, meaning_rename,
        phon_rename]

theorem spellOut?_rename {index d : Int} (hindex : ν.index index = index + d)
    (categories : PhraseCategories) (e : Expression) :
    (e.rename ν).spellOut? (categories.map ν.category) (index + d) =
      (e.spellOut? categories index).map fun made => (made.1.rename ν, made.2 + d) := by
  have hothers (d : Expression) : (!isAdjunct (d.rename ν)) = !isAdjunct d := by
    rw [isAdjunct_rename]
  have hphon (s : List Expression) : (s.map (rename ν)).map phon = s.map phon := by
    rw [List.map_map]
    exact List.map_congr_left fun d _ => phon_rename ν d
  unfold spellOut?
  rw [outerCategory?_rename, arguments_rename, children_rename, filter_map_rename (isAdjunct_rename ν),
    filter_map_rename hothers]
  match e.arguments, e.outerCategory? .licensee with
  | [argument], some category =>
    simp only [List.map_cons, List.map_nil, Option.map_some, phraseOfOne_rename hν hindex,
      Phrase.mapIndices, hphon, conjoin_rename, rename_mk, kind_rename, features_rename]
  | [ext, int], category? =>
    simp only [List.map_cons, List.map_nil, Option.map_some, phraseOfTwo_rename hν, Phrase.mapIndices,
      hphon, rename_mk, kind_rename, features_rename]
  | [], _ => rfl
  | [_], none => rfl
  | _ :: _ :: _ :: _, _ => rfl

end

end Expression

namespace Operation
variable {ν : Renaming} {name : Text}

theorem withoutIndex_rename {merge : Expression → Option Expression} {e : Expression}
    (h : merge (e.rename ν) = (merge e).map (Expression.rename ν)) (index d : Int) :
    withoutIndex merge (index + d) (e.rename ν) =
      (withoutIndex merge index e).map fun made => (made.1.rename ν, made.2 + d) := by
  unfold withoutIndex
  rw [h, Option.map_map, Option.map_map]
  rfl

variable (hν : Function.Injective ν.category)
include hν

theorem merge_rename {operator : UnaryOperator} (hop : (name, operator) ∈ merges) (index d : Int)
    (e : Expression) : operator (index + d) (e.rename ν) =
      (operator index e).map fun made => (made.1.rename ν, made.2 + d) := by
  rcases mem_merges_iff.mp hop with ⟨-, rfl⟩ | ⟨-, rfl⟩ | ⟨-, rfl⟩
  · exact withoutIndex_rename (Expression.mergeComplement?_rename hν e) index d
  · exact withoutIndex_rename (Expression.mergeSpecifier?_rename hν e) index d
  · exact withoutIndex_rename (Expression.mergeMover?_rename hν e) index d

theorem binary_rename {operator : BinaryOperator} (hop : (name, operator) ∈ binary) (a b : Expression) :
    operator (a.rename ν) (b.rename ν) = (operator a b).map (Expression.rename ν) := by
  rcases mem_binary_iff.mp hop with ⟨-, rfl⟩ | ⟨-, rfl⟩
  · exact Expression.attachBy?_rename hν _ _ a b
  · exact Expression.attachBy?_rename hν _ _ a b

end Operation
end MinimalistGrammar
