import MinimalistGrammar.Proofs.TruthConditions
import MinimalistGrammar.Proofs.Typing

/-! Dropping modifiers. A conjunct may be left out anywhere in the scope of quantifiers, since nothing there is
negated: what runs quickly runs. The search for an event or a bearer may then meet others than before, but with
formulas that fit together it finds one. -/
namespace MinimalistGrammar
namespace Formula

def isQuantifierFree : Formula → Bool
  | quantifier _ => false
  | internal operand | indexed _ operand | external operand | close operand => operand.isQuantifierFree
  | and left right => left.isQuantifierFree && right.isQuantifierFree
  | const _ | var _ | foreign _ => true

/-- The second formula is the first one with modifiers dropped: conjunctions in it, at any depth, are replaced
by one of their sides. -/
inductive Drops : Formula → Formula → Prop where
  | refl (f : Formula) : Drops f f
  | left {left left' right : Formula} (h : Drops left left') : Drops (and left right) left'
  | right {left right right' : Formula} (h : Drops right right') : Drops (and left right) right'
  | and {left left' right right' : Formula} (hl : Drops left left') (hr : Drops right right') :
      Drops (and left right) (and left' right')
  | internal {operand operand' : Formula} (h : Drops operand operand') :
      Drops (internal operand) (internal operand')
  | indexed {index : Int} {operand operand' : Formula} (h : Drops operand operand') :
      Drops (indexed index operand) (indexed index operand')
  | external {operand operand' : Formula} (h : Drops operand operand') :
      Drops (external operand) (external operand')
  | close {operand operand' : Formula} (h : Drops operand operand') :
      Drops (close operand) (close operand')

structure QuantifierPrefix where
  kind : Text
  index : Int
  restrictor : Formula

def quantified (prefixes : List QuantifierPrefix) (body : Formula) : Formula :=
  prefixes.foldr (fun p scope => and (and (quantifier p.kind) (indexed p.index p.restrictor)) scope) body

variable {f f' body body' left right : Formula} {w : World}

theorem isQuantifierFree_and :
    (and left right).isQuantifierFree ↔ left.isQuantifierFree ∧ right.isQuantifierFree :=
  Bool.and_eq_true_iff

theorem ne_and_quantifier_of_isQuantifierFree (h : left.isQuantifierFree) (kind : Text)
    (restrictor : Formula) : left ≠ and (quantifier kind) restrictor := by
  rintro rfl
  cases h

theorem isTrue_and (h : left.isQuantifierFree) {g : Bindings} :
    (and left right).IsTrue w g ↔ left.IsTrue w g ∧ right.IsTrue w g :=
  has_and (ne_and_quantifier_of_isQuantifierFree h) (.truth true)

namespace Drops

theorem isQuantifierFree (h : Drops f f') (hf : f.isQuantifierFree) : f'.isQuantifierFree := by
  induction h with
  | refl => exact hf
  | left _ ih => exact ih (isQuantifierFree_and.mp hf).1
  | right _ ih => exact ih (isQuantifierFree_and.mp hf).2
  | and _ _ ihl ihr =>
    obtain ⟨hl, hr⟩ := isQuantifierFree_and.mp hf
    exact isQuantifierFree_and.mpr ⟨ihl hl, ihr hr⟩
  | internal _ ih | indexed _ ih | external _ ih | close _ ih => exact ih hf

theorem holdsOf (h : Drops f f') {g : Bindings} {d : Name} (hd : f.HoldsOf w g d) : f'.HoldsOf w g d := by
  induction h generalizing d with
  | refl => exact hd
  | left _ ih => exact ih hd.1
  | right _ ih => exact ih hd.2
  | and _ _ ihl ihr => exact ⟨ihl hd.1, ihr hd.2⟩
  | internal _ ih | external _ ih =>
    obtain ⟨x, hx, hbears, hholds⟩ := hd
    exact ⟨x, hx, hbears, ih hholds⟩
  | indexed => exact hd.elim
  | close _ ih => exact ih hd

theorem isTrue (h : Drops f f') (hf : f.isQuantifierFree) {g : Bindings} (htrue : f.IsTrue w g) :
    f'.IsTrue w g := by
  induction h with
  | refl => exact htrue
  | left _ ih =>
    obtain ⟨hl, -⟩ := isQuantifierFree_and.mp hf
    exact ih hl ((isTrue_and hl).mp htrue).1
  | right _ ih =>
    obtain ⟨hl, hr⟩ := isQuantifierFree_and.mp hf
    exact ih hr ((isTrue_and hl).mp htrue).2
  | and hdrops _ ihl ihr =>
    obtain ⟨hl, hr⟩ := isQuantifierFree_and.mp hf
    obtain ⟨hleft, hright⟩ := (isTrue_and hl).mp htrue
    exact (isTrue_and (hdrops.isQuantifierFree hl)).mpr ⟨ihl hl hleft, ihr hr hright⟩
  | internal h =>
    obtain ⟨e, he, hholds⟩ := htrue
    exact ⟨e, he, h.internal.holdsOf hholds⟩
  | indexed => exact htrue.elim
  | external h =>
    obtain ⟨e, he, hholds⟩ := htrue
    exact ⟨e, he, h.external.holdsOf hholds⟩
  | close h =>
    obtain ⟨e, he, hholds⟩ := htrue
    exact ⟨e, he, h.close.holdsOf hholds⟩

theorem isPredicate {indices : Set Int} (h : Drops f f') (hf : f.isQuantifierFree)
    (hpredicate : f.IsPredicate indices) : f'.IsPredicate indices := by
  induction h with
  | refl => exact hpredicate
  | left _ ih =>
    obtain ⟨hl, -⟩ := isQuantifierFree_and.mp hf
    cases hpredicate with
    | and _ hpl _ => exact ih hl hpl
  | right _ ih =>
    obtain ⟨-, hr⟩ := isQuantifierFree_and.mp hf
    cases hpredicate with
    | and _ _ hpr => exact ih hr hpr
  | and hdrops _ ihl ihr =>
    obtain ⟨hl, hr⟩ := isQuantifierFree_and.mp hf
    have hl' := ne_and_quantifier_of_isQuantifierFree (hdrops.isQuantifierFree hl)
    cases hpredicate with
    | and _ hpl hpr => exact .and hl' (ihl hl hpl) (ihr hr hpr)
  | internal _ ih =>
    cases hpredicate with
    | internal hp => exact .internal (ih hf hp)
  | indexed => cases hpredicate
  | external _ ih =>
    cases hpredicate with
    | external hp => exact .external (ih hf hp)
  | close _ ih =>
    cases hpredicate with
    | close hp => exact .close (ih hf hp)

theorem isSentence {indices : Set Int} (h : Drops f f') (hf : f.isQuantifierFree)
    (hsentence : f.IsSentence indices) : f'.IsSentence indices := by
  induction h with
  | refl => exact hsentence
  | left _ ih =>
    obtain ⟨hl, -⟩ := isQuantifierFree_and.mp hf
    cases hsentence with
    | and _ hsl _ => exact ih hl hsl
    | quantified => cases hf
  | right _ ih =>
    obtain ⟨-, hr⟩ := isQuantifierFree_and.mp hf
    cases hsentence with
    | and _ _ hsr => exact ih hr hsr
    | quantified => cases hf
  | and hdrops _ ihl ihr =>
    obtain ⟨hl, hr⟩ := isQuantifierFree_and.mp hf
    have hl' := ne_and_quantifier_of_isQuantifierFree (hdrops.isQuantifierFree hl)
    cases hsentence with
    | and _ hsl hsr => exact .and hl' (ihl hl hsl) (ihr hr hsr)
    | quantified => cases hf
  | internal h =>
    cases hsentence with
    | internal hp => exact .internal (h.isPredicate hf hp)
  | indexed => cases hsentence
  | external h =>
    cases hsentence with
    | external hp => exact .external (h.isPredicate hf hp)
  | close h =>
    cases hsentence with
    | close hp => exact .close (h.isPredicate hf hp)

end Drops

theorem Quantifies.mono {kind : Text} {restrictor scope scope' : Set Name}
    (h : Quantifies kind restrictor scope) (hscope : scope ⊆ scope') : Quantifies kind restrictor scope' := by
  rcases h with ⟨hkind, x, hx, hs⟩ | ⟨hkind, hsub⟩
  · exact .inl ⟨hkind, x, hx, hscope hs⟩
  · exact .inr ⟨hkind, hsub.trans hscope⟩

/-- An entailment holds in the scope of quantifiers, whatever they range over. -/
theorem isTrue_quantified (h : ∀ g, body.IsTrue w g → body'.IsTrue w g) (prefixes : List QuantifierPrefix)
    {g : Bindings} (htrue : (quantified prefixes body).IsTrue w g) :
    (quantified prefixes body').IsTrue w g := by
  induction prefixes generalizing g with
  | nil => exact h g htrue
  | cons p prefixes ih => exact Quantifies.mono htrue fun x hx => ih hx

theorem isSentence_quantified (h : ∀ indices, body.IsSentence indices → body'.IsSentence indices)
    (prefixes : List QuantifierPrefix) {indices : Set Int}
    (hsentence : (quantified prefixes body).IsSentence indices) :
    (quantified prefixes body').IsSentence indices := by
  induction prefixes generalizing indices with
  | nil => exact h indices hsentence
  | cons p prefixes ih =>
    cases hsentence with
    | and hleft => exact absurd rfl (hleft _ _)
    | quantified hkind hrestrictor hbody => exact .quantified hkind hrestrictor (ih hbody)

end Formula

namespace Model

/-- Dropping modifiers preserves truth, in the scope of any quantifiers. A sentence that is true is true without
some of its modifiers, so that evaluation does not find it false, and finds it true if it fits together. -/
theorem evaluate_of_drops (m : Model) (prefixes : List Formula.QuantifierPrefix) {body body' : Formula}
    (hfree : body.isQuantifierFree) (hdrops : body.Drops body')
    (htrue : m.evaluate (.quantified prefixes body) = .ok true) :
    (Formula.quantified prefixes body').IsTrue m.world m.assignment? ∧
      m.evaluate (.quantified prefixes body') ≠ .ok false ∧
      ∀ indices, m.Covers indices → (Formula.quantified prefixes body).IsSentence indices →
        m.evaluate (.quantified prefixes body') = .ok true := by
  have hentailed : (Formula.quantified prefixes body').IsTrue m.world m.assignment? :=
    Formula.isTrue_quantified (fun _ => hdrops.isTrue hfree) prefixes
      ((m.decides_hasValue _ (.truth true) true htrue).mp rfl)
  have hresult {b : Bool} (hb : m.evaluate (.quantified prefixes body') = .ok b) : b = true :=
    (m.decides_hasValue _ (.truth true) b hb).mpr hentailed
  refine ⟨hentailed, fun hfalse => Bool.false_ne_true (hresult hfalse), fun indices hm hsentence => ?_⟩
  have hsentence' := Formula.isSentence_quantified (fun _ => hdrops.isSentence hfree) prefixes hsentence
  obtain ⟨b, hb⟩ := succeeds_of_isSentence hm hsentence' true
  exact hresult hb ▸ hb

/-- If every girl runs quickly, every girl runs. -/
theorem evaluate_of_drops_runs_quickly :
    let m : Model :=
      { entities := [.text "alice", .text "bob", .text "carol"]
        events := [.text "walk", .text "race"]
        assignments := ∅
        predicates := .ofList [("girl", .ofList [.text "alice", .text "carol"]),
          ("run", .ofList [.text "race"]), ("quick", .ofList [.text "race"])]
        relations := .ofList [("ext", .ofList [⟨.text "race", .text "alice"⟩, ⟨.text "race", .text "carol"⟩])] }
    let prefixes : List Formula.QuantifierPrefix := [⟨"every", -1, .const "girl"⟩]
    let body : Formula := .close (.and (.const "run") (.and (.const "quick") (.external (.var (-1)))))
    let body' : Formula := .close (.and (.const "run") (.external (.var (-1))))
    body.isQuantifierFree ∧ body.Drops body' ∧ m.evaluate (.quantified prefixes body) = .ok true ∧
      m.Covers ∅ ∧ (Formula.quantified prefixes body).IsSentence ∅ ∧
      m.evaluate (.quantified prefixes body') = .ok true := by
  intro m prefixes body body'
  have hdrops : body.Drops body' := .close (.and (.refl _) (.right (.refl _)))
  have htrue : m.evaluate (.quantified prefixes body) = .ok true := rfl
  have hm : m.Covers ∅ := fun _ hindex => hindex.elim
  have hsentence : (Formula.quantified prefixes body).IsSentence ∅ := by
    refine .quantified (.inr rfl) (.const _) (.close (.and nofun (.const _) (.and nofun (.const _) ?_)))
    exact .external (.var (by simp))
  exact ⟨rfl, hdrops, htrue, hm, hsentence, (evaluate_of_drops m prefixes rfl hdrops htrue).2.2 ∅ hm hsentence⟩

end Model
end MinimalistGrammar
