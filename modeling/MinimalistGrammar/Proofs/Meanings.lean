import MinimalistGrammar.Proofs.DocumentTypes
import MinimalistGrammar.Proofs.TruthConditions
import MinimalistGrammar.Proofs.Vocabulary

/-! Derivations from formulas have formulas for their meanings, and evaluation tells why it fails on a formula. -/
namespace MinimalistGrammar

/-- A property of formulas that the operations keep when they put meanings together. -/
structure Formula.IsCompositional (p : Formula → Prop) : Prop where
  var : ∀ index, p (.var index)
  internal : ∀ {f}, p f → p (.internal f)
  indexed : ∀ index {f}, p f → p (.indexed index f)
  external : ∀ {f}, p f → p (.external f)
  and : ∀ {f g}, p f → p g → p (.and f g)
  close : ∀ {f}, p f → p (.close f)

theorem Formula.isCompositional_isWritable : IsCompositional fun f => f.isWritable :=
  ⟨fun _ => rfl, fun h => h, fun _ _ h => h, fun h => h, fun hf hg => Bool.and_eq_true_iff.mpr ⟨hf, hg⟩, fun h => h⟩

/-- A property that formulas have only if all their parts have it, and nothing that is no formula. -/
structure Formula.IsHereditary (p : Formula → Prop) : Prop where
  internal : ∀ {f}, p (.internal f) → p f
  indexed : ∀ {index f}, p (.indexed index f) → p f
  external : ∀ {f}, p (.external f) → p f
  and : ∀ {f g}, p (.and f g) → p f ∧ p g
  close : ∀ {f}, p (.close f) → p f
  foreign : ∀ value, ¬p (.foreign value)

theorem Formula.isHereditary_isWritable : IsHereditary fun f => f.isWritable :=
  ⟨fun h => h, fun h => h, fun h => h, Bool.and_eq_true_iff.mp, fun h => h, fun _ h => nomatch h⟩

/-- The formula that the error shows, if it shows one, has some property, and something was a formula. -/
def EvaluationError.Shows (p : Formula → Prop) : EvaluationError → Prop
  | indexedRole role => p role
  | restrictor _ found => p found
  | notAFormula => False
  | _ => True

theorem EvaluationError.Shows.isSome_message? {p : Formula → Prop} {e : EvaluationError} (h : e.Shows p) :
    e.message?.isSome := by
  cases e with
  | notAFormula => exact h.elim
  | _ => rfl

namespace Expression

section Composition
variable {p : Formula → Prop} (hp : Formula.IsCompositional p)
include hp

theorem conjoin_of_isCompositional {adjuncts : List Expression} (h : ∀ a ∈ adjuncts, p a.meaning) {base : Formula}
    (hbase : p base) : p (conjoin adjuncts base) := by
  induction adjuncts with
  | nil => exact hbase
  | cons a adjuncts ih =>
    obtain ⟨ha, hadjuncts⟩ := List.forall_mem_cons.mp h
    exact hp.and ha (ih hadjuncts)

theorem traceMeaning?_of_isCompositional {meaning trace : Formula} (h : traceMeaning? meaning = some trace)
    (hmeaning : p meaning) : p trace := by
  unfold traceMeaning? at h
  split at h
  · obtain ⟨index, -, rfl⟩ := Option.map_eq_some_iff.mp h
    exact hp.var index
  · cases h
    exact hmeaning

theorem phraseOfOne_of_isCompositional (categories : PhraseCategories) (index : Int) {e : Expression} (category : Text)
    {argument : Argument} (he : p e.meaning) (h : p argument.meaning) :
    p (phraseOfOne categories index e category argument).1.meaning := by
  unfold phraseOfOne
  split
  · exact h
  · split
    · exact hp.and he (hp.external h)
    · split
      · exact hp.and he (hp.indexed index h)
      · exact hp.and he h

theorem phraseOfTwo_of_isCompositional (categories : PhraseCategories) {adjuncts : List Expression} {e : Expression}
    (category? : Option Text) {ext int : Argument} (hadjuncts : ∀ a ∈ adjuncts, p a.meaning)
    (he : p e.meaning) (hext : p ext.meaning) (hint : p int.meaning) :
    p (phraseOfTwo categories adjuncts e category? ext int).meaning := by
  unfold phraseOfTwo
  split
  · exact conjoin_of_isCompositional hp hadjuncts (hp.and hext hint)
  · dsimp only
    split
    · exact conjoin_of_isCompositional hp hadjuncts (hp.and he (hp.and (hp.internal hint) (hp.external hext)))
    · exact hp.close (hp.and he hint)

end Composition

def AllMeanings (p : Formula → Prop) (e : Expression) : Prop := ∀ f ∈ e.meaning :: e.arguments.map (·.meaning), p f

namespace AllMeanings
variable {p : Formula → Prop} {e result : Expression}

theorem meaning (h : e.AllMeanings p) : p e.meaning := h e.meaning List.mem_cons_self

theorem cons {argument : Argument} (h : e.AllMeanings p) (hargument : p argument.meaning)
    (hmeaning : result.meaning = e.meaning) (harguments : result.arguments = argument :: e.arguments) :
    result.AllMeanings p := by
  obtain ⟨hhead, hmeanings⟩ := List.forall_mem_cons.mp h
  rw [AllMeanings, hmeaning, harguments]
  exact List.forall_mem_cons.mpr ⟨hhead, List.forall_mem_cons.mpr ⟨hargument, hmeanings⟩⟩

theorem of_spellOut? (hp : Formula.IsCompositional p) {categories : PhraseCategories} {index next : Int}
    (he : e.AllMeanings p) (hchildren : ∀ child ∈ e.children, child.AllMeanings p)
    (h : e.spellOut? categories index = some (result, next)) : result.AllMeanings p := by
  obtain ⟨hhead, harguments⟩ := List.forall_mem_cons.mp he
  have hadjuncts : ∀ a ∈ e.children.filter isAdjunct, p a.meaning := fun a ha =>
    (hchildren a (List.mem_of_mem_filter ha)).meaning
  unfold spellOut? at h
  split at h
  · rename_i argument category ha _
    cases h
    rw [ha] at harguments
    refine List.forall_mem_singleton.mpr (conjoin_of_isCompositional hp hadjuncts ?_)
    exact phraseOfOne_of_isCompositional hp categories index category hhead (harguments _ List.mem_cons_self)
  · rename_i ext int ha
    cases h
    rw [ha] at harguments
    obtain ⟨hext, hint, -⟩ := List.forall_mem_cons.mp harguments |>.imp_right List.forall_mem_cons.mp
    exact List.forall_mem_singleton.mpr (phraseOfTwo_of_isCompositional hp categories _ hadjuncts hhead hext hint)
  · cases h

theorem of_unary (hp : Formula.IsCompositional p) {categories : PhraseCategories} {name : Text}
    {operator : UnaryOperator} (hop : (name, operator) ∈ Operation.unary categories) {index next : Int}
    (he : e.AllMeanings p) (hchildren : ∀ child ∈ e.children, child.AllMeanings p)
    (h : operator index e = some (result, next)) : result.AllMeanings p := by
  rcases Operation.of_unary hop h with ⟨-, h⟩ | ⟨-, ⟨token?, h⟩ | h⟩
  · exact he.of_spellOut? hp hchildren h
  · obtain ⟨category, features, before, child, after, -, hc, -, rfl⟩ := Expression.of_mergeFinal? h
    exact he.cons (hchildren child (by simp [hc])).meaning rfl rfl
  · obtain ⟨category, features, child, meaning, -, hc, -, hm, rfl⟩ := mergeMover?_eq_some_iff.mp h
    have hchild : child ∈ e.children := List.mem_of_mem_filter (hc ▸ List.mem_singleton_self child)
    exact he.cons (traceMeaning?_of_isCompositional hp hm (hchildren child hchild).meaning) rfl rfl

end AllMeanings

def IsFormulated (e : Expression) : Prop := ∀ f ∈ e.meaning :: e.arguments.map (·.meaning), f.isWritable

theorem IsFormulated.meaning {e : Expression} (h : e.IsFormulated) : e.meaning.isWritable := AllMeanings.meaning h

end Expression

theorem ChartEntry.isInherited_isFormulated (categories : PhraseCategories) : IsInherited categories fun e =>
    (∀ leaf ∈ e.leaves, leaf.expression.IsFormulated) →
      e.expression.IsFormulated ∧ e.expression.AllAttached Expression.IsFormulated :=
  isInherited_of_unary (fun _ _ _ _ _ h => h) (fun _ _ h => h) fun hop _ _ _ _ he hchildren h =>
    Expression.AllMeanings.of_unary Formula.isCompositional_isWritable hop he hchildren h

theorem Parsing.mem_items_of_mem_itemsOf {grammar : Grammar} {tokens : List Text} {item : LexicalItem}
    (h : item ∈ itemsOf grammar tokens) : item ∈ grammar.items := by
  rcases List.mem_append.mp h with hnull | htoken
  · exact List.mem_of_mem_filter hnull
  · obtain ⟨token, -, hitem⟩ := List.mem_flatMap.mp htoken
    exact List.mem_of_mem_filter hitem

/-- The meaning of what is accepted is a formula if those of all items are. -/
theorem Parsing.isWritable_of_parse {setting : Setting} {counters : Counters} {text : Text} {e : ChartEntry}
    (hitems : ∀ item ∈ setting.grammar.items, item.meaning.isWritable)
    (h : Outcome.entry? (setting.parse text counters) = some e) : e.expression.meaning.isWritable := by
  refine (inherits_of_parse h (ChartEntry.isInherited_isFormulated _) fun leaf hleaf => ?_).1.meaning
  obtain ⟨item, hitem, he⟩ := exists_item_of_mem_leaves h hleaf
  rw [he]
  exact List.forall_mem_singleton.mpr (hitems item (mem_items_of_mem_itemsOf hitem))

namespace Model

section Failing
variable {ε α : Type} {fails : ε → Prop} {test : α → Except ε Bool} {values : List α}

def FailsOnly {α : Type} (fails : ε → Prop) (r : Except ε α) : Prop := Yields (fun _ => True) fails r

theorem failsOnly_ok (a : α) : FailsOnly fails (.ok a : Except ε α) := trivial

theorem FailsOnly.bind {β : Type} {x : Except ε α} {next : α → Except ε β} (h : FailsOnly fails x)
    (hnext : ∀ a, FailsOnly fails (next a)) : FailsOnly fails (x >>= next) :=
  Yields.bind h fun a _ => hnext a

theorem FailsOnly.ite {r s : Except ε α} (h : FailsOnly fails r) (h' : FailsOnly fails s) (b : Bool) :
    FailsOnly fails (if b then r else s) := by
  cases b with
  | false => exact h'
  | true => exact h

theorem FailsOnly.atTruth {r : Except ε Bool} (h : FailsOnly fails r) (value : Bool) :
    FailsOnly fails (atTruth value r) := by
  cases r with
  | ok b => cases value <;> trivial
  | error e => cases value <;> exact h

theorem failsOnly_exists? (h : ∀ a, FailsOnly fails (test a)) : FailsOnly fails (exists? test values) := by
  induction values with
  | nil => exact failsOnly_ok false
  | cons a rest ih => exact (h a).bind ((failsOnly_ok true).ite ih)

theorem failsOnly_forall? (h : ∀ a, FailsOnly fails (test a)) : FailsOnly fails (forall? test values) := by
  induction values with
  | nil => exact failsOnly_ok true
  | cons a rest ih => exact (h a).bind (ih.ite (failsOnly_ok false))

theorem failsOnly_filter? (h : ∀ a, FailsOnly fails (test a)) : FailsOnly fails (filter? test values) := by
  induction values with
  | nil => exact failsOnly_ok []
  | cons a rest ih => exact (h a).bind fun _ => ih.bind fun _ => failsOnly_ok _

theorem failsOnly_roleHolds (m : Model) (relation : Text) {test : Name → Except ε Bool}
    (h : ∀ x, FailsOnly fails (test x)) (event : Name) : FailsOnly fails (m.roleHolds relation test event) :=
  failsOnly_exists? fun x => (h x).ite (failsOnly_ok false) (m.related relation event x)

variable {p : Formula → Prop}

theorem failsOnly_quantify (kind : Text) {scope : Name → Except EvaluationError Bool}
    (h : ∀ x, FailsOnly (EvaluationError.Shows p) (scope x)) (satisfiers : List Name) :
    FailsOnly (EvaluationError.Shows p) (quantify kind scope satisfiers) := by
  unfold quantify
  split
  · exact failsOnly_exists? h
  · split
    · exact failsOnly_forall? h
    · trivial

theorem failsOnly_variableHolds (m : Model) (index : Int) (v : Value) :
    FailsOnly (EvaluationError.Shows p) (m.variableHolds index v) := by
  unfold variableHolds
  split
  · trivial
  · split <;> trivial

end Failing

/-- Evaluation succeeds or shows a part of the formula. -/
theorem failsOnly_shows {p : Formula → Prop} (hp : Formula.IsHereditary p) {f : Formula} (h : p f) (m : Model)
    (v : Value) : FailsOnly (EvaluationError.Shows p) (hasValue f m v) := by
  fun_induction hasValue f m v with
  | case1 body m kind restrictor name => trivial
  | case2 kind body m value index operand ih ihbody =>
    obtain ⟨hrestrictor, hbody⟩ := hp.and h
    have hoperand : p operand := hp.indexed (hp.and hrestrictor).2
    have hscope := failsOnly_quantify kind fun e => ihbody e hbody
    exact ((failsOnly_filter? fun e => ih e hoperand).bind hscope).atTruth value
  | case3 kind body m value restrictor hindexed => exact (hp.and (hp.and h).1).2
  | case4 name m v => trivial
  | case5 left right m v hleft ihl ihr =>
    obtain ⟨hl, hr⟩ := hp.and h
    exact (ihl hl).bind ((ihr hr).ite (failsOnly_ok false))
  | case6 operand m e ih => exact ih (hp.close h)
  | case7 operand m value ih => exact (failsOnly_exists? fun e => ih e (hp.close h)).atTruth value
  | case8 operand m e ih => exact m.failsOnly_roleHolds internalRole (fun x => ih x (hp.internal h)) e
  | case9 operand m value ih =>
    exact (failsOnly_exists? (m.failsOnly_roleHolds internalRole fun x => ih x (hp.internal h))).atTruth value
  | case10 operand m e ih => exact m.failsOnly_roleHolds externalRole (fun x => ih x (hp.external h)) e
  | case11 operand m value ih =>
    exact (failsOnly_exists? (m.failsOnly_roleHolds externalRole fun x => ih x (hp.external h))).atTruth value
  | case12 index m v => exact failsOnly_variableHolds m index v
  | case13 => exact h
  | case14 kind m v => trivial
  | case15 value m v => exact hp.foreign value h

theorem failsOnly_hasValue {f : Formula} (h : f.isWritable) (m : Model) (v : Value) :
    FailsOnly (fun e => e.message?.isSome) (hasValue f m v) :=
  (failsOnly_shows Formula.isHereditary_isWritable h m v).imp_fails fun _ he => he.isSome_message?

end Model
end MinimalistGrammar
