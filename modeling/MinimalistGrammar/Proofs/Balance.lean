import MinimalistGrammar.Proofs.Conservation
import MinimalistGrammar.Proofs.Pending

/-! The balance of features. A check takes a licensor and a licensee of the same category away, so that for every
category the licensors minus the licensees of the leaves of a derivation are those of its expression, and of the
adjuncts that were spelled out in it and went with all their features. -/
namespace MinimalistGrammar

namespace Feature

def balance (category : Text) (features : List Feature) : Int :=
  features.count ⟨.licensor, category⟩ - features.count ⟨.licensee, category⟩

variable {category : Text} {s t : List Feature}

theorem balance_append : balance category (s ++ t) = balance category s + balance category t := by
  simp only [balance, List.count_append]
  omega

theorem balance_of_perm (h : s.Perm t) : balance category s = balance category t := by
  rw [balance, h.count_eq, h.count_eq, balance]

theorem balance_check (category checked : Text) :
    balance category [⟨.licensor, checked⟩, ⟨.licensee, checked⟩] = 0 := by
  by_cases h : checked = category <;> simp [balance, h]

end Feature

namespace Expression

mutual
/-- The balance of the features of an expression and of all that is attached to it. -/
def balance (category : Text) : Expression → Int
  | ⟨_, _, features, _, _, children⟩ => Feature.balance category features + balanceOfAll category children

def balanceOfAll (category : Text) : List Expression → Int
  | [] => 0
  | e :: rest => balance category e + balanceOfAll category rest
end

mutual
theorem balance_eq (category : Text) :
    (e : Expression) → e.balance category = Feature.balance category e.allFeatures
  | ⟨_, _, _, _, _, children⟩ => by
    rw [balance, allFeatures, Feature.balance_append, balanceOfAll_eq category children]

theorem balanceOfAll_eq (category : Text) :
    (s : List Expression) → balanceOfAll category s = Feature.balance category (featuresOfAll s)
  | [] => rfl
  | e :: rest => by
    rw [balanceOfAll, featuresOfAll, Feature.balance_append, balance_eq category e, balanceOfAll_eq category rest]
end

theorem balance_checked (category : Text) (e : Expression) : Feature.balance category e.checked = 0 := by
  unfold checked
  split
  · exact Feature.balance_check _ _
  · rfl

end Expression

theorem Operation.checked_of_merge {categories : PhraseCategories} {name : Text} {operator : UnaryOperator}
    (hop : (name, operator) ∈ unary categories) (hname : name ≠ "spellout") {index next : Int}
    {e result : Expression} (h : operator index e = some (result, next)) :
    ∃ category, e.checked = [⟨.licensor, category⟩, ⟨.licensee, category⟩] := by
  rcases of_unary hop h with ⟨hspellout, -⟩ | ⟨-, ⟨token?, h⟩ | h⟩
  · exact absurd hspellout hname
  · obtain ⟨category, features, before, child, after, hf, -⟩ := Expression.of_mergeFinal? h
    exact ⟨category, Expression.checked_of_features hf⟩
  · obtain ⟨category, features, before, child, after, rest, meaning, hf, -⟩ := Expression.of_mergeMover? h
    exact ⟨category, Expression.checked_of_features hf⟩

namespace ChartEntry

/-- How an entry came to its features. A word brings its own and attaching brings those of two expressions
together; a merge checks a licensor against a licensee of the same category, and what is spelled out loses the
features of its adjuncts. -/
inductive IsAccounted (entry : ChartEntry) : Prop where
  | word {item : LexicalItem} (hsources : entry.sources = []) (hoperator : entry.operator? = none)
      (hexpression : entry.expression = .ofItem item)
  | attached {first second : ChartEntry} (hsources : entry.sources = [first, second])
      (hoperator : entry.operator? = some ("insert" : Text) ∨ entry.operator? = some ("insert_adjunct" : Text))
      (hfeatures : (first.expression.allFeatures ++ second.expression.allFeatures).Perm
        entry.expression.allFeatures)
  | checked {source : ChartEntry} {category : Text} (hsources : entry.sources = [source])
      (hoperator : entry.isMerged ∨ entry.operator? = some ("merge_nonfinal" : Text))
      (hfeatures : source.expression.allFeatures.Perm
        (⟨.licensor, category⟩ :: ⟨.licensee, category⟩ :: entry.expression.allFeatures))
  | spelledOut {source : ChartEntry} (hsources : entry.sources = [source])
      (hoperator : entry.operator? = some ("spellout" : Text))
      (hfeatures : source.expression.allFeatures.Perm
        (entry.expression.allFeatures ++ Expression.featuresOfAll entry.absorbed))

theorem isAccounted_of_applyUnary? {categories : PhraseCategories} {name : Text}
    {operator : UnaryOperator} {entry result : ChartEntry} {counters counters' : Counters}
    (hop : (name, operator) ∈ Operation.unary categories)
    (hr : entry.applyUnary? name operator counters = some (result, counters')) :
    result.IsAccounted := by
  obtain ⟨-, expression, nextIndex, he, rfl, -⟩ := applyUnary?_eq_some_iff.mp hr
  have hfeatures := Operation.allFeatures_of_unary hop he
  by_cases hname : name = "spellout"
  · subst hname
    exact .spelledOut rfl rfl (by simpa [absorbed, Operation.spent] using hfeatures)
  · have hmerge : name = "merge_comp" ∨ name = "merge_spec" ∨ name = "merge_nonfinal" := by
      rcases Operation.mem_unary_iff.mp hop with ⟨h, -⟩ | ⟨h, -⟩ | ⟨h, -⟩ | ⟨h, -⟩
      · exact absurd h hname
      · exact .inl h
      · exact .inr (.inl h)
      · exact .inr (.inr h)
    obtain ⟨category, hchecked⟩ := Operation.checked_of_merge hop hname he
    rw [Operation.spent, if_neg hname, hchecked] at hfeatures
    exact .checked rfl (by simpa [isMerged, or_assoc] using hmerge) (hfeatures.trans List.perm_append_comm)

theorem isAccounted_of_applyBinary? {name : Text} {operator : BinaryOperator}
    {first second result : ChartEntry} {counters counters' : Counters}
    (hop : (name, operator) ∈ Operation.binary)
    (hr : first.applyBinary? name operator second counters = some (result, counters')) :
    result.IsAccounted := by
  obtain ⟨-, expression, he, rfl, -⟩ := applyBinary?_eq_some_iff.mp hr
  have hname : name = "insert" ∨ name = "insert_adjunct" := by
    rcases Operation.mem_binary_iff.mp hop with ⟨hname, -⟩ | ⟨hname, -⟩
    · exact .inr hname
    · exact .inl hname
  exact .attached rfl (by simpa using hname) (Operation.allFeatures_of_binary hop he)

/-- Of what is lost where an entry is made, only the adjuncts count. -/
theorem IsAccounted.balance_spent {entry : ChartEntry} (h : entry.IsAccounted) (category : Text) :
    Feature.balance category entry.spent = Expression.balanceOfAll category entry.absorbed := by
  cases h with
  | word _ hoperator =>
    have hspellout : entry.operator? ≠ some ("spellout" : Text) := by
      rw [hoperator]
      exact nofun
    rw [absorbed_eq_nil hspellout, spent, hoperator]
    rfl
  | attached hsources hoperator =>
    have hspellout : entry.operator? ≠ some ("spellout" : Text) := by
      rcases hoperator with hoperator | hoperator <;> rw [hoperator] <;> decide
    rw [absorbed_eq_nil hspellout, spent, hsources]
    cases entry.operator? <;> rfl
  | checked hsources hoperator =>
    have hspellout : entry.operator? ≠ some ("spellout" : Text) := by
      intro hspellout
      rw [isMerged, hspellout] at hoperator
      exact absurd hoperator (by decide)
    rw [absorbed_eq_nil hspellout, spent, hsources]
    cases ho : entry.operator? with
    | none => rfl
    | some name =>
      have hname : name ≠ "spellout" := by
        rintro rfl
        exact hspellout ho
      dsimp only
      rw [Operation.spent, if_neg hname]
      exact Expression.balance_checked category _
  | spelledOut hsources hoperator =>
    rw [absorbed_of_spellout hsources hoperator, spent, hsources, hoperator, Expression.balanceOfAll_eq]
    rfl

theorem balance_spent_nodes {nodes : List ChartEntry} (h : ∀ node ∈ nodes, node.IsAccounted)
    (category : Text) : Feature.balance category (nodes.flatMap spent) =
      Expression.balanceOfAll category (nodes.flatMap absorbed) := by
  induction nodes with
  | nil => rfl
  | cons node nodes ih =>
    obtain ⟨hnode, hnodes⟩ := List.forall_mem_cons.mp h
    have hfirst := hnode.balance_spent category
    rw [Expression.balanceOfAll_eq] at hfirst ih ⊢
    rw [List.flatMap_cons, List.flatMap_cons, Expression.featuresOfAll_append, Feature.balance_append,
      Feature.balance_append, hfirst, ih hnodes]

theorem isInherited_isAccounted (categories : PhraseCategories) : IsInherited categories IsAccounted :=
  ⟨fun _ _ => .word rfl rfl rfl, fun hop _ hr => isAccounted_of_applyUnary? hop hr,
    fun hop _ _ hr => isAccounted_of_applyBinary? hop hr⟩

end ChartEntry

namespace Parsing
variable {setting : Setting} {counters : Counters} {text : Text} {e : ChartEntry}

/-- Every entry that a run makes, in its chart at any time or as its result, has the balance of its leaves once
the adjuncts count that were spelled out, and every entry in its derivation is accounted for. -/
theorem balance_of_parse (h : (∃ s, Reachable setting (tokenize text) counters s ∧ e ∈ s.chart) ∨
      Outcome.entry? (setting.parse text counters) = some e) :
    (∀ category, Expression.balanceOfAll category (e.leaves.map (·.expression)) =
      e.expression.balance category + Expression.balanceOfAll category (e.nodes.flatMap (·.absorbed))) ∧
    ∀ node ∈ e.nodes, node.IsAccounted := by
  have hinherits {P : ChartEntry → Prop} (hP : ChartEntry.IsInherited setting.categories P) : P e := by
    rcases h with ⟨s, hs, he⟩ | he
    · exact hs.forall_chart hP e he
    · exact inherits_of_parse he hP
  have hbalanced : e.IsBalanced := hinherits (ChartEntry.isInherited_isBalanced _)
  have hnodes : ∀ node ∈ e.nodes, node.IsAccounted :=
    hinherits (ChartEntry.isInherited_isAccounted _).forall_nodes
  refine ⟨fun category => ?_, hnodes⟩
  rw [Expression.balanceOfAll_eq, Feature.balance_of_perm hbalanced, Feature.balance_append,
    ChartEntry.balance_spent_nodes hnodes, Expression.balance_eq]

/-- An adjunct with a case of its own that is never checked: it goes where the adjunct is spelled out. -/
theorem balance_of_parse_adjunct :
    let setting : Setting := ⟨⟨[⟨"sleep", [⟨.licensor, "d"⟩, ⟨.licensee, "c"⟩], .const "sleep"⟩,
      ⟨"he", [⟨.licensee, "d"⟩], .const "he"⟩,
      ⟨"alone", [⟨.adjunct, "d"⟩, ⟨.licensee, "k"⟩], .const "alone"⟩], .ofList ["c"]⟩, {}⟩
    ∃ e, Outcome.entry? (setting.parse "sleep he alone" {}) = some e ∧
      Expression.balanceOfAll "k" (e.leaves.map (·.expression)) = -1 ∧ e.expression.balance "k" = 0 ∧
      (∀ category, Expression.balanceOfAll category (e.leaves.map (·.expression)) =
        e.expression.balance category + Expression.balanceOfAll category (e.nodes.flatMap (·.absorbed))) ∧
      ∀ node ∈ e.nodes, node.IsAccounted := by
  intro setting
  have hsome : Outcome.isAccepted (setting.parse "sleep he alone" {}) := by decide +kernel
  obtain ⟨e, he⟩ := Option.isSome_iff_exists.mp hsome
  have hcase : ((Outcome.entry? (setting.parse "sleep he alone" {})).map fun e =>
      (Expression.balanceOfAll "k" (e.leaves.map (·.expression)), e.expression.balance "k")) =
      some (-1, 0) := by decide +kernel
  rw [he, Option.map_some, Option.some.injEq, Prod.mk.injEq] at hcase
  exact ⟨e, he, hcase.1, hcase.2, balance_of_parse (.inr he)⟩

end Parsing
end MinimalistGrammar
