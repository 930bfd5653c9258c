import MinimalistGrammar.Proofs.Heads

/-! How phrases go on. A phrase may be joined by adjuncts and spelled out, and stays the same phrase. What comes
of it can be attached wherever the phrase itself can, if no adjunct that went into it went into the host before;
and none did if the text has no other phrase for the adjunct to join. -/
namespace MinimalistGrammar

namespace Expression

def modifies (adjunct head : Expression) : Bool :=
  adjunct.isAdjunct && adjunct.outerCategory? .adjunct = head.phraseCategory?

theorem modifies_iff {adjunct head : Expression} : adjunct.modifies head ↔
    ∃ category, adjunct.outerCategory? .adjunct = some category ∧ head.phraseCategory? = some category := by
  rw [modifies, Bool.and_eq_true, isAdjunct, outerIs_iff, decide_eq_true_eq]
  constructor
  · rintro ⟨⟨category, hadjunct⟩, he⟩
    exact ⟨category, hadjunct, he ▸ hadjunct⟩
  · rintro ⟨category, hadjunct, hhead⟩
    exact ⟨⟨category, hadjunct⟩, hadjunct.trans hhead.symm⟩

end Expression

/-- Words whose adjuncts do not come between phrases: an adjunct feature stands first, and a head with arguments
is the only one whose phrases an adjunct can join if it can join them at all. -/
structure HasPlainAdjuncts (words : List Expression) : Prop where
  first : ∀ word ∈ words, ∀ f ∈ word.features.tail, f.kind ≠ .adjunct
  only_head : ∀ adjunct ∈ words, ∀ head ∈ words, adjunct.modifies head → head.outerIs .licensor →
    words.filter adjunct.modifies = [head]

theorem HasPlainAdjuncts.eq_head {entries : List ChartEntry}
    (h : HasPlainAdjuncts (entries.map (·.expression))) {adjunct head other : ChartEntry}
    (hadjunct : adjunct ∈ entries) (hhead : head ∈ entries) (hother : other ∈ entries)
    (hmodifies : adjunct.expression.modifies head.expression)
    (harguments : head.expression.outerIs .licensor)
    (hmodifies' : adjunct.expression.modifies other.expression) : other = head := by
  have honly := h.only_head _ (List.mem_map_of_mem hadjunct) _ (List.mem_map_of_mem hhead) hmodifies
    harguments
  rw [List.filter_map] at honly
  have hlength := congrArg List.length honly
  rw [List.length_map] at hlength
  obtain ⟨only, honly⟩ := List.length_eq_one_iff.mp hlength
  have hmem {e : ChartEntry} (he : e ∈ entries) (hm : adjunct.expression.modifies e.expression) :
      e = only := List.mem_singleton.mp (honly ▸ List.mem_filter.mpr ⟨he, hm⟩)
  rw [hmem hother hmodifies', hmem hhead hmodifies]

namespace ChartEntry

/-- An entry goes on from a phrase: it has the same features, and beside what went into the phrase or what the
phrase went into there are only adjuncts in it. -/
structure Continues (e phrase : ChartEntry) : Prop where
  features_eq : e.expression.features = phrase.expression.features
  mem_nodes : phrase ∈ e.nodes
  nodes : ∀ node ∈ e.nodes, node ∈ phrase.nodes ∨ phrase ∈ node.nodes ∨
    node.sources = [] ∧ ∃ category, node.expression.outerCategory? .adjunct = some category ∧
      phrase.expression.outerCategory? .licensee = some category

namespace Continues
variable {e phrase result : ChartEntry}

theorem refl (e : ChartEntry) : e.Continues e :=
  ⟨rfl, mem_nodes_self e, fun _ hnode => .inl hnode⟩

theorem outerCategory?_eq (h : e.Continues phrase) (kind : FeatureKind) :
    e.expression.outerCategory? kind = phrase.expression.outerCategory? kind := by
  rw [Expression.outerCategory?, Expression.outerCategory?, Expression.outer?, Expression.outer?,
    h.features_eq]

theorem of_applyUnary? {name : Text} {operator : UnaryOperator} {counters counters' : Counters}
    (h : e.Continues phrase) (hf : result.expression.features = e.expression.features)
    (hr : e.applyUnary? name operator counters = some (result, counters')) :
    result.Continues phrase := by
  have hnodes := nodes_of_applyUnary? hr
  have hphrase : phrase ∈ result.nodes := hnodes ▸ List.mem_cons_of_mem _ h.mem_nodes
  refine ⟨hf.trans h.features_eq, hphrase, fun node hnode => ?_⟩
  rw [hnodes] at hnode
  rcases List.mem_cons.mp hnode with rfl | hnode
  · exact .inr (.inl hphrase)
  · exact h.nodes node hnode

theorem of_adjunct {name : Text} {operator : BinaryOperator} {adjunct : ChartEntry}
    {counters counters' : Counters} (h : e.Continues phrase)
    (hf : result.expression.features = e.expression.features) (hsources : adjunct.sources = [])
    {category : Text} (houter : e.expression.outerCategory? .licensee = some category)
    (hadjunct : adjunct.expression.outerCategory? .adjunct = some category)
    (hr : e.applyBinary? name operator adjunct counters = some (result, counters')) :
    result.Continues phrase := by
  have hnodes := nodes_of_applyBinary? hr
  have hword : adjunct.nodes = [adjunct] := by
    rw [nodes_eq_cons, descendants, hsources, List.flatMap_nil]
  rw [hword] at hnodes
  have hphrase : phrase ∈ result.nodes :=
    hnodes ▸ List.mem_cons_of_mem _ (List.mem_append_left _ h.mem_nodes)
  refine ⟨hf.trans h.features_eq, hphrase, fun node hnode => ?_⟩
  rw [hnodes] at hnode
  rcases List.mem_cons.mp hnode with rfl | hnode
  · exact .inr (.inl hphrase)
  · rcases List.mem_append.mp hnode with hnode | hnode
    · exact h.nodes node hnode
    · obtain rfl := List.mem_singleton.mp hnode
      exact .inr (.inr ⟨hsources, category, hadjunct, h.outerCategory?_eq .licensee ▸ houter⟩)

end Continues

end ChartEntry

namespace Parsing
namespace Reachable
variable {setting : Setting} {tokens : List Text} {counters : Counters} {s : State}

theorem isHeaded (h : Reachable setting tokens counters s) :
    ∀ e ∈ s.chart.newestFirst, e.IsHeaded :=
  h.forall_chart (ChartEntry.isInherited_isHeaded setting.categories)

theorem hasPlainWords (h : Reachable setting tokens counters s)
    (hwords : HasPlainAdjuncts ((setting.entries tokens counters).map (·.expression))) :
    ∀ e ∈ s.chart.newestFirst, e.HasPlainWords :=
  fun _ he _ hleaf => hwords.first _ (List.mem_map_of_mem (h.isGrown.leaves_subset he hleaf))

/-- A host that is apart from a phrase with arguments is apart from what goes on from it. An adjunct of both
would modify the head of the phrase and a word of the host, while there is no such word beside the head. -/
theorem areApart_of_continues (h : Reachable setting tokens counters s)
    (hwords : HasPlainAdjuncts ((setting.entries tokens counters).map (·.expression)))
    {host phrase e : ChartEntry} (hhost : host ∈ s.chart.newestFirst)
    (hphrase : phrase ∈ s.chart.newestFirst) (he : e ∈ s.chart.newestFirst)
    (harguments : phrase.expression.arguments ≠ []) {category : Text}
    (houter : host.expression.outerCategory? .licensor = some category) (hapart : host.areApart phrase)
    (hcontinues : e.Continues phrase) : host.areApart e := by
  have hbuilt := h.isGrown.built
  have hdisciplined := hbuilt.isDisciplined
  rw [ChartEntry.areApart_iff_nodes (hdisciplined _ hhost) (hdisciplined _ hphrase)] at hapart
  rw [ChartEntry.areApart_iff_nodes (hdisciplined _ hhost) (hdisciplined _ he)]
  intro d hd d' hd' hid
  have hsame : d = d' := List.inj_on_of_nodup_map hbuilt.nodup_ids (hbuilt.nodes_subset _ hhost hd)
    (hbuilt.nodes_subset _ he hd') hid
  subst hsame
  rcases hcontinues.nodes d hd' with hnode | hnode | ⟨hword, adjunct, hadjunct, hcategory⟩
  · exact hapart d hd d hnode rfl
  · exact hapart phrase (ChartEntry.nodes_subset_of_mem_nodes hd hnode) phrase
      (ChartEntry.mem_nodes_self phrase) rfl
  · have hleaf : d ∈ host.leaves := List.mem_filter.mpr ⟨hd, List.isEmpty_iff.mpr hword⟩
    rcases (h.isHeaded _ hhost).modified d hleaf adjunct hadjunct with
      ⟨houter', -⟩ | ⟨other, hother, hmodified⟩
    · exact absurd (Expression.eq_of_outerCategory? houter houter').1 (by decide)
    · obtain ⟨head, hhead, hmodified', hlicensor⟩ := (h.isHeaded _ hphrase).exists_phraseCategory hcategory
      have hsub := h.isGrown.leaves_subset hhost
      have hsame : other = head := hwords.eq_head (hsub hleaf) (h.isGrown.leaves_subset hphrase hhead)
        (hsub hother) (Expression.modifies_iff.mpr ⟨adjunct, hadjunct, hmodified'⟩)
        (hlicensor harguments) (Expression.modifies_iff.mpr ⟨adjunct, hadjunct, hmodified⟩)
      exact hapart other (List.mem_filter.mp hother).1 head (List.mem_filter.mp hhead).1 (congrArg _ hsame)

end Reachable
end Parsing
end MinimalistGrammar
