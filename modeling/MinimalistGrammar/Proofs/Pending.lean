import MinimalistGrammar.Proofs.Attached
import MinimalistGrammar.Proofs.Continuation

/-! Arguments that wait to be spelled out. A merge takes the meaning of a child and a phrase takes those of its
adjuncts, but neither looks at the arguments of what it takes. Nothing is lost as long as whatever is attached is
spelled out before. The search sees to that by its priorities, but only if no word is in the way: an adjunct that
takes arguments or that goes from one phrase of its category to another can keep an entry that is spelled out
apart from the host for which it was meant. -/
namespace MinimalistGrammar

namespace Expression

/-- What may be attached: it has no arguments that wait, it will not turn into an adjunct, and if it is one
nothing is attached to it. -/
structure IsSpelledOut (e : Expression) : Prop where
  arguments_eq : e.arguments = []
  adjunct_first : ∀ f ∈ e.features.tail, f.kind ≠ .adjunct
  children_eq : e.isAdjunct → e.children = []

theorem IsSpelledOut.of_features {child : Expression} {f : Feature} {rest : List Feature}
    (hf : child.features = f :: rest) (h : child.IsSpelledOut) :
    { child with features := rest }.IsSpelledOut := by
  have hfirst : ∀ g ∈ rest, g.kind ≠ .adjunct := by simpa [hf] using h.adjunct_first
  refine ⟨h.arguments_eq, fun g hg => hfirst g (List.mem_of_mem_tail hg), fun hadjunct => ?_⟩
  obtain ⟨category, houter⟩ := outerIs_iff.mp hadjunct
  obtain ⟨features, houter⟩ := outerCategory?_eq_some_iff.mp houter
  have hmem : ⟨.adjunct, category⟩ ∈ rest := List.mem_of_mem_head? (congrArg List.head? houter)
  exact absurd rfl (hfirst _ hmem)

def IsPending (e : Expression) : Prop :=
  e.arguments ≠ [] ∧ ∃ category, e.outerCategory? .licensee = some category

theorem isSome_spellOut? (categories : PhraseCategories) (index : Int) {e : Expression}
    (h : e.arguments.length = 2 ∨ e.IsPending ∧ e.arguments.length ≤ 2) :
    (e.spellOut? categories index).isSome := by
  unfold spellOut?
  rcases h with hlength | ⟨⟨harguments, category, houter⟩, hlength⟩
  · obtain ⟨ext, int, ha⟩ := List.length_eq_two.mp hlength
    rw [ha]
    rfl
  · have hpos := List.length_pos_iff.mpr harguments
    rw [houter]
    rcases (by omega : e.arguments.length = 1 ∨ e.arguments.length = 2) with hlength | hlength
    · obtain ⟨argument, ha⟩ := List.length_eq_one_iff.mp hlength
      rw [ha]
      rfl
    · obtain ⟨ext, int, ha⟩ := List.length_eq_two.mp hlength
      rw [ha]
      rfl

end Expression

namespace ChartEntry

theorem of_spellout_eq_none {categories : PhraseCategories} {e : ChartEntry} {counters : Counters}
    (hdisciplined : e.IsDisciplined) (hlength : e.expression.arguments.length ≤ 2)
    (h : e.applyUnary? "spellout" (Expression.spellOut? categories) counters = none) :
    ¬e.expression.IsPending ∧ e.expression.arguments.length ≤ 1 := by
  rw [applyUnary?, if_neg hdisciplined.id_not_mem_retired, Option.map_eq_none_iff] at h
  have hstuck (hsome : (e.expression.spellOut? categories counters.nextIndex).isSome) : False := by
    rw [h] at hsome
    cases hsome
  constructor
  · exact fun hpending => hstuck (Expression.isSome_spellOut? _ _ (.inr ⟨hpending, hlength⟩))
  · by_contra hmore
    exact hstuck (Expression.isSome_spellOut? _ _ (.inl (by omega)))

theorem IsHeaded.isSpelledOut_of_adjunct {e : ChartEntry} (h : e.IsHeaded) (hplain : e.HasPlainWords)
    {category : Text} (houter : e.expression.outerCategory? .adjunct = some category) :
    e.expression.IsSpelledOut := by
  obtain ⟨-, harguments, hchildren⟩ := h.adjunct hplain category houter
  exact ⟨harguments, h.tail_features hplain, fun _ => hchildren⟩

theorem IsHeaded.isSpelledOut_of_not_isPending {e : ChartEntry} (h : e.IsHeaded) (hplain : e.HasPlainWords)
    {category : Text} (houter : e.expression.outerCategory? .licensee = some category)
    (hpending : ¬e.expression.IsPending) : e.expression.IsSpelledOut := by
  refine ⟨by_contra fun harguments => hpending ⟨harguments, category, houter⟩, h.tail_features hplain, ?_⟩
  intro hadjunct
  obtain ⟨adjunct, hadjunct⟩ := Expression.outerIs_iff.mp hadjunct
  exact absurd (Expression.eq_of_outerCategory? houter hadjunct).1 (by decide)

def isMerged (entry : ChartEntry) : Bool :=
  entry.operator? = some "merge_comp" || entry.operator? = some "merge_spec"

def discharged (entry : ChartEntry) : List Expression :=
  if entry.isMerged then
    entry.sources.flatMap fun source => source.expression.children.filter fun child =>
      (source.expression.outerCategory? .licensor).any (Expression.isFinal · child)
  else []

def absorbed (entry : ChartEntry) : List Expression :=
  if entry.operator? = some "spellout" then
    entry.sources.flatMap fun source => source.expression.children.filter Expression.isAdjunct
  else []

theorem absorbed_of_spellout {entry source : ChartEntry} (hsources : entry.sources = [source])
    (hoperator : entry.operator? = some ("spellout" : Text)) :
    entry.absorbed = source.expression.children.filter Expression.isAdjunct := by
  simp [absorbed, hsources, hoperator]

theorem absorbed_eq_nil {entry : ChartEntry} (h : entry.operator? ≠ some ("spellout" : Text)) :
    entry.absorbed = [] := if_neg h

theorem exists_source_of_mem_discharged {entry : ChartEntry} {child : Expression}
    (h : child ∈ entry.discharged) : ∃ source ∈ entry.sources, child ∈ source.expression.children := by
  unfold discharged at h
  split at h
  · obtain ⟨source, hs, hc⟩ := List.mem_flatMap.mp h
    exact ⟨source, hs, (List.mem_filter.mp hc).1⟩
  · cases h

theorem exists_source_of_mem_absorbed {entry : ChartEntry} {adjunct : Expression}
    (h : adjunct ∈ entry.absorbed) :
    ∃ source ∈ entry.sources, adjunct ∈ source.expression.children ∧ adjunct.isAdjunct := by
  unfold absorbed at h
  split at h
  · obtain ⟨source, hs, hc⟩ := List.mem_flatMap.mp h
    exact ⟨source, hs, List.mem_filter.mp hc⟩
  · cases h

theorem isInherited_discharged (categories : PhraseCategories) :
    IsInherited categories fun e => e.isMerged → ∃ child, e.discharged = [child] := by
  constructor
  · exact fun _ _ hmerged => nomatch hmerged
  · intro name operator entry result counters counters' hop _ hr hmerged
    obtain ⟨-, expression, nextIndex, he, rfl, -⟩ := applyUnary?_eq_some_iff.mp hr
    have hname : name = "merge_comp" ∨ name = "merge_spec" := by simpa [isMerged] using hmerged
    obtain ⟨token?, hmerge⟩ := Operation.mergeFinal?_of_unary hop hname he
    obtain ⟨category, features, child, hf, hc, -⟩ := Expression.mergeFinal?_eq_some_iff.mp hmerge
    refine ⟨child, ?_⟩
    rw [discharged, if_pos hmerged, List.flatMap_singleton,
      Expression.outerCategory?_eq_some_iff.mpr ⟨features, hf⟩]
    exact hc
  · intro name operator first second result counters counters' hop _ _ hr hmerged
    obtain ⟨-, expression, -, rfl, -⟩ := applyBinary?_eq_some_iff.mp hr
    have hname : name = "merge_comp" ∨ name = "merge_spec" := by simpa [isMerged] using hmerged
    rcases Operation.mem_binary_iff.mp hop with ⟨rfl, -⟩ | ⟨rfl, -⟩ <;> exact absurd hname (by decide)

end ChartEntry

namespace Parsing

namespace State

/-- In a state of the search, no expression has more than two arguments, all that is attached was spelled out
before, and a phrase with arguments is in focus, or what goes on from it is, or it was spelled out. -/
structure IsSettled (s : State) : Prop where
  length_arguments : ∀ e ∈ s.chart.newestFirst, e.expression.arguments.length ≤ 2
  allAttached : ∀ e ∈ s.chart.newestFirst, e.expression.AllAttached Expression.IsSpelledOut
  continued : ∀ e ∈ s.chart.newestFirst, e.expression.IsPending →
    (∃ f, s.focus? = some f ∧ f.expression.IsPending ∧ f.Continues e) ∨
      ∃ y ∈ s.chart.newestFirst, y.expression.arguments = [] ∧ y.Continues e

end State

section
variable {setting : Setting} {tokens : List Text} {counters : Counters} {s : State}

/-- The newest entry that can be inserted into the one in focus is no phrase with arguments, for it was spelled
out in the meantime and what was made of it is newer. -/
theorem Reachable.not_isPending_of_insert (h : Reachable setting tokens counters s)
    (hwords : HasPlainAdjuncts ((setting.entries tokens counters).map (·.expression))) (hs : s.IsSettled)
    {host phrase : ChartEntry} {newer older : List ChartEntry} {category : Text}
    (hfocus : s.focus? = some host) (houter : host.expression.outerCategory? .licensor = some category)
    (houter' : phrase.expression.outerCategory? .licensee = some category) (hapart : host.areApart phrase)
    (hchart : s.chart.newestFirst = newer ++ phrase :: older)
    (hnewer : ∀ e ∈ newer, host.applyBinary? "insert" Expression.insert? e s.counters = none) :
    ¬phrase.expression.IsPending := by
  intro hpending
  have hphrase : phrase ∈ s.chart.newestFirst := hchart ▸ List.mem_append_right _ List.mem_cons_self
  rcases hs.continued phrase hphrase hpending with ⟨f, hf, ⟨-, category', houterf⟩, -⟩ | ⟨e, he, ha, hcontinues⟩
  · obtain rfl := Option.some.inj (hfocus.symm.trans hf)
    exact absurd (Expression.eq_of_outerCategory? houter houterf).1 (by decide)
  · -- the phrase went into what was spelled out, which so has the greater id and stands before it
    have hne : e ≠ phrase := fun heq => hpending.1 (heq ▸ ha)
    have hdescendant := (ChartEntry.mem_nodes_iff.mp hcontinues.mem_nodes).resolve_left (Ne.symm hne)
    have hdisciplined := h.isGrown.built.isDisciplined e he
    have hid : phrase.id < e.id :=
      hdisciplined.lt_id _ ((hdisciplined.mem_retired_iff _).mpr ⟨phrase, hdescendant, rfl⟩)
    have hmem : e ∈ newer := by
      have hsorted := h.pairwise_newestFirst
      rw [hchart] at he hsorted
      rcases List.mem_append.mp he with he | he
      · exact he
      · have holder := List.rel_of_pairwise_cons (List.pairwise_append.mp hsorted).2.1
          ((List.mem_cons.mp he).resolve_left hne)
        omega
    have hexpression : Expression.insert? host.expression e.expression =
        some (Expression.attach host.expression e.expression) :=
      if_pos (Expression.outersMatch_iff.mpr
        ⟨category, houter, (hcontinues.outerCategory?_eq .licensee).trans houter'⟩)
    have hapart' := h.areApart_of_continues hwords (h.isGrown.focus_mem _ hfocus) hphrase he hpending.1 houter
      hapart hcontinues
    have hnone := hnewer e hmem
    rw [ChartEntry.applyBinary?, hexpression] at hnone
    dsimp only at hnone
    rw [if_pos hapart'] at hnone
    cases hnone

structure Settles (entry result : ChartEntry) : Prop where
  length_arguments : result.expression.arguments.length ≤ 2
  allAttached : result.expression.AllAttached Expression.IsSpelledOut
  continues : ∀ phrase, entry.expression.IsPending → entry.Continues phrase →
    (result.expression.IsPending ∨ result.expression.arguments = []) ∧ result.Continues phrase

section
variable {entry result : ChartEntry} {counters' : Counters} (h : Reachable setting tokens counters s)
  (hwords : HasPlainAdjuncts ((setting.entries tokens counters).map (·.expression))) (hs : s.IsSettled)
  (hfocus : s.focus? = some entry)
include h hs hfocus

theorem Reachable.settles_of_spellout
    (hr : entry.applyUnary? "spellout" (Expression.spellOut? setting.categories) s.counters =
      some (result, counters')) : Settles entry result := by
  have hentry := h.isGrown.focus_mem _ hfocus
  have hunary := hr
  obtain ⟨-, expression, nextIndex, he, rfl, -⟩ := ChartEntry.applyUnary?_eq_some_iff.mp hr
  obtain ⟨-, -, hf, ha, -⟩ := Expression.of_spellOut? he
  constructor
  · simp [ha]
  · exact (hs.allAttached _ hentry).of_unary (fun _ _ _ hf _ hp => hp.of_features hf) List.mem_cons_self he
  · exact fun phrase _ hcontinues => ⟨.inr ha, hcontinues.of_applyUnary? hf hunary⟩

theorem Reachable.settles_of_merge {name : Text} {operator : UnaryOperator}
    (hop : (name, operator) ∈ Operation.unary setting.categories)
    (hspellout : entry.applyUnary? "spellout" (Expression.spellOut? setting.categories) s.counters = none)
    (hr : entry.applyUnary? name operator s.counters = some (result, counters')) :
    Settles entry result := by
  have hentry := h.isGrown.focus_mem _ hfocus
  obtain ⟨hpending, hlength⟩ := ChartEntry.of_spellout_eq_none (h.isGrown.built.isDisciplined _ hentry)
    (hs.length_arguments _ hentry) hspellout
  obtain ⟨-, expression, nextIndex, he, rfl, -⟩ := ChartEntry.applyUnary?_eq_some_iff.mp hr
  constructor
  · rcases Operation.features_of_unary hop he with ⟨-, -, ha⟩ | ⟨category, -, ha⟩
    · simp [ha]
    · dsimp only
      omega
  · exact (hs.allAttached _ hentry).of_unary (fun _ _ _ hf _ hp => hp.of_features hf) hop he
  · exact fun phrase hp => absurd hp hpending

include hwords

theorem Reachable.settles_of_adjunct {other : ChartEntry} (hother : other ∈ s.chart.newestFirst)
    (hr : entry.applyBinary? "insert_adjunct" Expression.insertAdjunct? other s.counters =
      some (result, counters')) : Settles entry result := by
  have hentry := h.isGrown.focus_mem _ hfocus
  have hbinary := hr
  have hword {e : ChartEntry} (he : e ∈ s.chart.newestFirst) {category : Text}
      (houter : e.expression.outerCategory? .adjunct = some category) : e.expression.IsSpelledOut :=
    (h.isHeaded e he).isSpelledOut_of_adjunct (h.hasPlainWords hwords e he) houter
  obtain ⟨-, expression, he, rfl, -⟩ := ChartEntry.applyBinary?_eq_some_iff.mp hr
  rcases Expression.of_attachBy? he with ⟨category, houter, hadjunct, rfl⟩ | ⟨category, houter, hadjunct, rfl⟩
  · have hsources := ((h.isHeaded other hother).adjunct (h.hasPlainWords hwords other hother) _ hadjunct).1
    constructor
    · exact hs.length_arguments entry hentry
    · exact (hs.allAttached _ hentry).attach (hs.allAttached _ hother) (hword hother hadjunct)
    · intro phrase hpending hcontinues
      exact ⟨.inl hpending, hcontinues.of_adjunct rfl hsources houter hadjunct hbinary⟩
  · constructor
    · exact hs.length_arguments other hother
    · exact (hs.allAttached _ hother).attach (hs.allAttached _ hentry) (hword hentry hadjunct)
    · rintro phrase ⟨-, category', hlicensee⟩ -
      exact absurd (Expression.eq_of_outerCategory? hadjunct hlicensee).1 (by decide)

theorem Reachable.settles_of_insert {other : ChartEntry} {newer older : List ChartEntry}
    (hspellout : entry.applyUnary? "spellout" (Expression.spellOut? setting.categories) s.counters = none)
    (hchart : s.chart.newestFirst = newer ++ other :: older)
    (hnewer : ∀ e ∈ newer, entry.applyBinary? "insert" Expression.insert? e s.counters = none)
    (hr : entry.applyBinary? "insert" Expression.insert? other s.counters = some (result, counters')) :
    Settles entry result := by
  have hentry := h.isGrown.focus_mem _ hfocus
  have hother : other ∈ s.chart.newestFirst := hchart ▸ List.mem_append_right _ List.mem_cons_self
  obtain ⟨hpending, -⟩ := ChartEntry.of_spellout_eq_none (h.isGrown.built.isDisciplined _ hentry)
    (hs.length_arguments _ hentry) hspellout
  have hphrase {e : ChartEntry} (he : e ∈ s.chart.newestFirst) {category : Text}
      (houter : e.expression.outerCategory? .licensee = some category)
      (hpending : ¬e.expression.IsPending) : e.expression.IsSpelledOut :=
    (h.isHeaded e he).isSpelledOut_of_not_isPending (h.hasPlainWords hwords e he) houter hpending
  obtain ⟨hapart, expression, he, rfl, -⟩ := ChartEntry.applyBinary?_eq_some_iff.mp hr
  rcases Expression.of_attachBy? he with ⟨category, houter, houter', rfl⟩ | ⟨category, houter, houter', rfl⟩
  · have hother' := h.not_isPending_of_insert hwords hs hfocus houter houter' hapart hchart hnewer
    constructor
    · exact hs.length_arguments entry hentry
    · exact (hs.allAttached _ hentry).attach (hs.allAttached _ hother) (hphrase hother houter' hother')
    · exact fun phrase hp => absurd hp hpending
  · constructor
    · exact hs.length_arguments other hother
    · exact (hs.allAttached _ hother).attach (hs.allAttached _ hentry) (hphrase hentry houter' hpending)
    · exact fun phrase hp => absurd hp hpending

theorem Reachable.settles_of_chooses
    (hr : entry.Chooses setting.categories s.chart s.counters result counters') : Settles entry result := by
  cases hr with
  | adjunct hother hr => exact h.settles_of_adjunct hwords hs hfocus hother hr
  | spellout hr => exact h.settles_of_spellout hs hfocus hr
  | merge hop hspellout hr => exact h.settles_of_merge hs hfocus hop hspellout hr
  | insert hspellout hchart hnewer hr => exact h.settles_of_insert hwords hs hfocus hspellout hchart hnewer hr

end

theorem State.IsSettled.of_settles {s' : State} {entry result : ChartEntry} (hs : s.IsSettled)
    (hfocus : s.focus? = some entry) (hr : Settles entry result)
    (hchart : s'.chart.newestFirst = result :: s.chart.newestFirst) (hfocus' : s'.focus? = some result) :
    s'.IsSettled := by
  constructor
  · rw [hchart]
    exact List.forall_mem_cons.mpr ⟨hr.length_arguments, hs.length_arguments⟩
  · rw [hchart]
    exact List.forall_mem_cons.mpr ⟨hr.allAttached, hs.allAttached⟩
  · rw [hchart]
    refine List.forall_mem_cons.mpr ⟨fun hpending => ?_, fun e he hpending => ?_⟩
    · exact .inl ⟨result, hfocus', hpending, .refl result⟩
    · rcases hs.continued e he hpending with ⟨f, hf, hfpending, hcontinues⟩ | ⟨y, hy, ha, hcontinues⟩
      · obtain rfl := Option.some.inj (hfocus.symm.trans hf)
        obtain ⟨hresult | hresult, hcontinues⟩ := hr.continues e hfpending hcontinues
        · exact .inl ⟨result, hfocus', hresult, hcontinues⟩
        · exact .inr ⟨result, List.mem_cons_self, hresult, hcontinues⟩
      · exact .inr ⟨y, List.mem_cons_of_mem result hy, ha, hcontinues⟩

/-- The focus goes from an entry that is no phrase with arguments to another one or to none. -/
theorem State.IsSettled.of_focus {s' : State} (hs : s.IsSettled)
    (hfocus : ∀ f, s.focus? = some f → ¬f.expression.IsPending) (hchart : s'.chart = s.chart) :
    s'.IsSettled := by
  constructor
  · exact hchart ▸ hs.length_arguments
  · exact hchart ▸ hs.allAttached
  · rw [hchart]
    intro e he hpending
    rcases hs.continued e he hpending with ⟨f, hf, hfpending, -⟩ | hspelled
    · exact absurd hfpending (hfocus f hf)
    · exact .inr hspelled

theorem Setting.isSettled_initial : (setting.initial tokens counters).IsSettled := by
  have hlexical : ∀ e ∈ (setting.initial tokens counters).chart.newestFirst,
      e.expression.arguments = [] ∧ e.expression.AllAttached Expression.IsSpelledOut := by
    rw [setting.chart_initial]
    intro e he
    obtain ⟨⟨item, k⟩, -, rfl⟩ := List.mem_map.mp (List.mem_reverse.mp he)
    exact ⟨rfl, .ofItem item⟩
  constructor
  · exact fun e he => (hlexical e he).1 ▸ Nat.zero_le 2
  · exact fun e he => (hlexical e he).2
  · exact fun e he hpending => absurd (hlexical e he).1 hpending.1

theorem Reachable.isSettled (h : Reachable setting tokens counters s)
    (hwords : HasPlainAdjuncts ((setting.entries tokens counters).map (·.expression))) : s.IsSettled := by
  induction h with
  | initial => exact Setting.isSettled_initial
  | @step s h hs ih =>
    cases hf : s.focus? with
    | none =>
      cases ha : s.agenda with
      | nil => simp [State.isFinal, hf, ha] at hs
      | cons entry agenda =>
        rw [State.step_of_agenda hf ha]
        exact ih.of_focus (fun f hsome => absurd (hf.symm.trans hsome) (Option.some_ne_none f).symm) rfl
    | some entry =>
      have hentry := h.isGrown.focus_mem entry hf
      cases hd : entry.derive? setting.categories s.chart s.counters with
      | none =>
        -- a phrase with arguments is never put down, since it can be spelled out
        rw [State.step_of_derive?_eq_none hf hd]
        refine ih.of_focus (fun f hsome => ?_) rfl
        obtain rfl := Option.some.inj (hf.symm.trans hsome)
        exact (ChartEntry.of_spellout_eq_none (h.isGrown.built.isDisciplined _ hentry)
          (ih.length_arguments _ hentry) (ChartEntry.spellout_eq_none_of_derive? hd)).1
      | some made =>
        obtain ⟨result, counters'⟩ := made
        have hmem := (ChartEntry.combines_of_derive? hd).not_mem h.isGrown.built.id_lt
        rw [State.step_of_derive?_eq_some hf hd, State.enter_of_not_mem hmem]
        exact ih.of_settles hf (h.settles_of_chooses hwords ih hf (ChartEntry.chooses_of_derive? hd)) rfl rfl

/-- Nothing is lost: a child that is merged for the last time has no arguments that wait, and an adjunct that is
spelled out with its phrase has none either and nothing attached to it. -/
theorem Reachable.arguments_eq_nil (h : Reachable setting tokens counters s)
    (hwords : HasPlainAdjuncts ((itemsOf setting.grammar tokens).map .ofItem)) :
    ∀ e ∈ s.chart.newestFirst,
      (e.isMerged → ∃ child, e.discharged = [child] ∧ child.arguments = []) ∧
      ∀ adjunct ∈ e.absorbed, adjunct.arguments = [] ∧ adjunct.children = [] := by
  rw [← expressions_lexicalEntries counters.nextId] at hwords
  intro e he
  have hattached : ∀ source ∈ e.sources, ∀ child ∈ source.expression.children, child.IsSpelledOut := by
    intro source hs child hc
    have hnode : source ∈ e.nodes := ChartEntry.mem_nodes_iff.mpr
      (.inr (ChartEntry.mem_descendants_iff.mpr ⟨source, hs, ChartEntry.mem_nodes_self source⟩))
    have hsource := h.isGrown.built.nodes_subset e he hnode
    exact (((h.isSettled hwords).allAttached source hsource).forall_children child hc).1
  constructor
  · intro hmerged
    obtain ⟨child, hdischarged⟩ := h.forall_chart (ChartEntry.isInherited_discharged _) e he hmerged
    have hmem : child ∈ e.discharged := hdischarged ▸ List.mem_singleton_self child
    obtain ⟨source, hs, hc⟩ := ChartEntry.exists_source_of_mem_discharged hmem
    exact ⟨child, hdischarged, (hattached source hs child hc).arguments_eq⟩
  · intro adjunct hmem
    obtain ⟨source, hs, hc, hadjunct⟩ := ChartEntry.exists_source_of_mem_absorbed hmem
    have hspelled := hattached source hs adjunct hc
    exact ⟨hspelled.arguments_eq, hspelled.children_eq hadjunct⟩

/-- A quantifier phrase with an adjunct of its noun, and an adjunct of the clause. -/
theorem Reachable.arguments_eq_nil_two_adjuncts :
    let setting : Setting := ⟨⟨[⟨"every", [⟨.licensor, "n"⟩, ⟨.licensee, "d"⟩], .quantifier "every"⟩,
      ⟨"girl", [⟨.licensee, "n"⟩], .const "girl"⟩, ⟨"tall", [⟨.adjunct, "n"⟩], .const "tall"⟩,
      ⟨"sleeps", [⟨.licensor, "d"⟩, ⟨.licensee, "c"⟩], .const "sleep"⟩,
      ⟨"well", [⟨.adjunct, "c"⟩], .const "well"⟩], .ofList ["c"]⟩, {}⟩
    let tokens := tokenize "every tall girl sleeps well"
    let chart := (setting.search tokens {}).chart.newestFirst
    HasPlainAdjuncts ((itemsOf setting.grammar tokens).map .ofItem) ∧
      (∃ e ∈ chart, e.isMerged) ∧ (∃ e ∈ chart, e.absorbed ≠ []) ∧
      ∀ e ∈ chart, (e.isMerged → ∃ child, e.discharged = [child] ∧ child.arguments = []) ∧
        ∀ adjunct ∈ e.absorbed, adjunct.arguments = [] ∧ adjunct.children = [] := by
  intro setting tokens chart
  have hwords : HasPlainAdjuncts ((itemsOf setting.grammar tokens).map .ofItem) :=
    ⟨by decide +kernel, by decide +kernel⟩
  refine ⟨hwords, by decide +kernel, by decide +kernel, ?_⟩
  exact (Reachable.search setting tokens {}).arguments_eq_nil hwords

/-- Two searches that lose something. In the first an adjunct that joined one phrase keeps the spelled-out form
of another one from its host, which takes that phrase with its argument waiting; in the second an adjunct is
spelled out with an argument of its own waiting. -/
theorem exists_arguments_ne_nil :
    let saw : Setting := ⟨⟨[⟨"saw", [⟨.licensor, "a"⟩, ⟨.licensor, "d"⟩, ⟨.licensor, "d"⟩, ⟨.licensee, "c"⟩],
      .const "saw"⟩, ⟨"a", [⟨.licensee, "a"⟩], .const "a"⟩, ⟨"he", [⟨.licensee, "d"⟩], .const "he"⟩,
      ⟨"the", [⟨.licensor, "n"⟩, ⟨.licensee, "d"⟩], .const "the"⟩,
      ⟨"book", [⟨.licensee, "n"⟩], .const "book"⟩, ⟨"red", [⟨.adjunct, "d"⟩], .const "red"⟩],
      .ofList ["c"]⟩, {}⟩
    let slept : Setting := ⟨⟨[⟨"did", [⟨.licensor, "p"⟩, ⟨.licensee, "c"⟩], .const "did"⟩,
      ⟨"slept", [⟨.licensor, "d"⟩, ⟨.licensee, "p"⟩], .const "slept"⟩,
      ⟨"man", [⟨.licensee, "d"⟩], .const "man"⟩,
      ⟨"with", [⟨.licensor, "n"⟩, ⟨.adjunct, "d"⟩], .const "with"⟩,
      ⟨"hat", [⟨.licensee, "n"⟩], .const "hat"⟩], .ofList ["c"]⟩, {}⟩
    (∃ s, Reachable saw (tokenize "saw a he the book red") {} s ∧
      ∃ e ∈ s.chart.newestFirst, ∃ child ∈ e.discharged, child.arguments ≠ []) ∧
    ∃ s, Reachable slept (tokenize "did slept man with hat") {} s ∧
      ∃ e ∈ s.chart.newestFirst, ∃ adjunct ∈ e.absorbed, adjunct.arguments ≠ [] := by
  intro saw slept
  constructor
  · exact ⟨_, .search saw _ {}, by decide +kernel⟩
  · exact ⟨_, .search slept _ {}, by decide +kernel⟩

end

end Parsing
end MinimalistGrammar
