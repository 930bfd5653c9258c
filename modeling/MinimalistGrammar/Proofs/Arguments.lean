import MinimalistGrammar.Proofs.Adjuncts
import MinimalistGrammar.Proofs.Consumption
import MinimalistGrammar.Proofs.Pending

/-! The number of arguments that wait. A merge adds one argument, and whatever has two is spelled out before it
could be merged, so that nothing in a chart has more than two. What is accepted is a licensee, and so with one
argument or with two it can be spelled out in the end. -/
namespace MinimalistGrammar

namespace Expression

/-- What a licensee says and means with its arguments, one rule for each kind of phrase. A clause is pronounced as the
argument that it took first, and a phrase that is closed over events means nothing of its external one. -/
inductive IsPhrase (categories : PhraseCategories) (index : Int) (category : Text) (head : Expression) :
    List Argument → List Text → Formula → Prop where
  | clause {argument : Argument} (hclause : category = categories.clause) :
      IsPhrase categories index category head [argument] [argument.token] argument.meaning
  | verb {argument : Argument} (hclause : category ≠ categories.clause) (hverb : category = categories.verb) :
      IsPhrase categories index category head [argument] [argument.token, head.phon]
        (.and head.meaning (.external argument.meaning))
  | quantifier {argument : Argument} (hclause : category ≠ categories.clause) (hverb : category ≠ categories.verb)
      (hquantifier : head.meaning.isQuantificational) :
      IsPhrase categories index category head [argument] [head.phon, argument.token]
        (.and head.meaning (.indexed index argument.meaning))
  | modifier {argument : Argument} (hclause : category ≠ categories.clause) (hverb : category ≠ categories.verb)
      (hquantifier : ¬head.meaning.isQuantificational) :
      IsPhrase categories index category head [argument] [head.phon, argument.token]
        (.and head.meaning argument.meaning)
  | clauseOfTwo {ext int : Argument} (hclause : category = categories.clause) :
      IsPhrase categories index category head [ext, int] [int.token] (.and ext.meaning int.meaning)
  | verbOfTwo {ext int : Argument} (hclause : category ≠ categories.clause) (hverb : category = categories.verb) :
      IsPhrase categories index category head [ext, int] [ext.token, head.phon, int.token]
        (.and head.meaning (.and (.internal int.meaning) (.external ext.meaning)))
  | closed {ext int : Argument} (hclause : category ≠ categories.clause) (hverb : category ≠ categories.verb) :
      IsPhrase categories index category head [ext, int] [ext.token, head.phon, int.token]
        (.close (.and head.meaning int.meaning))

/-- The result says and means what its arguments and then its adjuncts make of the head, and has neither any more. The
meanings of adjuncts do not reach a phrase that is closed over events. -/
def IsPhrasedFrom (categories : PhraseCategories) (index : Int) (category : Text) (result head : Expression) : Prop :=
  ∃ (words : List Text) (meaning : Formula),
    IsPhrase categories index category head head.arguments words meaning ∧
      result = { head with
        phon := Text.join " " (words ++ head.adjuncts.map (·.phon))
        meaning := if head.isClosing categories then meaning
          else head.adjuncts.foldr (fun a f => .and a.meaning f) meaning
        arguments := []
        children := head.children.filter (!·.isAdjunct) }

section Phrases
variable (categories : PhraseCategories) (index : Int) (category : Text) (head : Expression)

theorem isPhrase_phraseOfOne (argument : Argument) :
    let phrase := (phraseOfOne categories index head category argument).1
    IsPhrase categories index category head [argument] phrase.words phrase.meaning := by
  intro phrase
  by_cases hclause : category = categories.clause
  · have hphrase : phrase = ⟨[argument.token], argument.meaning⟩ := by simp [phrase, phraseOfOne, hclause]
    rw [hphrase]
    exact .clause hclause
  by_cases hverb : category = categories.verb
  · have hphrase : phrase = ⟨[argument.token, head.phon], .and head.meaning (.external argument.meaning)⟩ := by
      simp only [phrase, phraseOfOne, if_neg hclause, if_pos hverb]
    rw [hphrase]
    exact .verb hclause hverb
  by_cases hquantifier : head.meaning.isQuantificational
  · have hphrase : phrase = ⟨[head.phon, argument.token], .and head.meaning (.indexed index argument.meaning)⟩ := by
      simp only [phrase, phraseOfOne, if_neg hclause, if_neg hverb, if_pos hquantifier]
    rw [hphrase]
    exact .quantifier hclause hverb hquantifier
  · have hphrase : phrase = ⟨[head.phon, argument.token], .and head.meaning argument.meaning⟩ := by
      simp only [phrase, phraseOfOne, if_neg hclause, if_neg hverb, if_neg hquantifier]
    rw [hphrase]
    exact .modifier hclause hverb hquantifier

theorem isPhrase_phraseOfTwo (ext int : Argument) :
    let phrase := phraseOfTwo categories [] head (some category) ext int
    IsPhrase categories index category head [ext, int] phrase.words phrase.meaning := by
  intro phrase
  by_cases hclause : category = categories.clause
  · have hphrase : phrase = ⟨[int.token], .and ext.meaning int.meaning⟩ := by
      simp [phrase, phraseOfTwo, hclause, conjoin]
    rw [hphrase]
    exact .clauseOfTwo hclause
  by_cases hverb : category = categories.verb
  · have hphrase : phrase = ⟨[ext.token, head.phon, int.token],
        .and head.meaning (.and (.internal int.meaning) (.external ext.meaning))⟩ := by
      simp only [phrase, phraseOfTwo, Option.some.injEq, if_neg hclause, if_pos hverb, conjoin, List.foldr_nil]
    rw [hphrase]
    exact .verbOfTwo hclause hverb
  · have hphrase : phrase = ⟨[ext.token, head.phon, int.token], .close (.and head.meaning int.meaning)⟩ := by
      simp only [phrase, phraseOfTwo, Option.some.injEq, if_neg hclause, if_neg hverb]
    rw [hphrase]
    exact .closed hclause hverb

end Phrases

theorem isPhrasedFrom_of_spellOut? {categories : PhraseCategories} {index next : Int} {category : Text}
    {head result : Expression} (hcategory : head.outerCategory? .licensee = some category)
    (h : head.spellOut? categories index = some (result, next)) :
    IsPhrasedFrom categories index category result head := by
  unfold spellOut? at h
  split at h
  · next argument category' harguments houter =>
    obtain rfl : category' = category := Option.some.inj (houter.symm.trans hcategory)
    have hopen : head.isClosing categories = false := by simp [isClosing, harguments]
    cases h
    refine ⟨_, _, harguments ▸ isPhrase_phraseOfOne categories index category' head argument, ?_⟩
    rw [hopen]
    rfl
  · next ext int harguments =>
    have hclosing : head.isClosing categories = (some category).all fun category =>
        category ≠ categories.clause && category ≠ categories.verb := by
      simp [isClosing, harguments, hcategory]
    have hmeaning := meaning_phraseOfTwo_eq categories head.adjuncts head (some category) ext int
    have hwords := words_phraseOfTwo_eq categories head.adjuncts head (some category) ext int
    rw [hcategory] at h
    cases h
    refine ⟨_, _, harguments ▸ isPhrase_phraseOfTwo categories index category head ext int, ?_⟩
    rw [← hwords, hclosing]
    exact (Expression.mk.injEq ..).mpr ⟨rfl, rfl, rfl, hmeaning, rfl, rfl⟩
  · cases h

end Expression

theorem Expression.length_arguments_of_attachBy? {bound : Nat} {host child : FeatureKind}
    {a b result : Expression} (h : attachBy? host child a b = some result)
    (ha : a.arguments.length ≤ bound) (hb : b.arguments.length ≤ bound) :
    result.arguments.length ≤ bound := by
  rcases eq_attach_of_attachBy? h with rfl | rfl
  · exact ha
  · exact hb

/-- Two arguments never become three: an entry with two of them is spelled out before a merge is tried. -/
theorem ChartEntry.Chooses.length_arguments_le {categories : PhraseCategories} {entry result : ChartEntry}
    {chart : Chart} {counters counters' : Counters}
    (h : entry.Chooses categories chart counters result counters') (hdisciplined : entry.IsDisciplined)
    (hchart : ∀ e ∈ chart.newestFirst, e.expression.arguments.length ≤ 2) (he : entry ∈ chart.newestFirst) :
    result.expression.arguments.length ≤ 2 := by
  have hentry := hchart entry he
  cases h with
  | adjunct hother hr =>
    obtain ⟨-, expression, hattach, rfl, -⟩ := applyBinary?_eq_some_iff.mp hr
    exact Expression.length_arguments_of_attachBy? hattach hentry (hchart _ hother)
  | spellout hr =>
    obtain ⟨-, expression, nextIndex, hspellout, rfl, -⟩ := applyUnary?_eq_some_iff.mp hr
    have harguments : expression.arguments = [] := (Expression.of_spellOut? hspellout).2.2.2.1
    simp [harguments]
  | merge hop hspellout hr =>
    have hfew : entry.expression.arguments.length ≤ 1 := (of_spellout_eq_none hdisciplined hentry hspellout).2
    obtain ⟨-, expression, nextIndex, hmade, rfl, -⟩ := applyUnary?_eq_some_iff.mp hr
    rcases Operation.features_of_unary hop hmade with ⟨-, -, harguments⟩ | ⟨category, -, harguments⟩
    · simp [harguments]
    · have hone : expression.arguments.length = entry.expression.arguments.length + 1 := harguments
      show expression.arguments.length ≤ 2
      omega
  | insert hspellout hsplit hnewer hr =>
    have hother := hchart _ (hsplit ▸ List.mem_append_right _ List.mem_cons_self)
    obtain ⟨-, expression, hattach, rfl, -⟩ := applyBinary?_eq_some_iff.mp hr
    exact Expression.length_arguments_of_attachBy? hattach hentry hother

/-- The entry says and means what a lexical item does, or what a head was spelled out as with all its arguments. -/
def ChartEntry.IsSpelledOut (categories : PhraseCategories) (category : Text) (e : ChartEntry) : Prop :=
  ∃ made ∈ e.nodes, e.expression.phon = made.expression.phon ∧ e.expression.meaning = made.expression.meaning ∧
    ((∃ item, made.expression = .ofItem item) ∨ ∃ source ∈ made.sources, ∃ index,
      made.expression.IsPhrasedFrom categories index category source.expression)

theorem ChartEntry.IsSpelledOut.of_attach {categories : PhraseCategories} {category : Text} {host result : ChartEntry}
    {child : Expression} (h : host.IsSpelledOut categories category) (hnodes : host.nodes ⊆ result.nodes)
    (hattach : result.expression = Expression.attach host.expression child) :
    result.IsSpelledOut categories category := by
  obtain ⟨made, hmade, hphon, hmeaning, horigin⟩ := h
  exact ⟨made, hnodes hmade, hattach ▸ hphon, hattach ▸ hmeaning, horigin⟩

/-- A licensee without arguments never had any, or they have gone into what it says and means: each merge leaves one
more, and only a spellout takes them away. -/
theorem ChartEntry.isInherited_isSpelledOut (categories : PhraseCategories) : IsInherited categories fun e =>
    e.expression.arguments = [] → ∀ category, e.expression.outerCategory? .licensee = some category →
      e.IsSpelledOut categories category := by
  constructor
  · intro id item _ category _
    exact ⟨_, mem_nodes_self _, rfl, rfl, .inl ⟨item, rfl⟩⟩
  · intro name operator entry result counters counters' hop _ hr harguments category hcategory
    have hself := mem_nodes_self result
    obtain ⟨-, expression, nextIndex, hmade, rfl, -⟩ := applyUnary?_eq_some_iff.mp hr
    rcases Operation.of_unary hop hmade with ⟨-, h⟩ | ⟨-, ⟨token?, h⟩ | h⟩
    · obtain ⟨rest, hfeatures⟩ := Expression.outerCategory?_eq_some_iff.mp hcategory
      have hlicensee : entry.expression.outerCategory? .licensee = some category :=
        Expression.outerCategory?_eq_some_iff.mpr ⟨rest, (Expression.of_spellOut? h).2.2.1 ▸ hfeatures⟩
      exact ⟨_, hself, rfl, rfl, .inr ⟨entry, List.mem_cons_self, counters.nextIndex,
        Expression.isPhrasedFrom_of_spellOut? hlicensee h⟩⟩
    · obtain ⟨_, _, _, _, _, -, -, -, rfl⟩ := Expression.of_mergeFinal? h
      cases harguments
    · obtain ⟨_, _, _, _, _, _, _, -, -, -, -, rfl⟩ := Expression.of_mergeMover? h
      cases harguments
  · intro name operator first second result counters counters' hop hf hs hr harguments category hcategory
    have hnodes := nodes_of_applyBinary? hr
    obtain ⟨-, expression, hmade, hresult, -⟩ := applyBinary?_eq_some_iff.mp hr
    have hexpression : result.expression = expression := by rw [hresult]
    obtain ⟨host, child, hattach⟩ := Operation.of_binary hop hmade
    rcases Expression.eq_attach_of_attachBy? hattach with rfl | rfl
    · rw [hexpression] at harguments hcategory
      exact (hf harguments category hcategory).of_attach (by simp [hnodes]) hexpression
    · rw [hexpression] at harguments hcategory
      exact (hs harguments category hcategory).of_attach (by simp [hnodes]) hexpression

namespace Parsing
variable {setting : Setting} {tokens : List Text} {counters : Counters}

theorem Reachable.length_arguments_le {s : State} (h : Reachable setting tokens counters s) :
    ∀ e ∈ s.chart.newestFirst, e.expression.arguments.length ≤ 2 := by
  refine forall_chart_of_chooses (fun e he => ?_) (fun hs hchart he hr => ?_) h
  · obtain ⟨⟨item, k⟩, -, rfl⟩ := List.mem_map.mp he
    exact Nat.zero_le 2
  · exact hr.length_arguments_le (hs.isGrown.built.isDisciplined _ he) hchart he

/-- A phrase that is accepted either has no arguments or is spelled out with all that it has. -/
theorem spellOutAccepted_of_licensee {accepted : ChartEntry} (hdisciplined : accepted.IsDisciplined)
    {category : Text} (hfeatures : accepted.expression.features = [⟨.licensee, category⟩])
    (hlength : accepted.expression.arguments.length ≤ 2) (categories : PhraseCategories)
    (counters : Counters) :
    let result := (spellOutAccepted categories accepted counters).1
    (accepted.expression.arguments = [] ∧ result = accepted) ∨
      result.expression.IsPhrasedFrom categories counters.nextIndex category accepted.expression := by
  intro result
  have hlicensee : accepted.expression.outerCategory? .licensee = some category :=
    Expression.outerCategory?_eq_some_iff.mpr ⟨[], hfeatures⟩
  rcases spellOutAccepted_cases categories accepted counters with ⟨hnone, he⟩ | ⟨made, counters', hr, he⟩
  · have hpending := (ChartEntry.of_spellout_eq_none hdisciplined hlength hnone).1
    have harguments : accepted.expression.arguments = [] := by
      by_contra hsome
      exact hpending ⟨hsome, category, hlicensee⟩
    exact .inl ⟨harguments, congrArg Prod.fst he⟩
  · obtain ⟨-, expression, next, hspellout, rfl, -⟩ := ChartEntry.applyUnary?_eq_some_iff.mp hr
    have hresult : result.expression = expression := congrArg (·.1.expression) he
    rw [hresult]
    exact .inr (Expression.isPhrasedFrom_of_spellOut? hlicensee hspellout)

/-- No entry that a run puts into its chart has more than two arguments, and what it accepts has none. Either the
entry of the chart that was accepted had none, and says and means what a word does or what was made of its arguments
before, or the words and the meaning are now what its kind of phrase makes of all that it had. -/
theorem arguments_of_run (setting : Setting) (text : Text) (counters : Counters) :
    (∀ s, Reachable setting (tokenize text) counters s →
      ∀ e ∈ s.chart, e.expression.arguments.length ≤ 2) ∧
    ∀ e, Outcome.entry? (setting.parse text counters) = some e →
      e.expression.arguments = [] ∧
      ∃ accepted ∈ (setting.search (tokenize text) counters).chart,
        ∃ category ∈ setting.grammar.startCategories,
          accepted.expression.features = [⟨.licensee, category⟩] ∧
            ((accepted.IsSpelledOut setting.categories category ∧ e = accepted) ∨
              e.expression.IsPhrasedFrom setting.categories
                (setting.search (tokenize text) counters).counters.nextIndex category accepted.expression) := by
  refine ⟨fun s hs => hs.length_arguments_le, fun e he => ?_⟩
  have hreachable := Reachable.search setting (tokenize text) counters
  obtain ⟨accepted, haccepted, hresult⟩ := accepted_of_parse he
  have hmem := hreachable.isGrown.accepted_mem accepted haccepted
  have haccepts := hreachable.isGrown.accepts_accepted accepted haccepted
  obtain ⟨category, hstart, hfeatures⟩ := (ChartEntry.isAccepting_iff.mp haccepts).1
  have hlast := spellOutAccepted_of_licensee (hreachable.isGrown.built.isDisciplined accepted hmem) hfeatures
    (hreachable.length_arguments_le accepted hmem) setting.categories
    (setting.search (tokenize text) counters).counters
  rw [← hresult] at hlast
  rcases hlast with ⟨harguments, rfl⟩ | hphrased
  · have hlicensee : e.expression.outerCategory? .licensee = some category :=
      Expression.outerCategory?_eq_some_iff.mpr ⟨[], hfeatures⟩
    have hspelled := hreachable.forall_chart (ChartEntry.isInherited_isSpelledOut setting.categories) e hmem
    exact ⟨harguments, e, hmem, category, hstart, hfeatures, .inl ⟨hspelled harguments category hlicensee, rfl⟩⟩
  · have harguments : e.expression.arguments = [] := by
      obtain ⟨words, meaning, -, hphrase⟩ := hphrased
      rw [hphrase]
    exact ⟨harguments, accepted, hmem, category, hstart, hfeatures, .inr hphrased⟩

/-- A verb with two arguments, which it has until it is spelled out, and a clause that is spelled out once more
after it is accepted. -/
theorem arguments_of_run_two_arguments :
    let setting : Setting := ⟨⟨[⟨"did", [⟨.licensor, "v"⟩, ⟨.licensee, "c"⟩], .const "did"⟩,
      ⟨"saw", [⟨.licensor, "d"⟩, ⟨.licensor, "d"⟩, ⟨.licensee, "v"⟩], .const "see"⟩,
      ⟨"he", [⟨.licensee, "d"⟩], .const "he"⟩, ⟨"her", [⟨.licensee, "d"⟩], .const "her"⟩],
      .ofList ["c"]⟩, {}⟩
    let text : Text := "did saw he her"
    (∃ s, Reachable setting (tokenize text) {} s ∧
      (∃ e ∈ s.chart, e.expression.arguments.length = 2) ∧
      ∀ e ∈ s.chart, e.expression.arguments.length ≤ 2) ∧
    ∃ e, Outcome.entry? (setting.parse text {}) = some e ∧ e.expression.phon = "_ saw her" ∧
      e.expression.arguments = [] ∧
      ∃ accepted ∈ (setting.search (tokenize text) {}).chart,
        ∃ category ∈ setting.grammar.startCategories,
          accepted.expression.features = [⟨.licensee, category⟩] ∧
            ((accepted.IsSpelledOut setting.categories category ∧ e = accepted) ∨
              e.expression.IsPhrasedFrom setting.categories
                (setting.search (tokenize text) {}).counters.nextIndex category accepted.expression) := by
  intro setting text
  have hrun := arguments_of_run setting text {}
  have hreachable := Reachable.search setting (tokenize text) {}
  have htwo : ∃ e ∈ (setting.search (tokenize text) {}).chart.newestFirst, e.expression.arguments.length = 2 := by
    decide +kernel
  have hphon : (Outcome.entry? (setting.parse text {})).map (fun e => e.expression.phon) = some "_ saw her" := by
    decide +kernel
  obtain ⟨e, he, hphon⟩ := Option.map_eq_some_iff.mp hphon
  exact ⟨⟨_, hreachable, htwo, hrun.1 _ hreachable⟩, e, he, hphon, hrun.2 e he⟩

end Parsing
end MinimalistGrammar
