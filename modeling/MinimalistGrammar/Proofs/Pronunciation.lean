import MinimalistGrammar.Proofs.Vocabulary

/-! How often words are pronounced in a derivation. A phrase is pronounced where it is taken as a complement, where it
is checked and moves on, and where it is spelled out as an adjunct; as a specifier it is silent. Its features say how
often this can be, and whenever the phrase is pronounced, so are all words that it is made of. -/
namespace MinimalistGrammar

namespace Feature

/-- How often what is attached to a head of some kind can still be pronounced: where it is checked and moves on, as a
complement in the end, and as an adjunct. -/
def soundings (host : ExpressionKind) : List Feature → Nat
  | ⟨.adjunct, _⟩ :: _ => 1
  | [⟨.licensee, _⟩] => if host = .lexical then 1 else 0
  | ⟨.licensee, _⟩ :: f :: rest => soundings .derived (f :: rest) + 1
  | _ => 0

theorem soundings_licensee (host : ExpressionKind) (category : Text) {rest : List Feature} (h : rest ≠ []) :
    soundings host (⟨.licensee, category⟩ :: rest) = soundings .derived rest + 1 := by
  obtain ⟨f, rest, rfl⟩ := List.exists_cons_of_ne_nil h
  rfl

theorem soundings_derived_le (host : ExpressionKind) (features : List Feature) :
    soundings .derived features ≤ soundings host features := by
  unfold soundings
  split <;> simp

theorem soundings_le_lexical (host : ExpressionKind) (features : List Feature) :
    soundings host features ≤ soundings .lexical features := by
  unfold soundings
  split
  · exact Nat.le_refl 1
  · split <;> simp
  · exact Nat.le_refl _
  · exact Nat.le_refl 0

end Feature

namespace Expression

mutual
/-- What may still be pronounced of an expression that is attached to a head, and of all that is attached to it and
passes on to the head. -/
def soundsIn (host : ExpressionKind) : Expression → List Text
  | ⟨phon, _, features, _, _, children⟩ =>
    -- when the children pass on to the head, it has merged and is not lexical any more
    List.replicate (Feature.soundings host features) phon ++ soundsOfAll .derived children

def soundsOfAll (host : ExpressionKind) : List Expression → List Text
  | [] => []
  | e :: rest => soundsIn host e ++ soundsOfAll host rest
end

/-- What may still be pronounced of an expression: its own sound, those of its arguments, and those of what is
attached to it. -/
def sounds (e : Expression) : List Text :=
  e.phon :: (e.arguments.map (·.token) ++ soundsOfAll e.kind e.children)

theorem soundsIn_eq (host : ExpressionKind) (e : Expression) : e.soundsIn host =
    List.replicate (Feature.soundings host e.features) e.phon ++ soundsOfAll .derived e.children := by
  cases e
  rw [soundsIn]

@[simp] theorem soundsOfAll_append (host : ExpressionKind) (s t : List Expression) :
    soundsOfAll host (s ++ t) = soundsOfAll host s ++ soundsOfAll host t := by
  induction s with
  | nil => rfl
  | cons e s ih => rw [List.cons_append, soundsOfAll, soundsOfAll, ih, List.append_assoc]

theorem soundsOfAll_sublist (host : ExpressionKind) (s : List Expression) :
    (soundsOfAll .derived s).Sublist (soundsOfAll host s) := by
  induction s with
  | nil => exact List.Sublist.refl _
  | cons e s ih =>
    rw [soundsOfAll, soundsOfAll, soundsIn_eq, soundsIn_eq host]
    have hown := List.replicate_sublist_replicate e.phon |>.mpr (Feature.soundings_derived_le host e.features)
    exact (hown.append_right _).append ih

section
variable {word : Text} {e result : Expression}

theorem occurrences_attach_le (word : Text) (host child : Expression) : occurrences word (attach host child).sounds ≤
    occurrences word host.sounds + occurrences word child.sounds +
      occurrences word (List.replicate (Feature.soundings .lexical child.features - 1) child.phon) := by
  have hattached := occurrences_of_sublist word (soundsOfAll_sublist child.kind child.children)
  have hown : Feature.soundings host.kind child.features * (tokenize child.phon).count word ≤
      (tokenize child.phon).count word +
        (Feature.soundings .lexical child.features - 1) * (tokenize child.phon).count word := by
    have hle := Feature.soundings_le_lexical host.kind child.features
    calc Feature.soundings host.kind child.features * (tokenize child.phon).count word
        ≤ (1 + (Feature.soundings .lexical child.features - 1)) * (tokenize child.phon).count word :=
          Nat.mul_le_mul_right _ (by omega)
      _ = _ := by rw [Nat.add_mul, Nat.one_mul]
  simp only [sounds, attach, soundsOfAll, soundsIn_eq, occurrences_cons, occurrences_append, occurrences_replicate]
  omega

/-- A merge pronounces no more than what may be pronounced of the child that it takes. -/
theorem occurrences_of_mergeFinal?_le {token? : Option Text} (h : e.mergeFinal? token? = some result)
    (htoken : ∀ child : Expression, (tokenize (token?.getD child.phon)).count word ≤
      occurrences word (if e.kind = .lexical then [child.phon] else [])) :
    occurrences word result.sounds ≤ occurrences word e.sounds := by
  obtain ⟨category, features, before, child, after, -, hc, hf, rfl⟩ := of_mergeFinal? h
  have hbefore := occurrences_of_sublist word (soundsOfAll_sublist e.kind before)
  have hafter := occurrences_of_sublist word (soundsOfAll_sublist e.kind after)
  have htoken := htoken child
  have hsoundings : List.replicate (Feature.soundings e.kind child.features) child.phon =
      if e.kind = .lexical then [child.phon] else [] := by
    rw [hf, Feature.soundings]
    split <;> rfl
  -- what is attached to the child counts as before, since it counted as in a derived head
  simp only [sounds, hc, soundsOfAll, soundsOfAll_append, soundsIn_eq e.kind child, hsoundings,
    List.map_cons, occurrences_cons, occurrences_append]
  omega

theorem occurrences_of_mergeMover?_le (h : e.mergeMover? = some result) :
    occurrences word result.sounds ≤ occurrences word e.sounds := by
  obtain ⟨category, features, before, child, after, rest, meaning, -, hc, hf, hrest, rfl⟩ :=
    of_mergeMover? h
  have hbefore := occurrences_of_sublist word (soundsOfAll_sublist e.kind before)
  have hafter := occurrences_of_sublist word (soundsOfAll_sublist e.kind after)
  simp only [sounds, hc, soundsOfAll, soundsOfAll_append, soundsIn_eq e.kind child, hf,
    Feature.soundings_licensee e.kind category hrest, soundsIn_eq .derived { child with features := rest },
    List.replicate_succ, List.map_cons, List.cons_append, occurrences_cons, occurrences_append]
  omega

theorem occurrences_filter_isAdjunct_le (word : Text) (host : ExpressionKind) (children : List Expression) :
    occurrences word ((children.filter isAdjunct).map (·.phon)) +
      occurrences word (soundsOfAll host (children.filter (!isAdjunct ·))) ≤
        occurrences word (soundsOfAll host children) := by
  induction children with
  | nil => exact Nat.le_refl 0
  | cons child children ih =>
    rw [soundsOfAll, occurrences_append]
    by_cases hadjunct : child.isAdjunct
    · obtain ⟨category, houter⟩ := outerIs_iff.mp hadjunct
      obtain ⟨features, hf⟩ := outerCategory?_eq_some_iff.mp houter
      simp only [hadjunct, List.filter_cons, if_true, List.map_cons, occurrences_cons, soundsIn_eq host child,
        hf, Feature.soundings, List.replicate_one, occurrences_append, occurrences_nil, Bool.not_true,
        Bool.false_eq_true, if_false]
      omega
    · simp only [hadjunct, List.filter_cons, Bool.not_false, if_true, Bool.false_eq_true, if_false,
        soundsOfAll, occurrences_append]
      omega

theorem occurrences_of_spellOut?_le {categories : PhraseCategories} {index next : Int}
    (h : e.spellOut? categories index = some (result, next)) :
    occurrences word result.sounds ≤ occurrences word e.sounds := by
  obtain ⟨words, hne, ⟨words', hperm, hsub⟩, hphon⟩ := phon_of_spellOut? h
  obtain ⟨-, hkind, -, ha, hc⟩ := of_spellOut? h
  have hchildren := occurrences_filter_isAdjunct_le word e.kind e.children
  have hwords : occurrences word words ≤ occurrences word (e.phon :: e.arguments.map (·.token)) := by
    rw [← occurrences_of_perm hperm]
    exact occurrences_of_sublist word hsub
  rw [sounds, occurrences_cons, hphon, count_tokenize_join (List.append_ne_nil_of_left_ne_nil hne _), hkind,
    ha, hc]
  simp only [sounds, occurrences_cons, occurrences_append, List.map_nil, occurrences_nil] at hwords ⊢
  omega

end

end Expression

namespace Operation

/-- Specifiers are silent but for the placeholder. -/
theorem occurrences_of_unary_le {categories : PhraseCategories} {name word : Text} {operator : UnaryOperator}
    (hop : (name, operator) ∈ unary categories) (hword : word ≠ Argument.placeholder) {index next : Int}
    {e result : Expression} (h : operator index e = some (result, next)) :
    occurrences word result.sounds ≤ occurrences word e.sounds := by
  rcases mem_unary_iff.mp hop with ⟨-, rfl⟩ | ⟨-, rfl⟩ | ⟨-, rfl⟩ | ⟨-, rfl⟩
  · exact Expression.occurrences_of_spellOut?_le h
  · obtain ⟨hkind, h⟩ := Option.ite_none_right_eq_some.mp (withoutIndex_eq_some_iff.mp h).1
    refine Expression.occurrences_of_mergeFinal?_le h fun child => ?_
    rw [if_pos hkind, occurrences_cons]
    exact Nat.le_add_right _ _
  · obtain ⟨hkind, h⟩ := Option.ite_none_right_eq_some.mp (withoutIndex_eq_some_iff.mp h).1
    refine Expression.occurrences_of_mergeFinal?_le h fun child => ?_
    rw [Option.getD_some, Argument.tokenize_placeholder, List.count_eq_zero_of_not_mem (by simpa using hword)]
    exact Nat.zero_le _
  · exact Expression.occurrences_of_mergeMover?_le (withoutIndex_eq_some_iff.mp h).1

end Operation

namespace ChartEntry

def attaches (made source : ChartEntry) : Bool :=
  made.sources.length = 2 && made.expression.children.head? = some source.expression

/-- The phrases of a derivation, each as it was when it was attached to another one. -/
def phrases (e : ChartEntry) : List ChartEntry := e.nodes.flatMap fun made => made.sources.filter made.attaches

/-- The sound of a phrase, once less than its features let it be pronounced. -/
def echo (phrase : ChartEntry) : List Text :=
  List.replicate (Feature.soundings .lexical phrase.expression.features - 1) phrase.expression.phon

def echoes (e : ChartEntry) : List Text := e.phrases.flatMap echo

theorem phrases_of_applyUnary? {name : Text} {operator : UnaryOperator} {entry result : ChartEntry}
    {counters counters' : Counters} (hr : entry.applyUnary? name operator counters = some (result, counters')) :
    result.phrases = entry.phrases := by
  have hnodes := nodes_of_applyUnary? hr
  obtain ⟨-, expression, nextIndex, -, rfl, -⟩ := applyUnary?_eq_some_iff.mp hr
  rw [phrases, hnodes, List.flatMap_cons]
  simp [attaches, phrases]

theorem phrases_of_applyBinary? {name : Text} {operator : BinaryOperator} {first second result : ChartEntry}
    {counters counters' : Counters}
    (hr : first.applyBinary? name operator second counters = some (result, counters')) :
    result.phrases = [first, second].filter result.attaches ++ (first.phrases ++ second.phrases) := by
  have hnodes := nodes_of_applyBinary? hr
  obtain ⟨-, expression, -, rfl, -⟩ := applyBinary?_eq_some_iff.mp hr
  rw [phrases, hnodes, List.flatMap_cons, List.flatMap_append]
  rfl

theorem occurrences_echo_le {word : Text} {phrase : ChartEntry} {phrases : List ChartEntry} (h : phrase ∈ phrases) :
    occurrences word phrase.echo ≤ occurrences word (phrases.flatMap echo) := by
  obtain ⟨before, after, rfl⟩ := List.append_of_mem h
  rw [List.flatMap_append, List.flatMap_cons, occurrences_append, occurrences_append]
  omega

theorem occurrences_echoes_eq_zero {word : Text} {e : ChartEntry}
    (h : ∀ phrase ∈ e.phrases, word ∈ tokenize phrase.expression.phon →
      Feature.soundings .lexical phrase.expression.features ≤ 1) : occurrences word e.echoes = 0 := by
  refine List.count_eq_zero.mpr fun hword => ?_
  obtain ⟨sound, hsound, hword⟩ := List.mem_flatMap.mp hword
  obtain ⟨phrase, hphrase, hsound⟩ := List.mem_flatMap.mp hsound
  obtain ⟨hagain, rfl⟩ := List.mem_replicate.mp hsound
  have hle := h phrase hphrase hword
  omega

theorem occurrences_of_applyBinary?_le (word : Text) {name : Text} {operator : BinaryOperator}
    {first second result : ChartEntry} {counters counters' : Counters} (hop : (name, operator) ∈ Operation.binary)
    (hr : first.applyBinary? name operator second counters = some (result, counters')) :
    occurrences word result.expression.sounds + (occurrences word first.echoes + occurrences word second.echoes) ≤
      occurrences word first.expression.sounds + occurrences word second.expression.sounds +
        occurrences word result.echoes := by
  have hphrases := phrases_of_applyBinary? hr
  obtain ⟨-, expression, hmade, hresult, -⟩ := applyBinary?_eq_some_iff.mp hr
  have hexpression : result.expression = expression := by rw [hresult]
  have hsources : result.sources = [first, second] := by rw [hresult]
  obtain ⟨host, child, hattach⟩ := Operation.of_binary hop hmade
  have hechoes {phrase : ChartEntry} (hphrase : phrase ∈ [first, second])
      (hattached : result.expression.children.head? = some phrase.expression) :
      occurrences word phrase.echo + (occurrences word first.echoes + occurrences word second.echoes) ≤
        occurrences word result.echoes := by
    have hmem : phrase ∈ [first, second].filter result.attaches :=
      List.mem_filter.mpr ⟨hphrase, by simp [attaches, hsources, hattached]⟩
    rw [echoes, echoes, echoes, hphrases, List.flatMap_append, List.flatMap_append, occurrences_append,
      occurrences_append]
    exact Nat.add_le_add_right (occurrences_echo_le hmem) _
  rcases Expression.eq_attach_of_attachBy? hattach with rfl | rfl
  · have hsounds := Expression.occurrences_attach_le word first.expression second.expression
    have hecho := hechoes (List.mem_cons_of_mem first List.mem_cons_self) (by rw [hexpression]; rfl)
    rw [echo] at hecho
    rw [hexpression]
    omega
  · have hsounds := Expression.occurrences_attach_le word second.expression first.expression
    have hecho := hechoes List.mem_cons_self (by rw [hexpression]; rfl)
    rw [echo] at hecho
    rw [hexpression]
    omega

/-- Nothing is pronounced but what the leaves sound and what is pronounced again. -/
theorem isInherited_occurrences_le (categories : PhraseCategories) : IsInherited categories fun e =>
    ∀ word, word ≠ Argument.placeholder → occurrences word e.expression.sounds ≤
      occurrences word (e.leaves.map (·.expression.phon)) + occurrences word e.echoes := by
  constructor
  · intro id item word _
    rw [leaves_lexical]
    exact Nat.le_add_right _ _
  · intro name operator entry result counters counters' hop he hr word hword
    have hechoes : result.echoes = entry.echoes := by rw [echoes, phrases_of_applyUnary? hr, echoes]
    rw [leaves_of_applyUnary? hr, hechoes]
    obtain ⟨-, expression, nextIndex, hmade, rfl, -⟩ := applyUnary?_eq_some_iff.mp hr
    exact Nat.le_trans (Operation.occurrences_of_unary_le hop hword hmade) (he word hword)
  · intro name operator first second result counters counters' hop hf hs hr word hword
    have hfirst := hf word hword
    have hsecond := hs word hword
    have hresult := occurrences_of_applyBinary?_le word hop hr
    rw [leaves_of_applyBinary? hr, List.map_append, occurrences_append]
    omega

end ChartEntry

namespace Parsing
variable {setting : Setting} {counters : Counters} {text : Text} {e : ChartEntry}

/-- The items of a text sound a word once for each of its items and each place at which it stands. -/
theorem occurrences_itemsOf (grammar : Grammar) (text : Text) {word : Text} (hword : word ≠ []) :
    occurrences word ((itemsOf grammar (tokenize text)).map (·.token)) =
      (tokenize text).count word * (grammar.lookup word).length := by
  have htokens : ∀ token ∈ (itemsOf grammar (tokenize text)).map (·.token), tokenize token = [token] :=
    List.forall_mem_map.mpr fun item hitem => (tokenize_token_of_mem_itemsOf hitem).1
  have hzero : (grammar.nullItems.map (·.token)).count word = 0 := by
    refine List.count_eq_zero_of_not_mem fun hmem => ?_
    obtain ⟨item, hitem, htoken⟩ := List.mem_map.mp hmem
    exact hword (htoken.symm.trans (Grammar.token_of_mem_lookup hitem))
  rw [occurrences_of_tokens htokens, itemsOf, List.map_append, List.count_append, hzero, Nat.zero_add,
    Grammar.count_tokens_lookup]

section
variable (h : Outcome.entry? (setting.parse text counters) = some e)
include h

/-- What is accepted for a text is pronounced with words of the text only. A word is pronounced, and could go on to be
with what is still attached, no more often than it stands in the text, for each of its items, and in the phrases that
are pronounced again, each time once more. So it is not pronounced more often than it stands in the text, for each of
its items, if no phrase with the word can be pronounced again. -/
theorem count_phon_of_parse :
    (∀ word ∈ tokenize e.expression.phon,
      word = [] ∨ word = Argument.placeholder ∨ word ∈ tokenize text) ∧
    ∀ word, word ≠ [] → word ≠ Argument.placeholder →
      ((tokenize e.expression.phon).count word +
          occurrences word (Expression.soundsOfAll e.expression.kind e.expression.children) ≤
        (tokenize text).count word * (setting.grammar.lookup word).length + occurrences word e.echoes) ∧
      ((∀ phrase ∈ e.phrases, word ∈ tokenize phrase.expression.phon →
          Feature.soundings .lexical phrase.expression.features ≤ 1) →
        (tokenize e.expression.phon).count word ≤
          (tokenize text).count word * (setting.grammar.lookup word).length) := by
  refine ⟨fun word hword => ?_, fun word hne hword => ?_⟩
  · simpa using (speaksOnly_of_parse h).phon hword
  have hphon : (e.leaves.map (·.expression.phon)).Perm
      ((itemsOf setting.grammar (tokenize text)).map (·.token)) := by
    have hphon := (expressions_perm_of_parse h).map (·.phon)
    rwa [List.map_map, List.map_map] at hphon
  have hle := inherits_of_parse h (ChartEntry.isInherited_occurrences_le _) word hword
  rw [occurrences_of_perm hphon, occurrences_itemsOf _ _ hne, Expression.sounds, occurrences_cons,
    occurrences_append] at hle
  refine ⟨by omega, fun hphrases => ?_⟩
  rw [ChartEntry.occurrences_echoes_eq_zero hphrases] at hle
  omega

end

/-- A subject that moves twice is pronounced twice with the noun in it, and the rest of the sentence once. -/
theorem count_phon_of_parse_moved_subject :
    let setting : Setting := ⟨⟨[⟨"every", [⟨.licensor, "n"⟩, ⟨.licensee, "d"⟩, ⟨.licensee, "k"⟩, ⟨.licensee, "q"⟩],
        .quantifier "FORALL"⟩,
      ⟨"girl", [⟨.licensee, "n"⟩], .const "girl"⟩, ⟨"bob", [⟨.licensee, "d"⟩], .const "bob"⟩,
      ⟨"chase", [⟨.licensor, "d"⟩, ⟨.licensor, "d"⟩, ⟨.licensee, "v"⟩], .const "chase"⟩,
      ⟨"-s", [⟨.licensor, "v"⟩, ⟨.licensor, "k"⟩, ⟨.licensee, "t"⟩], .const "present"⟩,
      ⟨"q", [⟨.licensor, "t"⟩, ⟨.licensor, "q"⟩, ⟨.licensee, "c"⟩], .const ""⟩], .ofList ["c"]⟩, {}⟩
    let text : Text := "q every girl chase -s bob"
    let noun : Text := "girl"
    let verb : Text := "chase"
    ∃ e, Outcome.entry? (setting.parse text {}) = some e ∧
      tokenize e.expression.phon = ["every", "girl", "-s", "every", "girl", "chase", "bob"] ∧
      e.echoes = ["every girl"] ∧
      (∀ word ∈ tokenize e.expression.phon, word = [] ∨ word = Argument.placeholder ∨ word ∈ tokenize text) ∧
      (tokenize e.expression.phon).count noun +
          occurrences noun (Expression.soundsOfAll e.expression.kind e.expression.children) ≤
        (tokenize text).count noun * (setting.grammar.lookup noun).length + occurrences noun e.echoes ∧
      (tokenize e.expression.phon).count verb ≤
        (tokenize text).count verb * (setting.grammar.lookup verb).length := by
  intro setting text noun verb
  have hshape : (Outcome.entry? (setting.parse text {})).map (fun e => (tokenize e.expression.phon, e.echoes,
      e.phrases.all fun phrase => verb ∉ tokenize phrase.expression.phon ||
        Feature.soundings .lexical phrase.expression.features ≤ 1)) =
      some ((["every", "girl", "-s", "every", "girl", "chase", "bob"], ["every girl"], true) :
        List Text × List Text × Bool) := by decide +kernel
  obtain ⟨e, he, hshape⟩ := Option.map_eq_some_iff.mp hshape
  obtain ⟨hphon, hrest⟩ := Prod.mk.inj hshape
  obtain ⟨hechoes, hphrases⟩ := Prod.mk.inj hrest
  obtain ⟨hwords, hcount⟩ := count_phon_of_parse he
  refine ⟨e, he, hphon, hechoes, hwords, (hcount noun (by decide) (by decide)).1,
    (hcount verb (by decide) (by decide)).2 fun phrase hphrase hword => ?_⟩
  simpa [hword] using List.all_eq_true.mp hphrases phrase hphrase

/-- A noun and a verb of one sound, both of which are pronounced for one word; a pronoun that moves twice; and a
pronoun that turns into an adjunct after it was checked. -/
theorem exists_word_pronounced_more_often :
    let fish : Setting := ⟨⟨[⟨"fish", [⟨.licensee, "d"⟩], .const "fish"⟩,
      ⟨"fish", [⟨.licensor, "d"⟩, ⟨.licensee, "v"⟩], .const "fishing"⟩,
      ⟨"t", [⟨.licensor, "v"⟩, ⟨.licensee, "c"⟩], .const "t"⟩], .ofList ["c"]⟩, {}⟩
    let moving : Setting := ⟨⟨[⟨"saw", [⟨.licensor, "d"⟩, ⟨.licensor, "k"⟩, ⟨.licensee, "v"⟩], .const "saw"⟩,
      ⟨"he", [⟨.licensee, "d"⟩, ⟨.licensee, "k"⟩, ⟨.licensee, "q"⟩], .const "he"⟩,
      ⟨"t", [⟨.licensor, "v"⟩, ⟨.licensor, "q"⟩, ⟨.licensee, "c"⟩], .const "t"⟩], .ofList ["c"]⟩, {}⟩
    let joining : Setting := ⟨⟨[⟨"saw", [⟨.licensor, "d"⟩, ⟨.licensee, "v"⟩], .const "saw"⟩,
      ⟨"he", [⟨.licensee, "d"⟩, ⟨.adjunct, "v"⟩], .const "he"⟩,
      ⟨"t", [⟨.licensor, "v"⟩, ⟨.licensee, "c"⟩], .const "t"⟩], .ofList ["c"]⟩, {}⟩
    let isRepeated (setting : Setting) (text word : Text) : Prop :=
      ∃ e, Outcome.entry? (setting.parse text {}) = some e ∧
        (tokenize text).count word < (tokenize e.expression.phon).count word
    isRepeated fish "fish t" "fish" ∧ isRepeated moving "saw he t" "he" ∧
      isRepeated joining "saw he t" "he" := by
  intro fish moving joining isRepeated
  have hrepeated {setting : Setting} {text word : Text}
      (h : (Outcome.entry? (setting.parse text {})).any fun e =>
        (tokenize text).count word < (tokenize e.expression.phon).count word) :
      isRepeated setting text word := by
    obtain ⟨e, he, hlt⟩ := (Option.any_eq_true _ _).mp h
    exact ⟨e, he, of_decide_eq_true hlt⟩
  exact ⟨hrepeated (by decide +kernel), hrepeated (by decide +kernel), hrepeated (by decide +kernel)⟩

end Parsing
end MinimalistGrammar
