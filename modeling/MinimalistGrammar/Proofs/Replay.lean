import MinimalistGrammar.Proofs.Renumbering

/-! Derivations run again. The record of an entry names an operator and the sources in order, and nothing else went
into the expression of the entry but an index: to run the operators over the tree of the derivation gives the
expression again, and with other indices the same up to these. -/
namespace MinimalistGrammar

namespace Formula

theorem mapIndices_congr {ρ ρ' : Int → Int} {f : Formula} (h : ∀ index ∈ f.indices, ρ index = ρ' index) :
    f.mapIndices ρ = f.mapIndices ρ' := by
  induction f with
  | const | quantifier | foreign => rfl
  | var index => rw [mapIndices, mapIndices, h index List.mem_cons_self]
  | indexed index operand ih =>
    obtain ⟨hindex, hoperand⟩ := List.forall_mem_cons.mp h
    rw [mapIndices, mapIndices, hindex, ih hoperand]
  | internal operand ih | external operand ih | close operand ih => rw [mapIndices, mapIndices, ih h]
  | and left right ihl ihr =>
    obtain ⟨hl, hr⟩ := List.forall_mem_append.mp h
    rw [mapIndices, mapIndices, ihl hl, ihr hr]

end Formula

namespace Expression

@[simp] theorem mapIndices_id (e : Expression) : e.mapIndices id = e := by
  cases e with
  | mk phon kind features meaning arguments children =>
    have harguments : arguments.map (·.mapIndices id) = arguments := by simp [Argument.mapIndices]
    have hchildren : children.map (mapIndices id) = children := by
      conv_rhs => rw [← List.map_id children]
      refine List.map_congr_left fun child hchild => ?_
      have hlt := List.sizeOf_lt_of_mem hchild
      exact mapIndices_id child
    rw [mapIndices_mk, Formula.mapIndices_id, harguments, hchildren]
termination_by sizeOf e

theorem mapIndices_ofItem_congr {ρ ρ' : Int → Int} {item : LexicalItem}
    (h : ∀ index ∈ item.meaning.indices, ρ index = ρ' index) :
    (ofItem item).mapIndices ρ = (ofItem item).mapIndices ρ' := by
  simp only [ofItem, mapIndices_mk, Formula.mapIndices_congr h, List.map_nil]

@[simp] theorem bindsArgument_mapIndices (categories : PhraseCategories) (ρ : Int → Int) (e : Expression) :
    (e.mapIndices ρ).bindsArgument categories = e.bindsArgument categories := by
  simp [bindsArgument]

theorem spellOut?_of_not_bindsArgument {categories : PhraseCategories} {e : Expression}
    (h : ¬e.bindsArgument categories) (index index' : Int) :
    (e.spellOut? categories index).map (·.1) = (e.spellOut? categories index').map (·.1) := by
  have hone (argument : Argument) (ha : e.arguments = [argument]) (category : Text)
      (houter : e.outerCategory? .licensee = some category) :
      (phraseOfOne categories index e category argument).1 =
        (phraseOfOne categories index' e category argument).1 := by
    unfold phraseOfOne
    split
    · rfl
    · split
      · rfl
      · split
        · simp_all [bindsArgument]
        · rfl
  unfold spellOut?
  split
  · rename_i argument category ha houter
    simp only [Option.map_some, hone argument ha category houter]
  · rfl
  · rfl

end Expression

namespace Operation

/-- What the operator of a name makes of some expressions, if it is one for so many. -/
def perform? (categories : PhraseCategories) (name : Text) (index : Int) : List Expression → Option Expression
  | [e] => ((unary categories).lookup name).bind fun operator => (operator index e).map (·.1)
  | [a, b] => (binary.lookup name).bind fun operator => operator a b
  | _ => none

variable {categories : PhraseCategories} {name : Text}

theorem lookup_unary {operator : UnaryOperator} (hop : (name, operator) ∈ unary categories) :
    (unary categories).lookup name = some operator := by
  rcases mem_unary_iff.mp hop with ⟨rfl, rfl⟩ | ⟨rfl, rfl⟩ | ⟨rfl, rfl⟩ | ⟨rfl, rfl⟩ <;> rfl

theorem lookup_binary {operator : BinaryOperator} (hop : (name, operator) ∈ binary) :
    binary.lookup name = some operator := by
  rcases mem_binary_iff.mp hop with ⟨rfl, rfl⟩ | ⟨rfl, rfl⟩ <;> rfl

theorem perform?_unary {operator : UnaryOperator} (hop : (name, operator) ∈ unary categories) (index : Int)
    (e : Expression) : perform? categories name index [e] = (operator index e).map (·.1) := by
  rw [perform?, lookup_unary hop, Option.bind_some]

theorem perform?_binary {operator : BinaryOperator} (hop : (name, operator) ∈ binary) (index : Int)
    (a b : Expression) : perform? categories name index [a, b] = operator a b := by
  rw [perform?, lookup_binary hop, Option.bind_some]

theorem mem_of_lookup {β : Type} {table : List (Text × β)} {operator : β}
    (h : table.lookup name = some operator) : (name, operator) ∈ table := by
  obtain ⟨before, after, rfl, -⟩ := List.lookup_eq_some_iff.mp h
  exact List.mem_append_right before List.mem_cons_self

theorem perform?_mapIndices (ρ : Int → Int) (index : Int) (operands : List Expression) :
    (perform? categories name index operands).map (Expression.mapIndices ρ) =
      perform? categories name (ρ index) (operands.map (Expression.mapIndices ρ)) := by
  match operands with
  | [] => rfl
  | [e] =>
    simp only [perform?, List.map_cons, List.map_nil]
    cases hop : (unary categories).lookup name with
    | none => rfl
    | some operator =>
      have hindex : index + (ρ index - index) = ρ index := by omega
      have hmade := unary_mapIndices (mem_of_lookup hop) hindex.symm e
      rw [hindex] at hmade
      simp only [Option.bind_some, hmade, Option.map_map]
      rfl
  | [a, b] =>
    simp only [perform?, List.map_cons, List.map_nil]
    cases hop : binary.lookup name with
    | none => rfl
    | some operator => exact (binary_mapIndices (mem_of_lookup hop) ρ a b).symm
  | _ :: _ :: _ :: _ => rfl

theorem perform?_of_not_bindsArgument {operands : List Expression}
    (h : name = "spellout" → ∀ e ∈ operands, ¬e.bindsArgument categories) (index index' : Int) :
    perform? categories name index operands = perform? categories name index' operands := by
  match operands with
  | [] => rfl
  | [e] =>
    simp only [perform?]
    cases hop : (unary categories).lookup name with
    | none => rfl
    | some operator =>
      have hmerge {merge : Expression → Option Expression} :
          (withoutIndex merge index e).map (·.1) = (withoutIndex merge index' e).map (·.1) := by
        simp only [withoutIndex, Option.map_map]
        rfl
      rcases mem_unary_iff.mp (mem_of_lookup hop) with ⟨hname, rfl⟩ | ⟨-, rfl⟩ | ⟨-, rfl⟩ | ⟨-, rfl⟩
      · exact Expression.spellOut?_of_not_bindsArgument (h hname e List.mem_cons_self) index index'
      · exact hmerge
      · exact hmerge
      · exact hmerge
  | [_, _] => rfl
  | _ :: _ :: _ :: _ => rfl

end Operation

namespace ChartEntry

mutual
/-- Run the operators of a derivation over its tree, from the expressions of its leaves on. The index for each
entry that may take one is given. -/
def replay (categories : PhraseCategories) (draw : Int → Int) : ChartEntry → Option Expression
  | ⟨id, expression, operator?, sources, _⟩ =>
    match operator? with
    | none => some expression
    | some name =>
      (replayAll categories draw sources).bind (Operation.perform? categories name (draw id))

def replayAll (categories : PhraseCategories) (draw : Int → Int) :
    List ChartEntry → Option (List Expression)
  | [] => some []
  | source :: rest =>
    (replay categories draw source).bind fun e => (replayAll categories draw rest).map (e :: ·)
end

/-- What the record of an entry says of its expression: it is that of one of the items, or what the operator makes
of the sources in their order, with the index if it takes one. -/
inductive Follows (items : List LexicalItem) (categories : PhraseCategories) (index : Int)
    (e : ChartEntry) : Prop where
  | item {item : LexicalItem} (hoperator : e.operator? = none) (hsources : e.sources = [])
      (hitem : item ∈ items) (he : e.expression = .ofItem item) : Follows items categories index e
  | operation {name : Text} (hoperator : e.operator? = some name)
      (he : Operation.perform? categories name index (e.sources.map (·.expression)) = some e.expression) :
      Follows items categories index e

section
variable {categories : PhraseCategories} {draw : Int → Int} {e : ChartEntry}

theorem replay_of_operator_eq_none (h : e.operator? = none) :
    e.replay categories draw = some e.expression := by
  cases e
  subst h
  rw [replay]

theorem replay_of_operator_eq_some {name : Text} (h : e.operator? = some name) :
    e.replay categories draw =
      (replayAll categories draw e.sources).bind (Operation.perform? categories name (draw e.id)) := by
  cases e
  subst h
  rw [replay]

theorem replayAll_of_forall {f : Expression → Expression} {g : ChartEntry → Expression}
    {entries : List ChartEntry} (h : ∀ e ∈ entries, (e.replay categories draw).map f = some (g e)) :
    ∃ operands, replayAll categories draw entries = some operands ∧ operands.map f = entries.map g := by
  induction entries with
  | nil => exact ⟨[], rfl, rfl⟩
  | cons e entries ih =>
    obtain ⟨he, hentries⟩ := List.forall_mem_cons.mp h
    obtain ⟨first, hfirst, hf⟩ := Option.map_eq_some_iff.mp he
    obtain ⟨operands, hoperands, hrest⟩ := ih hentries
    refine ⟨first :: operands, ?_, by rw [List.map_cons, List.map_cons, hf, hrest]⟩
    rw [replayAll, hfirst, Option.bind_some, hoperands, Option.map_some]

end

/-- A derivation whose entries follow their records gives the expression again when it is run with other indices,
up to the indices that it takes. -/
theorem replay_of_follows {items : List LexicalItem} {categories : PhraseCategories}
    {draw draw' ρ ρ' : Int → Int}
    (hitems : ∀ item ∈ items, ∀ index ∈ item.meaning.indices, ρ index = ρ' index)
    {e : ChartEntry} (hfollows : ∀ node ∈ e.nodes, node.Follows items categories (draw node.id))
    (hdraw : ∀ node ∈ e.nodes, node.takesIndex categories → ρ (draw node.id) = ρ' (draw' node.id)) :
    (e.replay categories draw').map (·.mapIndices ρ') = some (e.expression.mapIndices ρ) := by
  have hsource : ∀ source ∈ e.sources,
      (source.replay categories draw').map (·.mapIndices ρ') = some (source.expression.mapIndices ρ) := by
    intro source hs
    have hlt := sizeOf_lt_of_mem_sources hs
    have hsub : source.nodes ⊆ e.nodes := fun node hnode =>
      mem_nodes_iff.mpr (.inr (mem_descendants_iff.mpr ⟨source, hs, hnode⟩))
    exact replay_of_follows hitems (fun node hnode => hfollows node (hsub hnode))
      fun node hnode => hdraw node (hsub hnode)
  cases hfollows e (mem_nodes_self e) with
  | item hoperator hsources hitem he =>
    rw [replay_of_operator_eq_none hoperator, he, Option.map_some,
      Expression.mapIndices_ofItem_congr (hitems _ hitem)]
  | @operation name hoperator he =>
    obtain ⟨operands, hoperands, hmapped⟩ := replayAll_of_forall hsource
    have hmade : Operation.perform? categories name (ρ (draw e.id)) (operands.map (·.mapIndices ρ')) =
        some (e.expression.mapIndices ρ) := by
      have hrecorded := (Operation.perform?_mapIndices ρ (draw e.id) (e.sources.map (·.expression))).symm.trans
        (congrArg (Option.map (·.mapIndices ρ)) he)
      rw [List.map_map] at hrecorded
      rw [hmapped]
      exact hrecorded
    rw [replay_of_operator_eq_some hoperator, hoperands, Option.bind_some, Operation.perform?_mapIndices]
    cases htakes : e.takesIndex categories with
    | true => rw [← hdraw e (mem_nodes_self e) htakes, hmade]
    | false =>
      -- the operands are those of the record but for the indices, so that they bind no argument either
      rw [← hmade]
      refine Operation.perform?_of_not_bindsArgument (fun hname operand hoperand => ?_) _ _
      rw [hmapped] at hoperand
      obtain ⟨source, hs, rfl⟩ := List.mem_map.mp hoperand
      rw [Expression.bindsArgument_mapIndices]
      have hbinds : ∀ source ∈ e.sources, ¬source.expression.bindsArgument categories := by
        simpa [takesIndex, hoperator, hname] using htakes
      exact hbinds source hs
termination_by sizeOf e

section
variable {items : List LexicalItem} {categories : PhraseCategories} {name : Text} {result : ChartEntry}
  {counters counters' : Counters}

theorem follows_of_applyUnary? {operator : UnaryOperator} {entry : ChartEntry}
    (hop : (name, operator) ∈ Operation.unary categories)
    (hr : entry.applyUnary? name operator counters = some (result, counters')) :
    result.Follows items categories counters.nextIndex := by
  obtain ⟨-, expression, nextIndex, he, rfl, -⟩ := applyUnary?_eq_some_iff.mp hr
  refine .operation rfl ?_
  rw [List.map_singleton, Operation.perform?_unary hop, he, Option.map_some]

theorem follows_of_applyBinary? {operator : BinaryOperator} {first second : ChartEntry}
    (hop : (name, operator) ∈ Operation.binary)
    (hr : first.applyBinary? name operator second counters = some (result, counters')) (index : Int) :
    result.Follows items categories index := by
  obtain ⟨-, expression, he, rfl, -⟩ := applyBinary?_eq_some_iff.mp hr
  refine .operation rfl ?_
  rw [List.map_cons, List.map_singleton, Operation.perform?_binary hop, he]

theorem exists_draw {entries : List ChartEntry} (hids : (entries.map (·.id)).Nodup)
    (h : ∀ e ∈ entries, ∃ index < 0, e.Follows items categories index) :
    ∃ draw : Int → Int, (∀ id, draw id < 0) ∧ ∀ e ∈ entries, e.Follows items categories (draw e.id) := by
  induction entries with
  | nil => exact ⟨fun _ => -1, fun _ => show (-1 : Int) < 0 by decide, fun _ he => (nomatch he)⟩
  | cons e entries ih =>
    obtain ⟨hid, hids⟩ := List.nodup_cons.mp hids
    obtain ⟨⟨index, hneg, he⟩, hentries⟩ := List.forall_mem_cons.mp h
    obtain ⟨draw, hdraw, hfollows⟩ := ih hids hentries
    refine ⟨Function.update draw e.id index, fun id => ?_, List.forall_mem_cons.mpr ⟨?_, fun d hd => ?_⟩⟩
    · by_cases hsame : id = e.id
      · rw [hsame, Function.update_self]
        exact hneg
      · rw [Function.update_of_ne hsame]
        exact hdraw id
    · rw [Function.update_self]
      exact he
    · have hmem : d.id ∈ entries.map (·.id) := List.mem_map_of_mem hd
      have hother : d.id ≠ e.id := by
        intro hsame
        rw [hsame] at hmem
        exact hid hmem
      rw [Function.update_of_ne hother]
      exact hfollows d hd

end

end ChartEntry

namespace Parsing
variable {setting : Setting} {counters : Counters}

/-- Every entry of the chart follows its record, with an index that was the next one when it was made. -/
theorem Reachable.exists_follows {tokens : List Text} {s : State} (h : Reachable setting tokens counters s)
    (hindex : counters.nextIndex < 0) : ∀ e ∈ s.chart.newestFirst,
      ∃ index < 0, e.Follows (itemsOf setting.grammar tokens) setting.categories index := by
  refine forall_chart_of_chooses (fun e he => ?_) (fun hs _ _ hr => ?_) h
  · obtain ⟨⟨item, k⟩, hmem, rfl⟩ := List.mem_map.mp he
    exact ⟨-1, by decide, .item rfl rfl (List.fst_mem_of_mem_zipIdx hmem) rfl⟩
  · have hnext := Int.lt_of_le_of_lt hs.nextIndex_le hindex
    cases hr.combines with
    | unary hop hr => exact ⟨_, hnext, ChartEntry.follows_of_applyUnary? hop hr⟩
    | binary hop hother hr => exact ⟨_, hnext, ChartEntry.follows_of_applyBinary? hop hr _⟩

theorem chart_parse_cases (setting : Setting) (text : Text) (counters : Counters) :
    let outcome := setting.parse text counters
    outcome.chart = (setting.search (tokenize text) counters).chart ∨
      outcome.chart = ∅ ∧ Outcome.entry? outcome = none := by
  unfold Setting.parse
  dsimp only
  split
  · exact .inr ⟨rfl, rfl⟩
  · split <;> exact .inl rfl

/-- The entries of the chart and the one that a parse returns are built one from the other, and the sources of each
are in the chart. -/
theorem exists_built_of_parse (setting : Setting) (text : Text) {counters : Counters}
    (hindex : counters.nextIndex < 0) :
    let chart := (setting.search (tokenize text) counters).chart
    ∃ entries counters', ChartEntry.Built entries counters' ∧
      (∀ e ∈ entries, ∃ index < 0,
        e.Follows (itemsOf setting.grammar (tokenize text)) setting.categories index) ∧
      ∀ e, e ∈ chart ∨ Outcome.entry? (setting.parse text counters) = some e →
        e ∈ entries ∧ ∀ source ∈ e.sources, source ∈ chart := by
  intro chart
  have hreachable := Reachable.search setting (tokenize text) counters
  have hbuilt := hreachable.isGrown.built
  have hfollows := hreachable.exists_follows hindex
  have hsources : ∀ e ∈ chart, ∀ source ∈ e.sources, source ∈ chart := by
    intro e he source hs
    have hnode : source ∈ e.nodes := ChartEntry.mem_nodes_iff.mpr
      (.inr (ChartEntry.mem_descendants_iff.mpr ⟨source, hs, ChartEntry.mem_nodes_self source⟩))
    exact hbuilt.nodes_subset e he hnode
  cases hentry : Outcome.entry? (setting.parse text counters) with
  | none =>
    refine ⟨_, _, hbuilt, hfollows, fun e he => ?_⟩
    have hmem : e ∈ chart := he.resolve_right (fun hsome => nomatch hsome)
    exact ⟨hmem, hsources e hmem⟩
  | some result =>
    obtain ⟨accepted, haccepted, hresult⟩ := accepted_of_parse hentry
    have hmem : accepted ∈ chart := hreachable.isGrown.accepted_mem accepted haccepted
    rcases spellOutAccepted_cases setting.categories accepted
      (setting.search (tokenize text) counters).counters with ⟨-, he⟩ | ⟨made, counters', hr, he⟩
    · -- the entry that is returned is the one that was accepted
      rw [he] at hresult
      refine ⟨_, _, hbuilt, hfollows, fun e he => ?_⟩
      have hmem : e ∈ chart := he.elim id fun hsome => Option.some.inj hsome ▸ hresult ▸ hmem
      exact ⟨hmem, hsources e hmem⟩
    · rw [he] at hresult
      have hnext := Int.lt_of_le_of_lt hreachable.nextIndex_le hindex
      have hmade : made.Follows (itemsOf setting.grammar (tokenize text)) setting.categories _ :=
        ChartEntry.follows_of_applyUnary? List.mem_cons_self hr
      refine ⟨made :: chart.newestFirst, counters', hbuilt.unary hmem hr,
        List.forall_mem_cons.mpr ⟨⟨_, hnext, hmade⟩, hfollows⟩, fun e he => ?_⟩
      rcases he with he | hsome
      · exact ⟨List.mem_cons_of_mem made he, hsources e he⟩
      · obtain rfl : e = made := (Option.some.inj hsome).symm.trans hresult
        obtain ⟨-, expression, nextIndex, -, rfl, -⟩ := ChartEntry.applyUnary?_eq_some_iff.mp hr
        exact ⟨List.mem_cons_self, List.forall_mem_singleton.mpr hmem⟩

/-- Derivations are sound. Each entry of the chart and the one that is returned is an item of the text, or what the
operator that it names makes of its sources, which are in the chart and have smaller ids. Run again with the same
indices, the derivation gives the expression itself; with any others it gives the same sound, and the same
expression up to the indices that were taken. The next index is negative: indices count down from -1. -/
theorem replay_of_parse (setting : Setting) (text : Text) {counters : Counters}
    (hindex : counters.nextIndex < 0) :
    let outcome := setting.parse text counters
    let items := itemsOf setting.grammar (tokenize text)
    ∃ draw : Int → Int, (∀ id, draw id < 0) ∧
      ∀ e, e ∈ outcome.chart ∨ Outcome.entry? outcome = some e →
        e.Follows items setting.categories (draw e.id) ∧
        (∀ source ∈ e.sources, source ∈ outcome.chart ∧ source.id < e.id) ∧
        e.replay setting.categories draw = some e.expression ∧
        ∀ draw' : Int → Int, ∃ again, e.replay setting.categories draw' = some again ∧
          again.phon = e.expression.phon ∧
          ∀ ρ ρ' : Int → Int, (∀ item ∈ items, ∀ index ∈ item.meaning.indices, ρ index = ρ' index) →
            (∀ node ∈ e.nodes, node.takesIndex setting.categories → ρ (draw node.id) = ρ' (draw' node.id)) →
            again.mapIndices ρ' = e.expression.mapIndices ρ := by
  intro outcome items
  obtain ⟨entries, counters', hbuilt, hfollows, hmem⟩ := exists_built_of_parse setting text hindex
  obtain ⟨draw, hdraw, hfollows⟩ := ChartEntry.exists_draw hbuilt.nodup_ids hfollows
  have hchart : ∀ e, e ∈ outcome.chart ∨ Outcome.entry? outcome = some e →
      e ∈ entries ∧ ∀ source ∈ e.sources, source ∈ outcome.chart := by
    rcases chart_parse_cases setting text counters with hsearch | ⟨hempty, hnone⟩
    · rw [show outcome.chart = _ from hsearch]
      exact hmem
    · rintro e (he | he)
      · exact absurd (show e ∈ (∅ : Chart) from hempty ▸ he) List.not_mem_nil
      · cases hnone.symm.trans he
  refine ⟨draw, hdraw, fun e he => ?_⟩
  obtain ⟨hentry, hsources⟩ := hchart e he
  have hnodes : ∀ node ∈ e.nodes, node.Follows items setting.categories (draw node.id) :=
    fun node hnode => hfollows node (hbuilt.nodes_subset e hentry hnode)
  have hdisciplined := hbuilt.isDisciplined e hentry
  refine ⟨hfollows e hentry, fun source hs => ⟨hsources source hs, ?_⟩, ?_, fun draw' => ?_⟩
  · have hdescendant := ChartEntry.mem_descendants_iff.mpr ⟨source, hs, ChartEntry.mem_nodes_self source⟩
    exact hdisciplined.lt_id _ ((hdisciplined.mem_retired_iff _).mpr ⟨source, hdescendant, rfl⟩)
  · have hsame : (e.replay setting.categories draw).map (·.mapIndices id) = some (e.expression.mapIndices id) :=
      ChartEntry.replay_of_follows (fun _ _ _ _ => rfl) hnodes fun _ _ _ => rfl
    simpa using hsame
  · have hsome : (e.replay setting.categories draw').map (·.mapIndices fun _ => 0) =
        some (e.expression.mapIndices fun _ => 0) :=
      ChartEntry.replay_of_follows (fun _ _ _ _ => rfl) hnodes fun _ _ _ => rfl
    obtain ⟨again, hagain, hzero⟩ := Option.map_eq_some_iff.mp hsome
    have hphon : again.phon = e.expression.phon := by
      simpa using congrArg Expression.phon hzero
    refine ⟨again, hagain, hphon, fun ρ ρ' hitems htaken => ?_⟩
    have hmapped := ChartEntry.replay_of_follows hitems hnodes htaken
    rw [hagain] at hmapped
    exact Option.some.inj hmapped

/-- A quantifier phrase, which takes an index. Run again with another index, the derivation of the sentence gives
the meaning with that index. -/
theorem replay_of_parse_every_girl_sleeps :
    let setting : Setting := ⟨⟨[⟨"every", [⟨.licensor, "n"⟩, ⟨.licensee, "d"⟩], .quantifier "every"⟩,
      ⟨"girl", [⟨.licensee, "n"⟩], .const "girl"⟩,
      ⟨"sleeps", [⟨.licensor, "d"⟩, ⟨.licensee, "c"⟩], .const "sleep"⟩], .ofList ["c"]⟩, {}⟩
    let text : Text := "every girl sleeps"
    ∃ e, Outcome.entry? (setting.parse text {}) = some e ∧
      e.expression.meaning.indices = [-1] ∧
      (e.replay setting.categories fun _ => -7).map (·.meaning.indices) = some [-7] ∧
      ∃ draw : Int → Int, (∀ id, draw id < 0) ∧
        e.Follows (itemsOf setting.grammar (tokenize text)) setting.categories (draw e.id) ∧
        e.replay setting.categories draw = some e.expression := by
  intro setting text
  have hsome : Outcome.isAccepted (setting.parse text {}) := by decide +kernel
  have hindices : ((Outcome.entry? (setting.parse text {})).map fun e => (e.expression.meaning.indices,
      (e.replay setting.categories fun _ => -7).map (·.meaning.indices))) = some ([-1], some [-7]) := by
    decide +kernel
  obtain ⟨e, he⟩ := Option.isSome_iff_exists.mp hsome
  rw [he, Option.map_some, Option.some.injEq, Prod.mk.injEq] at hindices
  obtain ⟨draw, hdraw, hreplay⟩ := replay_of_parse setting text (show ({} : Counters).nextIndex < 0 by decide)
  obtain ⟨hfollows, -, hsame, -⟩ := hreplay e (.inr he)
  exact ⟨e, he, hindices.1, hindices.2, draw, hdraw, hfollows, hsame⟩

end Parsing
end MinimalistGrammar
