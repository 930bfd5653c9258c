import MinimalistGrammar.Proofs.Answers
import MinimalistGrammar.Proofs.DerivationListing
import MinimalistGrammar.Proofs.GrammarDocument
import MinimalistGrammar.Proofs.Inscriptions
import MinimalistGrammar.Proofs.Lines

/-! The listing of a derivation in the documents that the commands put out. It is joined to one text and cut into lines
again. So it comes out as it was made if no line ends within the texts of the lexical items of the derivation, and in
more pieces than it has lines otherwise. -/
namespace MinimalistGrammar

theorem Expression.getLast?_text (e : Expression) : e.text.getLast? = some (.char '>') := by
  cases e
  rw [text, List.getLast?_append_of_ne_nil _ (by decide)]
  rfl

namespace ChartEntry

/-- There are as many lines as there are entries in the derivation, and each line begins with the label of its
number. -/
structure IsListedBy (entry : ChartEntry) (lines : List Text) : Prop where
  length_eq : lines.length = entry.nodes.length
  label_prefix : ∀ (number : Nat) (line : Text), lines[number]? = some line → label number ++ (" = " : Text) <+: line

theorem isGraphic_label (number : Nat) : (label number).IsGraphic :=
  .append (by decide) (Text.isGraphic_ofNat number)

/-- A line ends with the expression, and before it there are only labels and names of operators. -/
theorem exists_lineAt_eq (place : ChartEntry × Nat) : ∃ front : Text, lineAt place = front ++ place.1.expression.text ∧
    ((∀ operator ∈ place.1.operator?, operator.IsGraphic) → front.IsGraphic) := by
  have hlabel : Text.IsGraphic (label place.2 ++ " = ") := .append (isGraphic_label _) (by decide)
  unfold lineAt rowAt
  split
  · exact ⟨label place.2 ++ " = ", rfl, fun _ => hlabel⟩
  · next operator hoperator =>
    generalize lastLines _ place.1.sources = operands
    refine ⟨label place.2 ++ " = " ++ (operator ++ "(" ++ Text.join ", " (operands.map label) ++ ") = "), ?_,
      fun h => ?_⟩
    · simp only [Row.text, Row.content, List.append_assoc]
    · have hlabels : Text.IsGraphic (Text.join ", " (operands.map label)) :=
        (Text.forall_mem_join (by decide)).mpr (List.forall_mem_map.mpr fun number _ => isGraphic_label number)
      exact hlabel.append (.append (.append (.append (h operator hoperator) (by decide)) hlabels) (by decide))

theorem getLast?_lineAt (place : ChartEntry × Nat) : (lineAt place).getLast? = some (.char '>') := by
  obtain ⟨front, hline, -⟩ := exists_lineAt_eq place
  have hlast := Expression.getLast?_text place.1.expression
  rw [hline, List.getLast?_append, hlast, Option.some_or]

theorem forall_mem_lineAt {p : CodePoint → Prop} (hp : ∀ c : CodePoint, c.isGraphic → p c) {place : ChartEntry × Nat}
    (h : ∀ operator ∈ place.1.operator?, operator.IsGraphic) :
    (∀ c ∈ lineAt place, p c) ↔ ∀ c ∈ place.1.expression.text, p c := by
  obtain ⟨front, hline, hfront⟩ := exists_lineAt_eq place
  rw [hline, List.forall_mem_append]
  exact and_iff_right ((hfront h).forall_mem hp)

section Listing
variable (entry : ChartEntry)

theorem mem_listing_iff {line : Text} :
    line ∈ entry.listing ↔ ∃ place ∈ entry.postorder.zipIdx, lineAt place = line := by
  rw [listing, linesFrom_eq_map, List.mem_map]

theorem ne_nil_of_mem_listing : ∀ line ∈ entry.listing, line ≠ [] := by
  intro line hline
  obtain ⟨place, -, rfl⟩ := (mem_listing_iff entry).mp hline
  exact fun hnil => nomatch (hnil ▸ getLast?_lineAt place : ([] : Text).getLast? = some (.char '>'))

theorem endsInLine_of_mem_listing : ∀ line ∈ entry.listing, line.EndsInLine := by
  intro line hline
  obtain ⟨place, -, rfl⟩ := (mem_listing_iff entry).mp hline
  intro c hc
  obtain rfl : .char '>' = c := Option.some.inj ((getLast?_lineAt place).symm.trans hc)
  decide

theorem isListedBy_listing : entry.IsListedBy entry.listing := by
  refine ⟨length_linesFrom 0 entry, fun number line hline => ?_⟩
  rw [listing_eq_map, List.getElem?_map, List.getElem?_zipIdx, Option.map_map, Option.map_eq_some_iff] at hline
  obtain ⟨row, -, rfl⟩ := hline
  rw [Function.comp_apply, Nat.zero_add]
  exact List.prefix_append _ _

/-- The lines of the document are those of the listing, each cut where a line ends in it. -/
theorem derivationLines_eq : CommandLine.derivationLines entry = entry.listing.flatMap Text.lines :=
  Text.lines_join (ne_nil_of_mem_listing entry) (endsInLine_of_mem_listing entry)

end Listing

theorem forall_mem_listing_iff {p : CodePoint → Prop} (hp : ∀ c : CodePoint, c.isGraphic → p c) {entry : ChartEntry}
    (h : ∀ node ∈ entry.nodes, ∀ operator ∈ node.operator?, operator.IsGraphic) :
    (∀ line ∈ entry.listing, ∀ c ∈ line, p c) ↔ ∀ node ∈ entry.nodes, ∀ c ∈ node.expression.text, p c := by
  have hplace (place : ChartEntry × Nat) (hmem : place ∈ entry.postorder.zipIdx) :
      (∀ c ∈ lineAt place, p c) ↔ ∀ c ∈ place.1.expression.text, p c :=
    forall_mem_lineAt hp (h place.1 ((postorder_perm_nodes entry).mem_iff.mp (List.fst_mem_of_mem_zipIdx hmem)))
  calc (∀ line ∈ entry.listing, ∀ c ∈ line, p c)
      ↔ ∀ place ∈ entry.postorder.zipIdx, ∀ c ∈ place.1.expression.text, p c := by
        rw [listing, linesFrom_eq_map, List.forall_mem_map]
        exact forall₂_congr hplace
    _ ↔ ∀ node ∈ entry.postorder.zipIdx.map Prod.fst, ∀ c ∈ node.expression.text, p c := by
        rw [List.forall_mem_map]
    _ ↔ ∀ node ∈ entry.postorder, ∀ c ∈ node.expression.text, p c := by rw [List.zipIdx_map_fst]
    _ ↔ ∀ node ∈ entry.nodes, ∀ c ∈ node.expression.text, p c :=
        forall_congr' fun node => imp_congr_left (postorder_perm_nodes entry).mem_iff

theorem isInherited_operator (categories : PhraseCategories) :
    IsInherited categories fun e => ∀ operator ∈ e.operator?, operator ∈ Operation.names := by
  constructor
  · exact fun _ _ _ h => nomatch h
  · intro name operator entry result counters counters' hop _ hr
    obtain ⟨-, expression, nextIndex, -, rfl, -⟩ := applyUnary?_eq_some_iff.mp hr
    exact fun _ h => Option.some.inj h ▸ Operation.mem_names_of_mem_unary hop
  · intro name operator first second result counters counters' hop _ _ hr
    obtain ⟨-, expression, -, rfl, -⟩ := applyBinary?_eq_some_iff.mp hr
    exact fun _ h => Option.some.inj h ▸ Operation.mem_names_of_mem_binary hop

end ChartEntry

namespace Parsing
variable {setting : Setting} {counters : Counters} {text : Text} {e : ChartEntry}

/-- The lines of a derivation are written with the characters of the items of the text. -/
theorem forall_mem_listing_iff {p : CodePoint → Prop} (hp : ∀ c : CodePoint, c.isGraphic → p c)
    (h : Outcome.entry? (setting.parse text counters) = some e) :
    (∀ line ∈ e.listing, ∀ c ∈ line, p c) ↔
      ∀ item ∈ itemsOf setting.grammar (tokenize text), ∀ s ∈ item.inscriptions, ∀ c ∈ s, p c := by
  have hnames : ∀ name ∈ Operation.names, name.IsGraphic := by decide
  have hoperators := inherits_of_parse h (ChartEntry.isInherited_operator setting.categories).forall_nodes
  exact (ChartEntry.forall_mem_listing_iff hp fun node hnode operator ho =>
    hnames _ (hoperators node hnode operator ho)).trans (forall_mem_text_of_parse hp h)

theorem eq_parse_of_attempt {l : Lexicon} {categories : PhraseCategories} {o : Outcome}
    (h : attempt l categories text counters = .ok o) : o = Setting.parse ⟨l.grammar, categories⟩ text counters := by
  rcases attempt_cases l categories text with hparse | hbroken
  · exact Except.ok.inj (h.symm.trans (hparse counters))
  · obtain ⟨i, hi⟩ := hbroken counters
    cases h.symm.trans hi

end Parsing

namespace CommandLine
variable {files : Files} {grammar? : Option Text} {sentence : Text} {lexicon : Lexicon} {o : Parsing.Outcome}
  {entry : ChartEntry}

def ShowsDerivation (text : Text) (lines : List Text) : Prop :=
  ∃ members : List (Text × Json), text = (Json.obj members).compact ++ ("\n" : Text) ∧
    Json.member? members "derivation" = some (.strings lines)

theorem showsDerivation_runParse (hgrammar : (loadGrammar files grammar?).2 = .ok lexicon)
    (hparse : Parsing.attempt lexicon {} sentence {} = .ok o) (hentry : o.entry? = some entry) :
    ShowsDerivation (runParse files grammar? sentence true true).1.stdout (derivationLines entry) := by
  obtain ⟨log, hload⟩ : ∃ log, loadGrammar files grammar? = (log, .ok lexicon) := ⟨_, Prod.ext rfl hgrammar⟩
  have hstdout : (runParse files grammar? sentence true true).1.stdout = (parseDocument o true).compact ++ "\n" := by
    unfold runParse
    simp [hload, hparse]
  refine ⟨_, hstdout, ?_⟩
  rw [hentry]
  rfl

theorem showsDerivation_runEval {model? : Option Text} {assignments : List (Option Text)} {m : Model} {value : Bool}
    (hboth : (loadBoth files grammar? model? assignments).2 = .ok (lexicon, m))
    (hparse : Parsing.attempt lexicon {} sentence {} = .ok o) (hentry : o.entry? = some entry)
    (hvalue : m.evaluate entry.expression.meaning = .ok value) (expected? : Option Bool) :
    ShowsDerivation (runEval files grammar? model? sentence assignments expected? true true).1.stdout
      (derivationLines entry) := by
  obtain ⟨log, hload⟩ : ∃ log, loadBoth files grammar? model? assignments = (log, .ok (lexicon, m)) :=
    ⟨_, Prod.ext rfl hboth⟩
  have hstdout : (runEval files grammar? model? sentence assignments expected? true true).1.stdout =
      (evaluationDocument sentence entry value expected? true).compact ++ "\n" := by
    unfold runEval showEvaluation
    simp [hload, hparse, hentry, hvalue]
  refine ⟨_, hstdout, ?_⟩
  cases expected? <;> rfl

theorem exists_document_of_loadGrammar (h : (loadGrammar files grammar?).2 = .ok lexicon) :
    ∃ document, Lexicon.ofDocument document = .ok lexicon := by
  cases grammar? with
  | none => cases h
  | some path =>
    have hloaded : (files.loadGrammar path).2.mapError Obstacle.ofLoad = .ok lexicon := h
    cases hfile : (files.loadGrammar path).2 with
    | error e =>
      rw [hfile] at hloaded
      cases hloaded
    | ok l =>
      rw [hfile] at hloaded
      obtain rfl : l = lexicon := Except.ok.inj hloaded
      obtain ⟨document, -, hdocument⟩ := Files.exists_of_loadGrammar hfile
      exact ⟨document, hdocument⟩

theorem isUnbroken_category_of_loadGrammar (h : (loadGrammar files grammar?).2 = .ok lexicon) :
    ∀ item ∈ lexicon.grammar.items, ∀ f ∈ item.features, f.category.IsUnbroken := by
  obtain ⟨document, hdocument⟩ := exists_document_of_loadGrammar h
  intro item hitem f hf c hc hend
  exact (Lexicon.isWritable_of_ofDocument hdocument item hitem f hf).2 c hc (Text.isBlank_of_isLineEnd hend)

theorem isUnbroken_inscriptions_iff (h : (loadGrammar files grammar?).2 = .ok lexicon) :
    (∀ item ∈ Parsing.itemsOf lexicon.grammar (tokenize sentence), ∀ s ∈ item.inscriptions, s.IsUnbroken) ↔
      ∀ s ∈ (Parsing.itemsOf lexicon.grammar (tokenize sentence)).flatMap fun item =>
        item.token :: item.meaning.inscriptions, s.IsUnbroken := by
  rw [List.forall_mem_flatMap]
  refine forall₂_congr fun item hitem => ?_
  have hcategories := isUnbroken_category_of_loadGrammar h item (Parsing.mem_items_of_mem_itemsOf hitem)
  rw [LexicalItem.inscriptions, List.forall_mem_cons, List.forall_mem_append, List.forall_mem_map, List.forall_mem_cons]
  exact and_congr_right' (and_iff_right hcategories)

/-- Parsing and evaluating an accepted sentence put out the same lines for its derivation. These are one for each
entry, with the label of its number, exactly if no line ends in a token, in a constant, or in what else stands in the
meaning of an item of the sentence; in a category none ever does. Otherwise there are more lines than entries. -/
theorem derivationLines_of_accepted (hgrammar : (loadGrammar files grammar?).2 = .ok lexicon)
    (hparse : Parsing.attempt lexicon {} sentence {} = .ok o) (hentry : o.entry? = some entry) :
    let inscriptions := (Parsing.itemsOf lexicon.grammar (tokenize sentence)).flatMap fun item =>
      item.token :: item.meaning.inscriptions
    ShowsDerivation (runParse files grammar? sentence true true).1.stdout (derivationLines entry) ∧
      (∀ (model? : Option Text) (assignments : List (Option Text)) (m : Model) (value : Bool),
        (loadBoth files grammar? model? assignments).2 = .ok (lexicon, m) →
        m.evaluate entry.expression.meaning = .ok value → ∀ expected? : Option Bool,
          ShowsDerivation (runEval files grammar? model? sentence assignments expected? true true).1.stdout
            (derivationLines entry)) ∧
      (entry.IsListedBy (derivationLines entry) ↔ ∀ s ∈ inscriptions, s.IsUnbroken) ∧
      ((∃ s ∈ inscriptions, ¬s.IsUnbroken) → entry.nodes.length < (derivationLines entry).length) := by
  intro inscriptions
  obtain rfl := Parsing.eq_parse_of_attempt hparse
  have hlines : (∀ line ∈ entry.listing, line.IsUnbroken) ↔ ∀ s ∈ inscriptions, s.IsUnbroken :=
    (Parsing.forall_mem_listing_iff (fun _ => CodePoint.not_isLineEnd_of_isGraphic) hentry).trans
      (isUnbroken_inscriptions_iff hgrammar)
  have hmore (hbroken : ∃ s ∈ inscriptions, ¬s.IsUnbroken) :
      entry.nodes.length < (derivationLines entry).length := by
    have hline : ∃ line ∈ entry.listing, ¬line.IsUnbroken := by
      by_contra hall
      obtain ⟨s, hs, hbroken⟩ := hbroken
      exact hbroken (hlines.mp (by simpa using hall) s hs)
    rw [ChartEntry.derivationLines_eq, ← (ChartEntry.isListedBy_listing entry).length_eq]
    exact Text.length_lt_length_flatMap_lines (ChartEntry.ne_nil_of_mem_listing entry)
      (ChartEntry.endsInLine_of_mem_listing entry) hline
  refine ⟨showsDerivation_runParse hgrammar hparse hentry, fun model? assignments m value hboth hvalue expected? =>
    showsDerivation_runEval hboth hparse hentry hvalue expected?, ⟨fun h => ?_, fun h => ?_⟩, hmore⟩
  · by_contra hbroken
    exact absurd h.length_eq (Nat.ne_of_gt (hmore (by simpa using hbroken)))
  · rw [ChartEntry.derivationLines_eq,
      Text.flatMap_lines_eq_self (ChartEntry.ne_nil_of_mem_listing entry) (hlines.mpr h)]
    exact ChartEntry.isListedBy_listing entry

/-- Tokens of any script, a constant with a space at which no line breaks, and an evaluation. -/
theorem derivationLines_of_accepted_unbroken :
    let g : Grammar := ⟨[⟨"спит", [⟨.licensor, "d"⟩, ⟨.licensee, "v"⟩], .const "sleep"⟩,
      ⟨"ε♠", [⟨.licensee, "d"⟩], .const "a\u00a0b"⟩], .ofList ["v"]⟩
    let m : Model := ⟨[.text "a\u00a0b"], [.text "e"], ∅, .ofList [("sleep", .ofList [.text "e"])],
      .ofList [("ext", .ofList [⟨.text "e", .text "a\u00a0b"⟩])]⟩
    let files : Files := fun path => .text (if path = "g.json" then g.lexicon.toDocument else m.document).indented
    ∃ (entry : ChartEntry) (lines : List Text), entry.nodes.length = 5 ∧ entry.IsListedBy lines ∧
      ShowsDerivation (runParse files (some "g.json") "спит ε♠" true true).1.stdout lines ∧
      ShowsDerivation
        (runEval files (some "g.json") (some "m.json") "спит ε♠" [] (some false) true true).1.stdout lines := by
  intro g m files
  have hgrammar : (loadGrammar files (some "g.json")).2 = .ok g.lexicon :=
    eq_ok_of_toOption_eq_some (by decide +kernel)
  have hboth : (loadBoth files (some "g.json") (some "m.json") []).2 = .ok (g.lexicon, m) :=
    eq_ok_of_toOption_eq_some (by decide +kernel)
  have hshape : ((Parsing.attempt g.lexicon {} "спит ε♠" {}).toOption.bind fun o => o.entry?).map
      (fun entry => (entry.nodes.length, (m.evaluate entry.expression.meaning).toOption)) = some (5, some false) := by
    decide +kernel
  obtain ⟨entry, hentry, hshape⟩ := Option.map_eq_some_iff.mp hshape
  obtain ⟨o, ho, hentry⟩ := Option.bind_eq_some_iff.mp hentry
  obtain ⟨hlength, hvalue⟩ := Prod.mk.inj hshape
  obtain ⟨hparse, heval, hlisted, -⟩ :=
    derivationLines_of_accepted hgrammar (eq_ok_of_toOption_eq_some ho) hentry
  refine ⟨entry, derivationLines entry, hlength, hlisted.mpr (by decide +kernel), hparse, ?_⟩
  exact heval (some "m.json") [] m false hboth (eq_ok_of_toOption_eq_some hvalue) (some false)

/-- A line separator in a token breaks four of the five lines of a derivation. -/
theorem exists_derivation_not_listed :
    let g : Grammar := ⟨[⟨"saw", [⟨.licensor, "d"⟩, ⟨.licensee, "c"⟩], .const "saw"⟩,
      ⟨"he\u2028", [⟨.licensee, "d"⟩], .var 1⟩], .ofList ["c"]⟩
    let files : Files := fun _ => .text g.lexicon.toDocument.indented
    let lines : List Text := ["e0 = <he", "::-d = x_1, \x7b\x7d>", "e1 = <saw::+d -c = saw, \x7b\x7d>",
      "e2 = insert(e0, e1) = <saw::+d -c = saw, \x7b<he", "::-d = x_1, \x7b\x7d>\x7d>",
      "e3 = merge_comp(e2) = <saw:-c = saw, he", " d = x_1, \x7b\x7d>", "e4 = spellout(e3) = <he",
      ":-c = x_1, \x7b\x7d>"]
    ∃ (o : Parsing.Outcome) (entry : ChartEntry), (loadGrammar files (some "g.json")).2 = .ok g.lexicon ∧
      Parsing.attempt g.lexicon {} "saw he\u2028" {} = .ok o ∧ o.entry? = some entry ∧
      ShowsDerivation (runParse files (some "g.json") "saw he\u2028" true true).1.stdout lines ∧
      entry.nodes.length = 5 ∧ ¬entry.IsListedBy lines := by
  intro g files lines
  have hgrammar : (loadGrammar files (some "g.json")).2 = .ok g.lexicon :=
    eq_ok_of_toOption_eq_some (by decide +kernel)
  have hshape : ((Parsing.attempt g.lexicon {} "saw he\u2028" {}).toOption.bind fun o => o.entry?).map
      (fun entry => (entry.nodes.length, derivationLines entry)) = some (5, lines) := by decide +kernel
  obtain ⟨entry, hentry, hshape⟩ := Option.map_eq_some_iff.mp hshape
  obtain ⟨o, ho, hentry⟩ := Option.bind_eq_some_iff.mp hentry
  obtain ⟨hlength, hlines⟩ := Prod.mk.inj hshape
  have hparse := eq_ok_of_toOption_eq_some ho
  refine ⟨o, entry, hgrammar, hparse, hentry, hlines ▸ showsDerivation_runParse hgrammar hparse hentry, hlength,
    fun hlisted => ?_⟩
  exact absurd (hlisted.length_eq.trans hlength) (by decide)

end CommandLine

end MinimalistGrammar
