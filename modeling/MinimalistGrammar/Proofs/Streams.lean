import MinimalistGrammar.Proofs.EncodableDocuments

/-! Commands whose output goes to a stream of UTF-8. A print that the stream refuses is an error that nothing handles,
but for what is said of files and assignments. It is refused only if a half of a surrogate pair stands in it, and there
is none if there is none in the grammar and in the model and in what the user gives. -/
namespace MinimalistGrammar
namespace CommandLine

/-- The stream takes the output, or its refusal is handled. -/
def Output.Passes : Output → Prop
  | .out text => text.IsEncodable
  | _ => True

def Transcript.Passes (t : Transcript) : Prop := ∀ output ∈ t, output.Passes

namespace Output

theorem passes_line {text : Text} (h : text.IsEncodable) : (line text).Passes :=
  Text.isEncodable_append.mpr ⟨h, Text.isEncodable_ofString "\n"⟩

theorem passes_document {members : List (Text × Json)} (h : ∀ m ∈ members, m.1.IsEncodable ∧ m.2.IsEncodable) :
    (document (.obj members)).Passes := passes_line (Json.isEncodable_obj.mpr h).compact

theorem passes_error {json : Bool} {message : Text} (h : json → message.IsEncodable) : (error json message).Passes := by
  cases json with
  | false => trivial
  | true =>
    refine passes_document (List.forall_mem_singleton.mpr ⟨Text.isEncodable_ofString "error", ?_⟩)
    exact Json.isEncodable_str.mpr (h rfl)

theorem print_cases (output : Output) : output.print.2 = none ∨ output.print.2 = some (.own .failure) ∨
    ∃ text error, output = .out text ∧ EncodingError.find? (fun _ => false) text = some error ∧
      output.print.2 = some (.refused error) := by
  cases output with
  | out text =>
    rw [print]
    cases herror : EncodingError.find? (fun _ => false) text with
    | none => exact .inl rfl
    | some error => exact .inr (.inr ⟨text, error, rfl, herror, rfl⟩)
  | tried text label goesOn =>
    rw [print]
    cases EncodingError.find? (fun _ => false) text with
    | none => exact .inl rfl
    | some error =>
      cases goesOn with
      | true => exact .inl rfl
      | false => exact .inr (.inl rfl)
  | err text | log line => exact .inl rfl

end Output

namespace Transcript

theorem passes_append {t t' : Transcript} : Passes (t ++ t') ↔ t.Passes ∧ t'.Passes := List.forall_mem_append

theorem passes_cons {output : Output} {t : Transcript} : Passes (output :: t) ↔ output.Passes ∧ t.Passes :=
  List.forall_mem_cons

theorem passes_nil : Passes [] := List.forall_mem_nil _

theorem passes_ofLog (lines : List LogLine) : (ofLog lines).Passes := List.forall_mem_map.mpr fun _ _ => trivial

theorem passes_lines {lines : List Text} (h : ∀ line ∈ lines, line.IsEncodable) : Passes (lines.map .line) :=
  List.forall_mem_map.mpr fun line hline => Output.passes_line (h line hline)

theorem print_cons (output : Output) (rest : Transcript) :
    (print (output :: rest)).2 = output.print.2.or rest.print.2 := by
  rw [print]
  generalize output.print = printed
  obtain ⟨text, ending?⟩ := printed
  cases ending? <;> rfl

/-- If what is printed ends the program, then with a failure that it tells about or with the error of a text that is
printed and that the stream refuses. -/
theorem print_cases (t : Transcript) : t.print.2 = none ∨ t.print.2 = some (.own .failure) ∨
    ∃ text error, .out text ∈ t ∧ EncodingError.find? (fun _ => false) text = some error ∧
      t.print.2 = some (.refused error) := by
  induction t with
  | nil => exact .inl rfl
  | cons output rest ih =>
    rw [print_cons]
    rcases output.print_cases with hnone | hfailure | ⟨text, error, rfl, herror, hrefused⟩
    · rw [hnone, Option.none_or]
      refine ih.imp_right fun h => h.imp_right ?_
      rintro ⟨text, error, hmem, h⟩
      exact ⟨text, error, List.mem_cons_of_mem output hmem, h⟩
    · exact .inr (.inl (by rw [hfailure, Option.some_or]))
    · exact .inr (.inr ⟨text, error, List.mem_cons_self, herror, by rw [hrefused, Option.some_or]⟩)

end Transcript

/-- If a failure is told about, then in a text that can be encoded. -/
def Obstacle.IsEncodable (obstacle : Obstacle) : Prop := ∀ message, obstacle = .failure message → message.IsEncodable

theorem Obstacle.isEncodable_ofLoad (e : LoadError) : (ofLoad e).IsEncodable := by
  intro message h
  cases hmessage : e.message? with
  | none => simp [ofLoad, hmessage] at h
  | some found =>
    rw [ofLoad, hmessage, Option.elim_some, failure.injEq] at h
    exact h ▸ LoadError.isEncodable_message hmessage

theorem Obstacle.isEncodable_ofEvaluation {e : EvaluationError} (he : e.Shows Formula.IsEncodable) :
    (ofEvaluation e).IsEncodable := by
  intro message h
  cases hmessage : e.message? with
  | none => simp [ofEvaluation, hmessage] at h
  | some found =>
    rw [ofEvaluation, hmessage, Option.elim_some, failure.injEq] at h
    exact h ▸ he.isEncodable_message hmessage

theorem Obstacle.IsEncodable.passes_conclude {obstacle : Obstacle} (h : obstacle.IsEncodable) {before : Transcript}
    (hbefore : before.Passes) {tell : Text → Output}
    (htell : ∀ message : Text, message.IsEncodable → (tell message).Passes) :
    (obstacle.conclude before tell).1.Passes := by
  cases obstacle with
  | failure message =>
    exact Transcript.passes_append.mpr ⟨hbefore, List.forall_mem_singleton.mpr (htell message (h message rfl))⟩
  | defect d => exact hbefore

section Documents

def IsEncodableMember (m : Text × Json) : Prop := m.1.IsEncodable ∧ m.2.IsEncodable

theorem isEncodableMember_str (key : String) {s : Text} (h : s.IsEncodable) : IsEncodableMember (key, .str s) :=
  ⟨Text.isEncodable_ofString key, Json.isEncodable_str.mpr h⟩

theorem isEncodableMember_strings (key : String) {items : List Text} (h : ∀ s ∈ items, s.IsEncodable) :
    IsEncodableMember (key, .strings items) :=
  ⟨Text.isEncodable_ofString key, Json.isEncodable_strings.mpr h⟩

theorem isEncodableMember_of_texts_eq_nil (key : String) {value : Json} (h : value.texts = []) :
    IsEncodableMember (key, value) :=
  ⟨Text.isEncodable_ofString key, fun _ hs => nomatch h ▸ hs⟩

section Entries
variable {e : ChartEntry} (h : e.IsEncodable) (derivation : Bool)
include h

theorem isEncodableMember_derivationMembers : ∀ m ∈ derivationMembers e derivation, IsEncodableMember m := by
  cases derivation with
  | false => exact List.forall_mem_nil _
  | true => exact List.forall_mem_singleton.mpr (isEncodableMember_strings "derivation" h.lines)

theorem isEncodableMember_entryMembers : ∀ m ∈ entryMembers e derivation, IsEncodableMember m :=
  List.forall_mem_cons.mpr ⟨isEncodableMember_str "phon" h.phon, List.forall_mem_cons.mpr
    ⟨isEncodableMember_str "meaning" h.meaning.text, isEncodableMember_derivationMembers h derivation⟩⟩

theorem passes_evaluationDocument {sentence : Text} (hsentence : sentence.IsEncodable) (value : Bool)
    (expected? : Option Bool) :
    (Output.document (evaluationDocument sentence e value expected? derivation)).Passes := by
  have hcomparison (isEqual : Bool) : (comparisonWord isEqual).IsEncodable := by
    cases isEqual <;> exact Text.isEncodable_ofString _
  refine Output.passes_document (List.forall_mem_flatten.mpr (List.forall_mem_cons.mpr ⟨?_, List.forall_mem_cons.mpr
    ⟨?_, List.forall_mem_singleton.mpr (isEncodableMember_derivationMembers h derivation)⟩⟩))
  · simp only [List.forall_mem_cons, List.not_mem_nil, false_implies, implies_true, and_true]
    exact ⟨isEncodableMember_str "input" hsentence, isEncodableMember_str "meaning" h.meaning.text,
      isEncodableMember_of_texts_eq_nil "value" rfl⟩
  · cases expected? with
    | none => exact List.forall_mem_nil _
    | some expected =>
      exact List.forall_mem_cons.mpr ⟨isEncodableMember_of_texts_eq_nil "expected" rfl, List.forall_mem_singleton.mpr
        (isEncodableMember_str "status" (hcomparison _))⟩

theorem passes_evaluationLines (value : Bool) (expected? : Option Bool) :
    (evaluationLines e value expected? derivation).Passes := by
  have hword (text : String) : (Output.line text).Passes := Output.passes_line (Text.isEncodable_ofString text)
  have hlisting : Transcript.Passes (if derivation then [.line e.listingText] else []) := by
    cases derivation with
    | false => exact Transcript.passes_nil
    | true => exact List.forall_mem_singleton.mpr (Output.passes_line h.listing)
  refine Transcript.passes_append.mpr ⟨Transcript.passes_append.mpr ⟨hlisting, ?_⟩, ?_⟩
  · refine Transcript.passes_cons.mpr ⟨Output.passes_line h.meaning.text, List.forall_mem_singleton.mpr ?_⟩
    cases value <;> exact hword _
  · cases expected? with
    | none => exact Transcript.passes_nil
    | some expected =>
      refine List.forall_mem_singleton.mpr ?_
      unfold comparisonWord
      split <;> exact hword _

end Entries

section Outcomes
variable {o : Parsing.Outcome}

theorem passes_parseDocument (h : ∀ e : ChartEntry, o.entry? = some e → e.IsEncodable) (derivation : Bool)
    (htext : o.text.IsEncodable) (htokens : ∀ token ∈ o.tokens, token.IsEncodable)
    (hunknown : ∀ token ∈ o.unknown, token.IsEncodable) : (Output.document (parseDocument o derivation)).Passes := by
  refine Output.passes_document (List.forall_mem_flatten.mpr (List.forall_mem_cons.mpr ⟨?_, List.forall_mem_cons.mpr
    ⟨?_, List.forall_mem_singleton.mpr ?_⟩⟩))
  · have hstatus : Text.IsEncodable (if o.isAccepted then "ACCEPTED" else "NO_PARSE") := by
      split <;> exact Text.isEncodable_ofString _
    simp only [List.forall_mem_cons, List.not_mem_nil, false_implies, implies_true, and_true]
    exact ⟨isEncodableMember_str "status" hstatus, isEncodableMember_str "input" htext,
      isEncodableMember_strings "tokens" htokens, isEncodableMember_of_texts_eq_nil "chart_size" rfl,
      isEncodableMember_of_texts_eq_nil "steps" rfl⟩
  · cases hentry : o.entry? with
    | none => exact List.forall_mem_nil _
    | some e => exact isEncodableMember_entryMembers (h e hentry) derivation
  · split
    · exact List.forall_mem_nil _
    · exact List.forall_mem_singleton.mpr (isEncodableMember_strings "unknown_tokens" hunknown)

theorem passes_unknownLines : (unknownLines o).Passes := by
  unfold unknownLines
  split
  · exact Transcript.passes_nil
  · have htokens : Text.IsEncodable (Text.join ", " (o.unknown.map quoted)) :=
      (Text.isEncodable_join (Text.isEncodable_ofString ", ")).mpr (List.forall_mem_map.mpr fun token _ =>
        isEncodable_quoted token)
    exact List.forall_mem_singleton.mpr (Output.passes_line (Text.isEncodable_append.mpr
      ⟨Text.isEncodable_ofString _, htokens⟩))

theorem passes_rejection : Transcript.Passes (.line (verdictWord false) :: unknownLines o) :=
  Transcript.passes_cons.mpr ⟨Output.passes_line (Text.isEncodable_ofString _), passes_unknownLines⟩

theorem passes_parseLines (h : ∀ e : ChartEntry, o.entry? = some e → e.IsEncodable) (derivation : Bool) :
    (parseLines o derivation).Passes := by
  unfold parseLines
  split
  · exact passes_rejection
  · rename_i e hentry
    have he := h e hentry
    refine Transcript.passes_append.mpr ⟨?_, ?_⟩
    · simp only [Transcript.passes_cons]
      exact ⟨Output.passes_line (Text.isEncodable_ofString _),
        Output.passes_line (Text.isEncodable_append.mpr ⟨Text.isEncodable_ofString _, he.phon⟩),
        Output.passes_line (Text.isEncodable_append.mpr ⟨Text.isEncodable_ofString _, he.meaning.text⟩),
        Transcript.passes_nil⟩
    · cases derivation with
      | false => exact Transcript.passes_nil
      | true =>
        refine Transcript.passes_cons.mpr ⟨Output.passes_line (Text.isEncodable_ofString _), ?_⟩
        exact List.forall_mem_map.mpr fun line hline =>
          Output.passes_line (Text.isEncodable_append.mpr ⟨Text.isEncodable_ofString _, he.lines line hline⟩)

end Outcomes

end Documents

section Commands
variable {files : Files} {path : Text}

theorem Parsing.texts_of_parse (setting : Parsing.Setting) (text : Text) (counters : Counters) :
    (setting.parse text counters).text = text ∧ (setting.parse text counters).tokens = tokenize text ∧
      (setting.parse text counters).unknown ⊆ tokenize text := by
  unfold Parsing.Setting.parse
  dsimp only
  split
  · exact ⟨rfl, rfl, fun _ h => List.mem_of_mem_filter h⟩
  · split <;> exact ⟨rfl, rfl, List.nil_subset _⟩

theorem passes_runParse (hgrammar : files.HoldsGrammar path) (hdocument : files.HoldsEncodable path) {sentence : Text}
    {json : Bool} (hjson : json → path.IsEncodable ∧ sentence.IsEncodable) (derivation : Bool) :
    (runParse files (some path) sentence derivation json).1.Passes := by
  have hyields := Files.yields_loadGrammar hgrammar
  have hl (l : Lexicon) := hdocument.of_loadGrammar (l := l)
  unfold runParse loadGrammar
  dsimp only [Option.elim_some]
  generalize files.loadGrammar path = loaded at hyields hl
  obtain ⟨log, result⟩ := loaded
  cases result with
  | error e =>
    refine (Obstacle.isEncodable_ofLoad e).passes_conclude (Transcript.passes_ofLog log) fun message hmessage =>
      Output.passes_error fun h => ?_
    simp [hmessage, (hjson h).1]
  | ok l =>
    have hwell : l.IsWellFormed := hyields
    dsimp only [Except.mapError]
    rw [Parsing.attempt_of_isWellFormed hwell]
    dsimp only
    obtain ⟨htext, htokens, hunknown⟩ := Parsing.texts_of_parse ⟨l.grammar, {}⟩ sentence {}
    have hentry (e : ChartEntry)
        (h : Parsing.Outcome.entry? (Parsing.Setting.parse ⟨l.grammar, {}⟩ sentence {}) = some e) : e.IsEncodable :=
      (hl l rfl).of_parse hwell h
    generalize Parsing.Setting.parse ⟨l.grammar, {}⟩ sentence {} = o at htext htokens hunknown hentry
    refine Transcript.passes_append.mpr ⟨Transcript.passes_append.mpr ⟨Transcript.passes_ofLog _, ?_⟩,
      List.forall_mem_singleton.mpr trivial⟩
    cases json with
    | false => exact passes_parseLines hentry derivation
    | true =>
      have hsentence := (hjson rfl).2
      have htokenize : ∀ token ∈ tokenize sentence, token.IsEncodable := fun _ =>
        Text.isEncodable_of_mem_splitOn hsentence
      refine List.forall_mem_singleton.mpr (passes_parseDocument hentry derivation (htext ▸ hsentence) ?_ ?_)
      · exact htokens ▸ htokenize
      · exact fun token ht => htokenize token (hunknown ht)

theorem failsOnly_isEncodable_assignGiven (given : List (Option Text)) (m : Model) :
    Model.FailsOnly Obstacle.IsEncodable (assignGiven m given) := by
  induction given generalizing m with
  | nil => exact Model.failsOnly_ok m
  | cons text? given ih =>
    refine Model.FailsOnly.bind ?_ fun next => ih next
    cases text? with
    | none => exact fun _ h => nomatch h
    | some text =>
      cases hassign : m.assignText text with
      | error e =>
        simp only [Option.elim_some, hassign]
        exact fun _ h => Obstacle.failure.inj h ▸ e.isEncodable_message
      | ok next =>
        simp only [Option.elim_some, hassign]
        trivial

theorem yields_isEncodable_loadBoth (hgrammar : files.HoldsGrammar path) (hdocument : files.HoldsEncodable path)
    (model : Text) (assignments : List (Option Text)) :
    Yields (fun both => both.1.IsWellFormed ∧ both.1.IsEncodable) Obstacle.IsEncodable
      (loadBoth files (some path) (some model) assignments).2 := by
  have hlexicon : Yields (fun l => l.IsWellFormed ∧ l.IsEncodable) Obstacle.IsEncodable
      (loadGrammar files (some path)).2 := by
    have hyields := Files.yields_loadGrammar hgrammar
    have hgives : Yields (fun l => l.IsWellFormed ∧ l.IsEncodable) (fun _ => True) (files.loadGrammar path).2 :=
      .of_forall_eq_ok fun l h => ⟨hyields.gives h, hdocument.of_loadGrammar h⟩
    exact hgives.mapError fun e _ => Obstacle.isEncodable_ofLoad e
  have hmodel : Model.FailsOnly Obstacle.IsEncodable (loadModel files (some model)).2 :=
    (Yields.trivially (files.loadModel model).2).mapError fun e _ => Obstacle.isEncodable_ofLoad e
  unfold loadBoth
  generalize loadGrammar files (some path) = loaded at hlexicon
  obtain ⟨log, result⟩ := loaded
  cases result with
  | error obstacle => exact hlexicon
  | ok l =>
    refine Yields.bind hmodel fun m _ => ?_
    exact Yields.bind (failsOnly_isEncodable_assignGiven assignments m) fun _ _ => hlexicon

theorem passes_showEvaluation {sentence : Text} (m : Model) {entry : ChartEntry} (hentry : entry.IsEncodable)
    (expected? : Option Bool) (derivation : Bool) {json : Bool} (hjson : json → sentence.IsEncodable) :
    (showEvaluation sentence m entry expected? derivation json).1.Passes := by
  have hfails := Model.failsOnly_shows Formula.isHereditary_isEncodable hentry.meaning m (.truth true)
  have hlog := Transcript.passes_ofLog (LogLine.ofEvaluation m entry.expression.meaning)
  unfold showEvaluation
  dsimp only
  split
  · rename_i e herror
    refine (Obstacle.isEncodable_ofEvaluation (hfails.fails_of_eq_error herror)).passes_conclude hlog
      fun message hmessage => Output.passes_error fun _ => ?_
    simp [hmessage, hentry.meaning.text]
  · rename_i value _
    refine Transcript.passes_append.mpr ⟨Transcript.passes_append.mpr ⟨hlog, ?_⟩, List.forall_mem_singleton.mpr trivial⟩
    cases json with
    | false => exact passes_evaluationLines hentry derivation value expected?
    | true =>
      exact List.forall_mem_singleton.mpr (passes_evaluationDocument hentry derivation (hjson rfl) value expected?)

theorem passes_runEval (hgrammar : files.HoldsGrammar path) (hdocument : files.HoldsEncodable path) (model : Text)
    (assignments : List (Option Text)) {sentence : Text} {json : Bool} (hjson : json → sentence.IsEncodable)
    (expected? : Option Bool) (derivation : Bool) :
    (runEval files (some path) (some model) sentence assignments expected? derivation json).1.Passes := by
  have hboth := yields_isEncodable_loadBoth hgrammar hdocument model assignments
  unfold runEval
  generalize loadBoth files (some path) (some model) assignments = loaded at hboth
  obtain ⟨log, result⟩ := loaded
  cases result with
  | error obstacle =>
    exact hboth.passes_conclude (Transcript.passes_ofLog log) fun message hmessage =>
      Output.passes_error fun _ => hmessage
  | ok both =>
    obtain ⟨l, m⟩ := both
    obtain ⟨hwell, hl⟩ : l.IsWellFormed ∧ l.IsEncodable := hboth
    dsimp only
    rw [Parsing.attempt_of_isWellFormed hwell]
    dsimp only
    split
    · refine Transcript.passes_append.mpr ⟨Transcript.passes_ofLog _, List.forall_mem_singleton.mpr ?_⟩
      exact Output.passes_error fun _ => by simp
    · rename_i entry hentry
      exact Transcript.passes_append.mpr ⟨Transcript.passes_ofLog _,
        passes_showEvaluation m (hl.of_parse hwell hentry) expected? derivation hjson⟩

end Commands

section Sessions
variable {files : Files}

structure Session.IsEncodable (s : Session) : Prop where
  lexicon : s.lexicon.IsEncodable
  model : s.model.IsEncodable
  assignsEntities : s.model.AssignsEntities

/-- The output of the answer passes, and so does what can be said of a session that goes on. -/
structure Session.Answer.IsEncodable (a : Session.Answer) : Prop where
  passes : a.transcript.Passes
  next : ∀ s, a.next = .go s → s.IsEncodable

namespace Session
variable {s : Session}

theorem isEncodable_empty : IsEncodable {} where
  lexicon := by decide
  model := by decide
  assignsEntities := List.forall_mem_nil _

theorem IsEncodable.go (h : s.IsEncodable) {t : Transcript} (ht : t.Passes) : Answer.IsEncodable ⟨t, .go s⟩ where
  passes := ht
  next _ hnext := Next.go.inj hnext ▸ h

theorem isEncodable_stop {t : Transcript} (ht : t.Passes) (ending : Ending) : Answer.IsEncodable ⟨t, .stop ending⟩ where
  passes := ht
  next _ hnext := nomatch hnext

theorem IsEncodable.say (h : s.IsEncodable) {lines : List Text} (hlines : ∀ line ∈ lines, line.IsEncodable) :
    (s.say lines).IsEncodable := h.go (Transcript.passes_lines hlines)

theorem IsEncodable.sayOne (h : s.IsEncodable) {line : Text} (hline : line.IsEncodable) : (s.say [line]).IsEncodable :=
  h.say (List.forall_mem_singleton.mpr hline)

theorem IsEncodable.meet (h : s.IsEncodable) {before : Transcript} (hbefore : before.Passes) {tell : Text → Output}
    (htell : ∀ message : Text, message.IsEncodable → (tell message).Passes) {obstacle : Obstacle}
    (hobstacle : obstacle.IsEncodable) : (s.meet before tell obstacle).IsEncodable := by
  cases obstacle with
  | failure message =>
    refine h.go (Transcript.passes_append.mpr ⟨hbefore, List.forall_mem_singleton.mpr ?_⟩)
    exact htell message (hobstacle message rfl)
  | defect d => exact isEncodable_stop hbefore (.defect d)

section Listing

theorem IsEncodable.list (h : s.IsEncodable) {lines : List (Option Text)}
    (hlines : ∀ line? ∈ lines, ∀ line ∈ line?, line.IsEncodable) : (s.list lines).IsEncodable := by
  have hpasses : Transcript.Passes ((lines.takeWhile Option.isSome).filterMap fun line? => line?.map .line) := by
    intro output houtput
    obtain ⟨line?, hline, hmade⟩ := List.mem_filterMap.mp houtput
    obtain ⟨line, hline', rfl⟩ := Option.map_eq_some_iff.mp hmade
    exact Output.passes_line (hlines line? ((List.takeWhile_sublist _).mem hline) line hline')
  unfold Session.list
  split
  · exact h.go hpasses
  · exact isEncodable_stop hpasses _

theorem isEncodable_listing? {label : Text} (hlabel : label.IsEncodable) {names : List Name}
    (hnames : ∀ name ∈ names, name.IsEncodable) : ∀ line ∈ listing? label names, line.IsEncodable := by
  intro line hline
  obtain ⟨texts, htexts, rfl⟩ := Option.map_eq_some_iff.mp hline
  have hjoined : Text.IsEncodable (Text.join ", " texts) := by
    refine (Text.isEncodable_join (Text.isEncodable_ofString ", ")).mpr fun s hs => ?_
    obtain ⟨name, hname, htext⟩ := exists_of_mem_mapM htexts hs
    exact hnames name hname s htext
  simp [hlabel, hjoined]

theorem isEncodable_lexiconLines {l : Lexicon} (h : l.IsEncodable) (hl : l.IsWellFormed) :
    ∀ line? ∈ lexiconLines l, ∀ line ∈ line?, line.IsEncodable := by
  obtain ⟨hsymbols, hitems⟩ := List.forall_mem_append.mp h
  refine List.forall_mem_cons.mpr ⟨isEncodable_listing? (Text.isEncodable_ofString _) fun name hname s hs => ?_,
    List.forall_mem_cons.mpr ⟨?_, List.forall_mem_map.mpr fun entry hentry => ?_⟩⟩
  · exact hsymbols s (SortedSet.mem_elements.mpr (SortedSet.mem_ofList.mpr (List.mem_filterMap.mpr ⟨name, hname, hs⟩)))
  · rintro line ⟨⟩
    simp
  · rintro line ⟨⟩
    obtain ⟨item, rfl, hmeaning⟩ := LexicalEntry.exists_of_isWellFormed (hl.1 entry hentry)
    have hitem : item ∈ l.grammar.items := List.mem_filterMap.mpr ⟨_, hentry, LexicalEntry.item?_ofItem item⟩
    obtain ⟨htoken, hrest⟩ := List.forall_mem_cons.mp (List.forall_mem_flatMap.mp hitems item hitem)
    obtain ⟨hcategories, hnames⟩ := List.forall_mem_append.mp hrest
    have hfeatures := Feature.isEncodable_listText.mpr (List.forall_mem_map.mp hcategories)
    have htext := (Formula.isEncodable_text hmeaning).mpr hnames
    simp [LexicalEntry.text, LexicalEntry.ofItem, StatedFeatures.text, Json.plain, Json.Scalar.plain, htoken, hfeatures,
      htext]

theorem isEncodable_plain {name : Name} (htext : name.isText) (h : name.IsEncodable) : name.plain.IsEncodable := by
  obtain ⟨s, rfl⟩ := Name.exists_of_isText htext
  exact h s rfl

theorem isEncodable_assignmentsLine {m : Model} (hassigns : m.AssignsEntities)
    (htexts : ∀ name ∈ m.entities, name.isText) (h : ∀ name ∈ m.entities, name.IsEncodable) :
    (assignmentsLine m).IsEncodable := by
  refine Text.isEncodable_append.mpr ⟨Text.isEncodable_ofString _, ?_⟩
  refine (Text.isEncodable_join (Text.isEncodable_ofString ", ")).mpr (List.forall_mem_map.mpr fun a ha => ?_)
  obtain ⟨entity, hentity, hsame⟩ := List.any_eq_true.mp (hassigns a ha)
  obtain ⟨s, rfl⟩ := Name.exists_of_isText (htexts entity hentity)
  have hvalue := isEncodable_plain (htexts _ hentity) (h _ hentity)
  rw [← Name.same_text_iff.mp hsame] at hvalue
  simp [hvalue]

theorem isEncodable_relationLine {name : Text} (hname : name.IsEncodable) {pairs : SortedSet Participation}
    (htexts : ∀ p ∈ pairs.elements, p.event.isText ∧ p.bearer.isText)
    (h : ∀ p ∈ pairs.elements, p.event.IsEncodable ∧ p.bearer.IsEncodable) :
    (relationLine name pairs).IsEncodable := by
  refine Text.isEncodable_append.mpr ⟨by simp [hname], ?_⟩
  refine (Text.isEncodable_join (Text.isEncodable_ofString ", ")).mpr (List.forall_mem_map.mpr fun p hp => ?_)
  have hevent := isEncodable_plain (htexts p hp).1 (h p hp).1
  have hbearer := isEncodable_plain (htexts p hp).2 (h p hp).2
  simp [hevent, hbearer]

theorem isEncodable_modelLines {m : Model} (h : m.IsEncodable) (hm : m.IsTextual) (hassigns : m.AssignsEntities) :
    ∀ line? ∈ modelLines m, ∀ line ∈ line?, line.IsEncodable := by
  obtain ⟨hentities, hevents, hpredicates, hrelations⟩ := Model.isEncodable_iff.mp h
  obtain ⟨htexts, -, -, hpairs⟩ := Model.isTextual_iff.mp hm
  rw [modelLines, if_pos hm.hasOrder]
  refine List.forall_mem_flatten.mpr ?_
  simp only [List.forall_mem_cons, List.not_mem_nil, false_implies, implies_true, and_true]
  refine ⟨⟨isEncodable_listing? (Text.isEncodable_ofString _) hentities,
    isEncodable_listing? (Text.isEncodable_ofString _) hevents⟩, ?_, ?_, ?_, ?_⟩
  · split
    · exact List.forall_mem_nil _
    · refine List.forall_mem_singleton.mpr ?_
      rintro line ⟨⟩
      exact isEncodable_assignmentsLine hassigns htexts hentities
  · rintro line ⟨⟩
    simp
  · refine List.forall_mem_map.mpr fun entry hentry => isEncodable_listing? ?_ (hpredicates entry hentry).2
    simp [(hpredicates entry hentry).1]
  · refine List.forall_mem_map.mpr fun entry hentry => ?_
    rintro line ⟨⟩
    exact isEncodable_relationLine (hrelations entry hentry).1 (hpairs entry hentry) (hrelations entry hentry).2

end Listing

theorem IsEncodable.answerDerivation (h : s.IsEncodable) (value : Text) : (s.answerDerivation value).IsEncodable := by
  have hset (shows : Bool) : IsEncodable { s with showsDerivation := shows } :=
    ⟨h.lexicon, h.model, h.assignsEntities⟩
  unfold Session.answerDerivation
  dsimp only
  split
  · exact (hset true).sayOne (Text.isEncodable_ofString _)
  · split
    · exact (hset false).sayOne (Text.isEncodable_ofString _)
    · exact h.sayOne (Text.isEncodable_ofString _)

theorem IsEncodable.answerAssign (h : s.IsEncodable) (arguments : Text) : (s.answerAssign arguments).IsEncodable := by
  unfold Session.answerAssign
  split
  · split
    · rename_i e _
      exact h.sayOne (by simp [e.isEncodable_message])
    · rename_i a _
      split
      · rename_i hentity
        have hnext : IsEncodable { s with model := s.model.assign a.index (.text a.entity) } :=
          ⟨h.lexicon, h.model, h.assignsEntities.assign a.index hentity⟩
        exact hnext.go (List.forall_mem_singleton.mpr trivial)
      · exact h.sayOne (by simp)
  · exact h.sayOne (Text.isEncodable_ofString _)

theorem IsEncodable.yields_load (hfiles : ∀ path, files.HoldsEncodable path) (h : s.IsEncodable) (path : Text)
    (kind : FileKind) : Yields IsEncodable (fun _ => True) (load files s path kind).2 := by
  cases kind with
  | grammar =>
    have hyields : Yields Lexicon.IsEncodable (fun _ => True) (files.loadGrammar path).2 :=
      .of_forall_eq_ok fun _ => (hfiles path).of_loadGrammar
    exact hyields.map fun l hl => ⟨hl, h.model, h.assignsEntities⟩
  | model =>
    have hyields : Yields (fun m => m.IsEncodable ∧ m.AssignsEntities) (fun _ => True) (files.loadModel path).2 :=
      .of_forall_eq_ok fun _ hm => ⟨(hfiles path).of_loadModel hm, Files.assignsEntities_of_loadModel hm⟩
    exact hyields.map fun m hm => ⟨h.lexicon, hm.1, hm.2⟩

theorem IsEncodable.answerLoad (hfiles : ∀ path, files.HoldsEncodable path) (h : s.IsEncodable) (arguments : Text) :
    (answerLoad files s arguments).IsEncodable := by
  unfold Session.answerLoad
  cases loadTarget? arguments with
  | none => exact h.sayOne (Text.isEncodable_ofString _)
  | some target =>
    have hyields := h.yields_load hfiles target.2 target.1
    dsimp only
    generalize load files s target.2 target.1 = loaded at hyields
    obtain ⟨log, result⟩ := loaded
    cases result with
    | error e =>
      refine h.meet (Transcript.passes_ofLog log) (fun message hmessage => ?_) (Obstacle.isEncodable_ofLoad e)
      exact Output.passes_line (by simp [loadLabel, hmessage])
    | ok next =>
      refine IsEncodable.go hyields (Transcript.passes_append.mpr ⟨Transcript.passes_ofLog log, ?_⟩)
      exact List.forall_mem_singleton.mpr trivial

theorem IsEncodable.answerEvaluation (h : s.IsEncodable) {before : Transcript} (hbefore : before.Passes) {f : Formula}
    (hf : f.IsEncodable) : (s.answerEvaluation before f).IsEncodable := by
  have hfails := Model.failsOnly_shows Formula.isHereditary_isEncodable hf s.model (.truth true)
  have hshown : Transcript.Passes (before ++ Transcript.ofLog (LogLine.ofEvaluation s.model f)) :=
    Transcript.passes_append.mpr ⟨hbefore, Transcript.passes_ofLog _⟩
  unfold Session.answerEvaluation
  dsimp only
  split
  · rename_i value _
    refine h.go (Transcript.passes_append.mpr ⟨hshown, List.forall_mem_singleton.mpr (Output.passes_line ?_)⟩)
    cases value <;> exact Text.isEncodable_ofString _
  · rename_i e herror
    refine h.meet hshown (fun message hmessage => Output.passes_line (by simp [hmessage])) ?_
    exact Obstacle.isEncodable_ofEvaluation (hfails.fails_of_eq_error herror)

theorem IsEncodable.answerFormula (h : s.IsEncodable) {text : Text} (htext : text.IsEncodable) :
    (s.answerFormula text).IsEncodable := by
  unfold Session.answerFormula
  split
  · rename_i e _
    exact h.sayOne (by simp [e.isEncodable_message])
  · rename_i f hread
    exact h.answerEvaluation Transcript.passes_nil (Formula.isEncodable_of_read hread htext)

theorem IsEncodable.answerSentence (h : s.IsEncodable) (hl : s.lexicon.IsWellFormed) (evaluates : Bool)
    (sentence : Text) : (s.answerSentence evaluates sentence).IsEncodable := by
  unfold Session.answerSentence
  rw [Parsing.attempt_of_isWellFormed hl]
  have hentry (e : ChartEntry)
      (he : Parsing.Outcome.entry? (Parsing.Setting.parse ⟨s.lexicon.grammar, {}⟩ sentence s.counters) = some e) :
      e.IsEncodable := h.lexicon.of_parse hl he
  generalize Parsing.Setting.parse ⟨s.lexicon.grammar, {}⟩ sentence s.counters = o at hentry
  have hnext : IsEncodable { s with counters := o.counters } := ⟨h.lexicon, h.model, h.assignsEntities⟩
  dsimp only
  cases hfound : o.entry? with
  | none => exact hnext.go (Transcript.passes_append.mpr ⟨Transcript.passes_ofLog _, passes_rejection⟩)
  | some entry =>
    obtain ⟨-, hmeaning, hlisting⟩ := hentry entry hfound
    have hshown : Transcript.Passes (Transcript.ofLog (LogLine.ofParse o) ++
        (if s.showsDerivation then [.line entry.listingText] else []) ++ [.line entry.expression.meaning.text]) := by
      refine Transcript.passes_append.mpr ⟨Transcript.passes_append.mpr ⟨Transcript.passes_ofLog _, ?_⟩, ?_⟩
      · split
        · exact List.forall_mem_singleton.mpr (Output.passes_line hlisting)
        · exact Transcript.passes_nil
      · exact List.forall_mem_singleton.mpr (Output.passes_line hmeaning.text)
    cases evaluates with
    | true => exact hnext.answerEvaluation hshown hmeaning
    | false => exact hnext.go hshown

theorem subset_of_ofLine {text argument : Text} (h : Request.ofLine text = .formula argument) : argument ⊆ text := by
  have hplain : Request.plain.lookup (Text.trim text) ≠ some (.formula argument) := by
    intro hlookup
    obtain ⟨before, behind, hsplit, -⟩ := List.lookup_eq_some_iff.mp hlookup
    have hmem : (Text.trim text, Request.formula argument) ∈ Request.plain :=
      hsplit ▸ List.mem_append_right before List.mem_cons_self
    simp [Request.plain] at hmem
  change (Request.plain.lookup (Text.trim text) <|> Request.ofCommand? (Text.trim text) <|> _).getD _ = _ at h
  have hcommand : Request.ofCommand? (Text.trim text) = some (.formula argument) := by
    simp [Option.getD_eq_iff, hplain, -List.lookup_eq_none_iff] at h
    exact h.2
  have hargument : argumentsOf? "formula" (Text.trim text) = some argument := by
    simp [Request.ofCommand?] at hcommand
    exact hcommand.2.2.2
  have happend := Text.eq_append_of_after? hargument
  exact fun c hc => Text.trim_subset text (happend ▸ List.mem_append_right _ hc)

/-- Of what is typed only a formula is shown. -/
theorem IsEncodable.answerRequest (hfiles : ∀ path, files.HoldsEncodable path) (h : s.IsEncodable)
    (hs : s.IsWellFormed) {request : Request} (hrequest : ∀ text, request = .formula text → text.IsEncodable) :
    (answerRequest files s request).IsEncodable := by
  cases request with
  | nothing => exact h.go Transcript.passes_nil
  | quit => exact isEncodable_stop Transcript.passes_nil .success
  | help => exact h.sayOne ((Text.isEncodable_join (Text.isEncodable_ofString "\n")).mpr (by simp))
  | showLexicon => exact h.list (isEncodable_lexiconLines h.lexicon hs.lexicon)
  | showModel => exact h.list (isEncodable_modelLines h.model hs.model h.assignsEntities)
  | derivation value => exact h.answerDerivation value
  | load arguments => exact h.answerLoad hfiles arguments
  | assign arguments => exact h.answerAssign arguments
  | formula text => exact h.answerFormula (hrequest text rfl)
  | parse sentence => exact h.answerSentence hs.lexicon false sentence
  | eval sentence => exact h.answerSentence hs.lexicon true sentence
  | unknown command => exact h.sayOne (by simp)

theorem IsEncodable.answer (hfiles : ∀ path, files.HoldsEncodable path) (h : s.IsEncodable) (hs : s.IsWellFormed)
    {input : Input} (hinput : ∀ text, input = .line text → text.IsEncodable) : (answer files s input).IsEncodable := by
  cases input with
  | interrupt =>
    have hline : Text.IsEncodable "\nInterrupted." := Text.isEncodable_ofString _
    exact isEncodable_stop (Transcript.passes_lines (List.forall_mem_singleton.mpr hline)) .success
  | line text =>
    exact h.answerRequest hfiles hs fun argument hargument c hc => hinput text rfl c (subset_of_ofLine hargument hc)

theorem passes_prompt : prompt.Passes := Text.isEncodable_ofString _

theorem IsEncodable.passes_run (htyped : files.AreTyped) (hfiles : ∀ path, files.HoldsEncodable path)
    (h : s.IsEncodable) (hs : s.IsWellFormed) {inputs : List Input}
    (hinputs : ∀ text, .line text ∈ inputs → text.IsEncodable) : (run files s inputs).1.Passes := by
  induction inputs generalizing s with
  | nil => exact Transcript.passes_cons.mpr ⟨passes_prompt, List.forall_mem_singleton.mpr (Text.isEncodable_ofString _)⟩
  | cons input inputs ih =>
    have hinput (text : Text) (htext : input = .line text) : text.IsEncodable :=
      hinputs text (htext ▸ List.mem_cons_self)
    have hanswer := h.answer hfiles hs hinput
    have hshown := Transcript.passes_cons.mpr ⟨passes_prompt, hanswer.passes⟩
    rw [Session.run]
    rcases hs.answer htyped input with ⟨code, hstop⟩ | ⟨next, hgo, hnext⟩
    · rw [hstop]
      exact hshown
    · rw [hgo]
      have hrest := ih (hanswer.next next hgo) hnext fun text htext => hinputs text (List.mem_cons_of_mem input htext)
      exact Transcript.passes_append.mpr ⟨hshown, hrest⟩

theorem passes_loadInitial (files : Files) (s : Session) (kind : FileKind) (path? : Option Text) :
    (loadInitial files s kind path?).1.Passes := by
  unfold loadInitial
  split
  · exact List.forall_mem_singleton.mpr trivial
  · exact List.forall_mem_singleton.mpr trivial
  · split
    · exact Transcript.passes_nil
    · exact Transcript.passes_cons.mpr ⟨trivial, List.forall_mem_singleton.mpr trivial⟩
    · exact Transcript.passes_cons.mpr ⟨trivial, Transcript.passes_ofLog _⟩

/-- Whatever cannot be printed of the paths is handled. -/
theorem passes_initial (files : Files) (grammar? model? : Option Text) : (initial files grammar? model?).1.Passes := by
  have hgrammar := passes_loadInitial files {} .grammar grammar?
  unfold initial
  generalize loadInitial files {} .grammar grammar? = loaded at hgrammar
  obtain ⟨said, result⟩ := loaded
  cases result with
  | error e => exact hgrammar
  | ok s => exact Transcript.passes_append.mpr ⟨hgrammar, passes_loadInitial files s .model model?⟩

theorem yields_isEncodable_initial (htyped : files.AreTyped) (hfiles : ∀ path, files.HoldsEncodable path)
    (grammar? model? : Option Text) :
    Yields (fun s => s.IsWellFormed ∧ s.IsEncodable) (fun _ => True) (initial files grammar? model?).2 := by
  refine yields_initial (fun path => ?_) (fun s path kind h => ?_) ⟨isWellFormed_empty, isEncodable_empty⟩ _ _
  · exact Yields.trivially _
  · have hwell := h.1.yields_load htyped path kind
    have hencodable := h.2.yields_load hfiles path kind
    exact .of_forall_eq_ok fun next hnext => ⟨hwell.gives hnext, hencodable.gives hnext⟩

end Session

theorem passes_runSession (htyped : files.AreTyped) (hfiles : ∀ path, files.HoldsEncodable path)
    (grammar? model? : Option Text) {inputs : List Input} (hinputs : ∀ text, .line text ∈ inputs → text.IsEncodable) :
    (runSession files grammar? model? inputs).1.Passes := by
  have hsaid := Session.passes_initial files grammar? model?
  have hinitial := Session.yields_isEncodable_initial htyped hfiles grammar? model?
  unfold runSession Session.start
  generalize Session.initial files grammar? model? = began at hsaid hinitial
  obtain ⟨said, result⟩ := began
  cases result with
  | error e =>
    refine (Obstacle.isEncodable_ofLoad e).passes_conclude hsaid fun message hmessage => ?_
    exact Output.passes_line (by simp [Session.loadLabel, hmessage])
  | ok s =>
    obtain ⟨hwell, hs⟩ : s.IsWellFormed ∧ s.IsEncodable := hinitial
    have hgreeting : Session.greeting.Passes := Output.passes_line (Text.isEncodable_ofString _)
    refine Transcript.passes_append.mpr ⟨Transcript.passes_append.mpr ⟨hsaid, ?_⟩, ?_⟩
    · exact List.forall_mem_singleton.mpr hgreeting
    · exact hs.passes_run htyped hfiles hwell hinputs

end Sessions

end CommandLine
end MinimalistGrammar
