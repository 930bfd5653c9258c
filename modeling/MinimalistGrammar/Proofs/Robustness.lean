import MinimalistGrammar.CommandLine.Session
import MinimalistGrammar.Proofs.Meanings
import MinimalistGrammar.Proofs.ModelDocument
import MinimalistGrammar.Proofs.Undescribed

/-! What comes of files whose documents are of the described types. Whatever else is wrong with them, a command ends
with an exit code of its own, a dialogue goes on until the user ends it, and only formulas are evaluated. -/
namespace MinimalistGrammar

theorem LexicalEntry.exists_of_isWellFormed {entry : LexicalEntry} (h : entry.isWellFormed) :
    ∃ item : LexicalItem, entry = .ofItem item ∧ item.meaning.isWritable := by
  obtain ⟨token, features, meaning⟩ := entry
  simp only [isWellFormed, Bool.and_eq_true] at h
  obtain ⟨⟨htoken, hmeaning⟩, hfeatures⟩ := h
  obtain ⟨s, rfl⟩ := Json.exists_of_isText htoken
  cases features with
  | values list => cases hfeatures
  | features list => exact ⟨⟨s, list, meaning⟩, rfl, hmeaning⟩

namespace Parsing
variable {l : Lexicon}

theorem isWritable_of_mem_items (h : l.IsWellFormed) : ∀ item ∈ l.grammar.items, item.meaning.isWritable := by
  intro item hitem
  obtain ⟨entry, hentry, hstated⟩ := List.mem_filterMap.mp hitem
  obtain ⟨item', rfl, hmeaning⟩ := LexicalEntry.exists_of_isWellFormed (h.1 entry hentry)
  rw [LexicalEntry.item?_ofItem] at hstated
  exact Option.some.inj hstated ▸ hmeaning

theorem isPlain_of_isWellFormed {entry : LexicalEntry} (h : entry.isWellFormed) :
    entry.isPlain ∧ entry.features.isUnreadable = false := by
  obtain ⟨⟨token, features, meaning⟩, rfl, hmeaning⟩ := LexicalEntry.exists_of_isWellFormed h
  refine ⟨?_, rfl⟩
  cases meaning with
  | foreign value => cases hmeaning
  | _ => rfl

theorem mem_entries_of_mem_entriesOf {tokens : List Text} {entry : LexicalEntry} (h : entry ∈ entriesOf l tokens) :
    entry ∈ l.entries := by
  rcases List.mem_append.mp h with hnull | htoken
  · exact List.mem_of_mem_filter hnull
  · obtain ⟨token, -, hentry⟩ := List.mem_flatMap.mp htoken
    exact List.mem_of_mem_filter hentry

/-- With a well-formed lexicon no parse breaks off. -/
theorem attempt_of_isWellFormed (h : l.IsWellFormed) (categories : PhraseCategories) (text : Text)
    (counters : Counters) :
    attempt l categories text counters = .ok (Setting.parse ⟨l.grammar, categories⟩ text counters) := by
  have hstated : ∀ entry ∈ entriesOf l (tokenize text), entry.isPlain ∧ entry.features.isUnreadable = false :=
    fun entry hentry => isPlain_of_isWellFormed (h.1 entry (mem_entries_of_mem_entriesOf hentry))
  have hplain : (entriesOf l (tokenize text)).any (!·.isPlain) = false :=
    List.any_eq_false.mpr fun entry hentry => by simp [(hstated entry hentry).1]
  have hreadable : (entriesOf l (tokenize text)).any (·.features.isUnreadable) = false :=
    List.any_eq_false.mpr fun entry hentry => by simp [(hstated entry hentry).2]
  unfold attempt
  simp only [hplain, hreadable]
  split <;> rfl

end Parsing

namespace Files
variable {files : Files} {path : Text}

theorem failsOnly_isThere (files : Files) (path : Text) :
    Model.FailsOnly (fun e => e.message?.isSome) (files.isThere path) := by
  unfold isThere
  dsimp only
  split
  · split <;> trivial
  · trivial

theorem failsOnly_readDocument (files : Files) (path : Text) :
    Model.FailsOnly (fun e => e.message?.isSome) (files.readDocument path) := by
  refine Model.FailsOnly.bind ?_ fun content => ?_
  · unfold readText
    split <;> trivial
  · cases Json.read content <;> trivial

theorem exists_of_readDocument {document : Json} (h : files.readDocument path = .ok document) :
    ∃ content, files path = .text content ∧ Json.read (Text.unifyLineEnds content) = .ok document := by
  obtain ⟨content, hcontent, hread⟩ := exists_of_bind_eq_ok h
  have hdocument : Json.read content = .ok document := by
    cases hresult : Json.read content with
    | error e =>
      rw [hresult] at hread
      cases hread
    | ok found =>
      rw [hresult] at hread
      cases hread
      rfl
  unfold readText at hcontent
  split at hcontent <;> cases hcontent
  exact ⟨_, ‹_›, hdocument⟩

/-- If there is a document under the path, it is one of a grammar by types. -/
def HoldsGrammar (files : Files) (path : Text) : Prop :=
  ∀ document, files.readDocument path = .ok document → document.describesGrammar

def HoldsModel (files : Files) (path : Text) : Prop :=
  ∀ document, files.readDocument path = .ok document → document.describesModel

theorem yields_loadGrammar (h : files.HoldsGrammar path) :
    Yields Lexicon.IsWellFormed (fun e => e.message?.isSome) (files.loadGrammar path).2 := by
  have hfails := failsOnly_readDocument files path
  unfold loadGrammar
  cases hread : files.readDocument path with
  | error e => exact hfails.fails_of_eq_error hread
  | ok document =>
    have hyields := Lexicon.yields_ofDocument (h document hread)
    cases hlexicon : Lexicon.ofDocument document with
    | error e =>
      simp only [hlexicon]
      exact hyields.fails_of_eq_error hlexicon
    | ok l =>
      simp only [hlexicon]
      exact hyields.gives hlexicon

theorem yields_loadModel (h : files.HoldsModel path) :
    Yields Model.IsProper (fun e => e.message?.isSome) (files.loadModel path).2 := by
  have hfails := failsOnly_readDocument files path
  unfold loadModel
  cases hread : files.readDocument path with
  | error e => exact hfails.fails_of_eq_error hread
  | ok document =>
    have hyields := Model.yields_ofDocument (h document hread)
    cases hmodel : Model.ofDocument document with
    | error e =>
      simp only [hmodel]
      exact hyields.fails_of_eq_error hmodel
    | ok m =>
      simp only [hmodel]
      exact hyields.gives hmodel

/-- Whatever path is tried, there is a well-formed grammar or a model of texts, or an error with a message. -/
structure AreTyped (files : Files) : Prop where
  grammars : ∀ path, Yields Lexicon.IsWellFormed (fun e => e.message?.isSome) (files.loadGrammar path).2
  models : ∀ path, Yields Model.IsTextual (fun e => e.message?.isSome) (files.loadModel path).2

theorem AreTyped.of_holds (hgrammar : ∀ path, files.HoldsGrammar path) (hmodel : ∀ path, files.HoldsModel path) :
    files.AreTyped :=
  ⟨fun path => yields_loadGrammar (hgrammar path),
    fun path => (yields_loadModel (hmodel path)).imp fun _ h => h.isTextual⟩

end Files

namespace CommandLine

theorem Obstacle.exists_of_ofLoad {e : LoadError} (h : e.message?.isSome) :
    ∃ message, Obstacle.ofLoad e = .failure message := by
  obtain ⟨message, hmessage⟩ := Option.isSome_iff_exists.mp h
  exact ⟨message, by rw [Obstacle.ofLoad, hmessage, Option.elim_some]⟩

theorem Obstacle.exists_of_ofEvaluation {e : EvaluationError} (h : e.message?.isSome) :
    ∃ message, Obstacle.ofEvaluation e = .failure message := by
  obtain ⟨message, hmessage⟩ := Option.isSome_iff_exists.mp h
  exact ⟨message, by rw [Obstacle.ofEvaluation, hmessage, Option.elim_some]⟩

section Session

structure Session.IsWellFormed (s : Session) : Prop where
  lexicon : s.lexicon.IsWellFormed
  model : s.model.IsTextual

def Session.Answer.GoesOn (a : Session.Answer) : Prop := ∃ s, a.next = .go s ∧ s.IsWellFormed

namespace Session
variable {files : Files} {s : Session}

theorem isWellFormed_empty : IsWellFormed {} where
  lexicon := by decide
  model := by decide

theorem IsWellFormed.say (h : s.IsWellFormed) (lines : List Text) : (s.say lines).GoesOn := ⟨s, rfl, h⟩

theorem IsWellFormed.list (h : s.IsWellFormed) {lines : List (Option Text)} (hlines : ∀ line? ∈ lines, line?.isSome) :
    (s.list lines).GoesOn := by
  have hall : lines.all Option.isSome := List.all_eq_true.mpr hlines
  exact ⟨s, by rw [Session.list, if_pos hall], h⟩

theorem isSome_listing? (label : Text) {names : List Name} (h : ∀ name ∈ names, name.isText) :
    (listing? label names).isSome := by
  obtain ⟨texts, rfl⟩ := Name.exists_of_forall_isText h
  have htexts : (texts.map Json.Scalar.text).mapM Json.Scalar.text? = some texts := mapM_map_eq_pure fun _ _ => rfl
  rw [listing?, htexts]
  rfl

theorem IsWellFormed.isSome_lexiconLines (h : s.IsWellFormed) : ∀ line? ∈ lexiconLines s.lexicon, line?.isSome := by
  refine List.forall_mem_cons.mpr ⟨isSome_listing? _ h.lexicon.2, List.forall_mem_cons.mpr ⟨rfl, ?_⟩⟩
  exact List.forall_mem_map.mpr fun _ _ => rfl

theorem IsWellFormed.isSome_modelLines (h : s.IsWellFormed) : ∀ line? ∈ modelLines s.model, line?.isSome := by
  obtain ⟨hentities, hevents, hpredicates, -⟩ := Model.isTextual_iff.mp h.model
  have hassignments : ∀ line? ∈ (if s.model.assignments.entries = [] then []
      else [some (assignmentsLine s.model)]), line?.isSome := by
    split <;> simp
  rw [modelLines, if_pos h.model.hasOrder]
  refine List.forall_mem_flatten.mpr ?_
  simp only [List.forall_mem_cons, List.forall_mem_map, List.not_mem_nil, false_implies, implies_true, and_true,
    Option.isSome_some, true_and]
  exact ⟨⟨isSome_listing? _ hentities, isSome_listing? _ hevents⟩, hassignments, fun entry hentry =>
    isSome_listing? _ (hpredicates entry hentry)⟩

theorem IsWellFormed.answerDerivation (h : s.IsWellFormed) (value : Text) : (s.answerDerivation value).GoesOn := by
  unfold Session.answerDerivation
  dsimp only
  split
  · exact ⟨_, rfl, h.lexicon, h.model⟩
  · split
    · exact ⟨_, rfl, h.lexicon, h.model⟩
    · exact h.say _

theorem IsWellFormed.answerAssign (h : s.IsWellFormed) (arguments : Text) : (s.answerAssign arguments).GoesOn := by
  unfold Session.answerAssign
  split
  · split
    · exact h.say _
    · split
      · exact ⟨_, rfl, h.lexicon, h.model⟩
      · exact h.say _
  · exact h.say _

theorem IsWellFormed.meet (h : s.IsWellFormed) (before : Transcript) (tell : Text → Output) (message : Text) :
    (s.meet before tell (.failure message)).GoesOn := ⟨s, rfl, h⟩

theorem IsWellFormed.yields_load (hfiles : files.AreTyped) (h : s.IsWellFormed) (path : Text) (kind : FileKind) :
    Yields IsWellFormed (fun e => e.message?.isSome) (load files s path kind).2 := by
  cases kind with
  | grammar => exact (hfiles.grammars path).map fun l hl => ⟨hl, h.model⟩
  | model => exact (hfiles.models path).map fun m hm => ⟨h.lexicon, hm⟩

theorem IsWellFormed.answerLoad (hfiles : files.AreTyped) (h : s.IsWellFormed) (arguments : Text) :
    (answerLoad files s arguments).GoesOn := by
  unfold Session.answerLoad
  cases loadTarget? arguments with
  | none => exact h.say _
  | some target =>
    have hyields := h.yields_load hfiles target.2 target.1
    dsimp only
    generalize load files s target.2 target.1 = loaded at hyields
    obtain ⟨log, result⟩ := loaded
    cases result with
    | error e =>
      obtain ⟨message, hmessage⟩ := Obstacle.exists_of_ofLoad hyields
      dsimp only
      rw [hmessage]
      exact h.meet _ _ message
    | ok next => exact ⟨next, rfl, hyields⟩

theorem IsWellFormed.answerEvaluation (h : s.IsWellFormed) (before : Transcript) {f : Formula} (hf : f.isWritable) :
    (s.answerEvaluation before f).GoesOn := by
  have hfails := Model.failsOnly_hasValue hf s.model (.truth true)
  unfold Session.answerEvaluation
  dsimp only
  split
  · exact ⟨s, rfl, h⟩
  · rename_i e herror
    obtain ⟨message, hmessage⟩ := Obstacle.exists_of_ofEvaluation (hfails.fails_of_eq_error herror)
    rw [hmessage]
    exact h.meet _ _ message

theorem IsWellFormed.answerFormula (h : s.IsWellFormed) (text : Text) : (s.answerFormula text).GoesOn := by
  unfold Session.answerFormula
  split
  · exact h.say _
  · rename_i f hread
    exact h.answerEvaluation [] (Formula.isWritable_of_read hread)

theorem IsWellFormed.answerSentence (h : s.IsWellFormed) (evaluates : Bool) (sentence : Text) :
    (s.answerSentence evaluates sentence).GoesOn := by
  unfold Session.answerSentence
  rw [Parsing.attempt_of_isWellFormed h.lexicon]
  generalize ho : Parsing.Setting.parse ⟨s.lexicon.grammar, {}⟩ sentence s.counters = o
  have hnext : IsWellFormed { s with counters := o.counters } := ⟨h.lexicon, h.model⟩
  dsimp only
  cases hentry : o.entry? with
  | none => exact ⟨_, rfl, hnext⟩
  | some entry =>
    rw [← ho] at hentry
    have hmeaning := Parsing.isWritable_of_parse (Parsing.isWritable_of_mem_items h.lexicon) hentry
    cases evaluates with
    | true => exact hnext.answerEvaluation _ hmeaning
    | false => exact ⟨_, rfl, hnext⟩

/-- A dialogue goes on after everything but the wish to quit. -/
theorem IsWellFormed.answerRequest (hfiles : files.AreTyped) (h : s.IsWellFormed) {request : Request}
    (hrequest : request ≠ .quit) : (answerRequest files s request).GoesOn := by
  cases request with
  | nothing => exact ⟨s, rfl, h⟩
  | quit => exact absurd rfl hrequest
  | help => exact h.say _
  | showLexicon => exact h.list h.isSome_lexiconLines
  | showModel => exact h.list h.isSome_modelLines
  | derivation value => exact h.answerDerivation value
  | load arguments => exact h.answerLoad hfiles arguments
  | assign arguments => exact h.answerAssign arguments
  | formula text => exact h.answerFormula text
  | parse sentence => exact h.answerSentence false sentence
  | eval sentence => exact h.answerSentence true sentence
  | unknown command => exact h.say _

theorem IsWellFormed.answer (hfiles : files.AreTyped) (h : s.IsWellFormed) (input : Input) :
    (∃ code, (answer files s input).next = .stop (.code code)) ∨ (answer files s input).GoesOn := by
  cases input with
  | interrupt => exact .inl ⟨0, rfl⟩
  | line text =>
    by_cases hquit : Request.ofLine text = .quit
    · refine .inl ⟨0, ?_⟩
      rw [Session.answer, hquit]
      rfl
    · exact .inr (h.answerRequest hfiles hquit)

theorem IsWellFormed.run (hfiles : files.AreTyped) (h : s.IsWellFormed) (inputs : List Input) :
    ∃ code, (run files s inputs).2 = .code code := by
  induction inputs generalizing s with
  | nil => exact ⟨0, rfl⟩
  | cons input inputs ih =>
    rw [Session.run]
    rcases h.answer hfiles input with ⟨code, hstop⟩ | ⟨next, hgo, hnext⟩
    · rw [hstop]
      exact ⟨code, rfl⟩
    · rw [hgo]
      exact ih hnext

section Beginning
variable {I : Session → Prop} {fails : LoadError → Prop} (hthere : ∀ path, Model.FailsOnly fails (files.isThere path))
  (hload : ∀ s path kind, I s → Yields I fails (load files s path kind).2)
include hthere hload

theorem yields_loadInitial (h : I s) (kind : FileKind) (path? : Option Text) :
    Yields I fails (loadInitial files s kind path?).2 := by
  unfold loadInitial
  split
  · exact h
  · exact h
  · rename_i path _
    have hfound := hthere path
    split
    · exact hfound.fails_of_eq_error ‹_›
    · exact h
    · exact hload s path kind h

/-- What holds of the empty session and is kept by loading holds where a dialogue begins. -/
theorem yields_initial (hempty : I {}) (grammar? model? : Option Text) :
    Yields I fails (initial files grammar? model?).2 := by
  have hgrammar := yields_loadInitial hthere hload hempty .grammar grammar?
  unfold initial
  generalize loadInitial files {} .grammar grammar? = loaded at hgrammar
  obtain ⟨said, result⟩ := loaded
  cases result with
  | error e => exact hgrammar
  | ok s => exact yields_loadInitial hthere hload hgrammar .model model?

end Beginning

theorem yields_isWellFormed_initial (hfiles : files.AreTyped) (grammar? model? : Option Text) :
    Yields IsWellFormed (fun e => e.message?.isSome) (initial files grammar? model?).2 :=
  yields_initial (Files.failsOnly_isThere files) (fun _ path kind h => h.yields_load hfiles path kind)
    isWellFormed_empty grammar? model?

end Session

theorem exists_code_runSession (hfiles : files.AreTyped) (grammar? model? : Option Text) (inputs : List Input) :
    ∃ code, (runSession files grammar? model? inputs).2 = .code code := by
  have hinitial := Session.yields_isWellFormed_initial hfiles grammar? model?
  unfold runSession Session.start
  generalize Session.initial files grammar? model? = began at hinitial
  obtain ⟨said, result⟩ := began
  cases result with
  | error e =>
    obtain ⟨message, hmessage⟩ := Obstacle.exists_of_ofLoad hinitial
    dsimp only
    rw [hmessage]
    exact ⟨1, rfl⟩
  | ok s => exact Session.IsWellFormed.run hfiles hinitial inputs

end Session

section Commands
variable {files : Files} {path : Text}

/-- What keeps a command from going on is a failure that it tells about. -/
def Obstacle.IsFailure (obstacle : Obstacle) : Prop := ∃ message, obstacle = .failure message

theorem yields_loadGrammar (h : files.HoldsGrammar path) :
    Yields Lexicon.IsWellFormed Obstacle.IsFailure (loadGrammar files (some path)).2 :=
  (Files.yields_loadGrammar h).mapError fun _ => Obstacle.exists_of_ofLoad

theorem yields_loadModel (h : files.HoldsModel path) :
    Yields Model.IsProper Obstacle.IsFailure (loadModel files (some path)).2 :=
  (Files.yields_loadModel h).mapError fun _ => Obstacle.exists_of_ofLoad

theorem failsOnly_assignGiven {given : List (Option Text)} (h : none ∉ given) (m : Model) :
    Model.FailsOnly Obstacle.IsFailure (assignGiven m given) := by
  induction given generalizing m with
  | nil => exact Model.failsOnly_ok m
  | cons text? given ih =>
    obtain ⟨hgiven, hrest⟩ := not_or.mp (List.mem_cons.not.mp h)
    obtain ⟨text, rfl⟩ := Option.ne_none_iff_exists'.mp (Ne.symm hgiven)
    refine Model.FailsOnly.bind ?_ fun next => ih hrest next
    cases hassign : m.assignText text with
    | error e =>
      simp only [Option.elim_some, hassign]
      exact ⟨e.message, rfl⟩
    | ok next =>
      simp only [Option.elim_some, hassign]
      trivial

theorem yields_loadBoth {model : Text} (hgrammar : files.HoldsGrammar path) (hmodel : files.HoldsModel model)
    {assignments : List (Option Text)} (h : none ∉ assignments) :
    Yields (fun both => both.1.IsWellFormed) Obstacle.IsFailure
      (loadBoth files (some path) (some model) assignments).2 := by
  have hlexicon := yields_loadGrammar hgrammar
  have hloaded := yields_loadModel hmodel
  unfold loadBoth
  generalize loadGrammar files (some path) = loaded at hlexicon
  obtain ⟨log, result⟩ := loaded
  cases result with
  | error obstacle => exact hlexicon
  | ok lexicon =>
    refine hloaded.bind fun m _ => ?_
    exact Yields.bind (failsOnly_assignGiven h m) fun _ _ => hlexicon

theorem exists_code_conclude {obstacle : Obstacle} (h : obstacle.IsFailure)
    (before : Transcript) (tell : Text → Output) : ∃ code, (obstacle.conclude before tell).2 = .code code := by
  obtain ⟨message, rfl⟩ := h
  exact ⟨1, rfl⟩

theorem exists_code_runParse (h : files.HoldsGrammar path) (sentence : Text) (derivation json : Bool) :
    ∃ code, (runParse files (some path) sentence derivation json).2 = .code code := by
  have hlexicon := yields_loadGrammar h
  unfold runParse
  generalize loadGrammar files (some path) = loaded at hlexicon
  obtain ⟨log, result⟩ := loaded
  cases result with
  | error obstacle => exact exists_code_conclude hlexicon _ _
  | ok lexicon =>
    dsimp only
    rw [Parsing.attempt_of_isWellFormed hlexicon]
    exact ⟨0, rfl⟩

theorem exists_code_showEvaluation (sentence : Text) (m : Model) {entry : ChartEntry}
    (h : entry.expression.meaning.isWritable) (expected? : Option Bool) (derivation json : Bool) :
    ∃ code, (showEvaluation sentence m entry expected? derivation json).2 = .code code := by
  have hfails := Model.failsOnly_hasValue h m (.truth true)
  unfold showEvaluation
  dsimp only
  split
  · rename_i e herror
    exact exists_code_conclude (Obstacle.exists_of_ofEvaluation (hfails.fails_of_eq_error herror)) _ _
  · dsimp only
    split <;> exact ⟨_, rfl⟩

theorem exists_code_runEval {model : Text} (hgrammar : files.HoldsGrammar path) (hmodel : files.HoldsModel model)
    (sentence : Text) {assignments : List (Option Text)} (h : none ∉ assignments) (expected? : Option Bool)
    (derivation json : Bool) : ∃ code,
      (runEval files (some path) (some model) sentence assignments expected? derivation json).2 = .code code := by
  have hboth := yields_loadBoth hgrammar hmodel h
  unfold runEval
  generalize loadBoth files (some path) (some model) assignments = loaded at hboth
  obtain ⟨log, result⟩ := loaded
  cases result with
  | error obstacle => exact exists_code_conclude hboth _ _
  | ok both =>
    obtain ⟨lexicon, m⟩ := both
    have hlexicon : lexicon.IsWellFormed := hboth
    dsimp only
    rw [Parsing.attempt_of_isWellFormed hlexicon]
    dsimp only
    split
    · exact ⟨1, rfl⟩
    · rename_i entry hentry
      have hmeaning := Parsing.isWritable_of_parse (Parsing.isWritable_of_mem_items hlexicon) hentry
      exact exists_code_showEvaluation sentence m hmeaning expected? derivation json

end Commands

end CommandLine

end MinimalistGrammar
