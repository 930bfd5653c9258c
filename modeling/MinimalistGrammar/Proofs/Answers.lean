import MinimalistGrammar.Proofs.IndexRenaming
import MinimalistGrammar.Proofs.Numbering
import MinimalistGrammar.Proofs.Robustness

/-! How one line of a dialogue is answered. The grammar, the model and whether derivations are shown are the setup of
a session, and the counters are all that it has besides. A request changes the setup only by loading, assigning or
switching, and what is put out for it is determined by the setup but for the numbers of generated indices. -/
namespace MinimalistGrammar

/-- No meaning has an index that could have been generated. -/
def Lexicon.IsPronominal (l : Lexicon) : Prop :=
  ∀ item ∈ l.grammar.items, ∀ index ∈ item.meaning.indices, 0 ≤ index

instance (l : Lexicon) : Decidable l.IsPronominal :=
  inferInstanceAs (Decidable (∀ item ∈ l.grammar.items, ∀ index ∈ item.meaning.indices, 0 ≤ index))

namespace Model

def IsPronominal (m : Model) : Prop := ∀ a ∈ m.assignments.entries, 0 ≤ a.1

instance (m : Model) : Decidable m.IsPronominal := inferInstanceAs (Decidable (∀ a ∈ m.assignments.entries, 0 ≤ a.1))

theorem IsPronominal.assign {m : Model} (h : m.IsPronominal) {index : Int} (hindex : 0 ≤ index) (entity : Name) :
    (m.assign index entity).IsPronominal := by
  intro a ha
  rcases SortedMap.mem_of_mem_entries_insert ha with rfl | hold
  · exact hindex
  · exact h a hold

theorem IsPronominal.assignment?_of_neg {m : Model} (h : m.IsPronominal) {index : Int} (hindex : index < 0) :
    m.assignment? index = none := by
  refine Option.map_eq_none_iff.mpr (List.find?_eq_none.mpr fun a ha => ?_)
  have hnonneg := h a ha
  simpa using Int.ne_of_gt (Int.lt_of_lt_of_le hindex hnonneg)

/-- Generated indices can have other numbers, since the model assigns none of them. -/
theorem IsPronominal.renames {m : Model} (h : m.IsPronominal) {σ : Shift} (hσ : σ.indices ≤ 0) :
    m.Renames σ.index m where
  entities_eq := rfl
  events_eq := rfl
  predicates_eq := rfl
  relations_eq := rfl
  assignment_eq _ _ := rfl
  assignment?_map index := by
    by_cases hindex : index < 0
    · have hshifted : σ.index index < 0 := by rw [σ.index_of_neg hindex]; omega
      rw [h.assignment?_of_neg hindex, h.assignment?_of_neg hshifted]
    · rw [σ.index_of_nonneg (Int.not_lt.mp hindex)]

theorem IsPronominal.evaluate_mapIndices {m : Model} (h : m.IsPronominal) {σ : Shift} (hσ : σ.indices ≤ 0)
    (f : Formula) :
    m.evaluate (f.mapIndices σ.index) = (m.evaluate f).mapError (EvaluationError.mapIndices σ.index) :=
  hasValue_mapIndices (Shift.index_injective hσ) (h.renames hσ) (.truth true)

end Model

namespace Files
variable {files : Files} {path : Text}

theorem exists_of_loadGrammar {l : Lexicon} (h : (files.loadGrammar path).2 = .ok l) :
    ∃ document, files.readDocument path = .ok document ∧ Lexicon.ofDocument document = .ok l := by
  unfold loadGrammar at h
  split at h
  · cases h
  · dsimp only at h
    split at h
    · cases h
    · cases h
      exact ⟨_, ‹_›, ‹_›⟩

theorem exists_of_loadModel {m : Model} (h : (files.loadModel path).2 = .ok m) :
    ∃ document, files.readDocument path = .ok document ∧ Model.ofDocument document = .ok m := by
  unfold loadModel at h
  split at h
  · cases h
  · dsimp only at h
    split at h
    · cases h
    · cases h
      exact ⟨_, ‹_›, ‹_›⟩

theorem assignsEntities_of_loadModel {m : Model} (h : (files.loadModel path).2 = .ok m) : m.AssignsEntities := by
  obtain ⟨document, -, hm⟩ := exists_of_loadModel h
  exact Model.assignsEntities_of_ofDocument hm

structure ArePronominal (files : Files) : Prop where
  grammars : ∀ path l, (files.loadGrammar path).2 = .ok l → l.IsPronominal
  models : ∀ path m, (files.loadModel path).2 = .ok m → m.IsPronominal

theorem ArePronominal.of_documents
    (hgrammar : ∀ path document, files.readDocument path = .ok document →
      (Lexicon.ofDocument document).toOption.all (decide ·.IsPronominal))
    (hmodel : ∀ path document, files.readDocument path = .ok document →
      (Model.ofDocument document).toOption.all (decide ·.IsPronominal)) : files.ArePronominal := by
  refine ⟨fun path l hl => ?_, fun path m hm => ?_⟩
  · obtain ⟨document, hread, hdocument⟩ := exists_of_loadGrammar hl
    simpa [hdocument, Except.toOption] using hgrammar path document hread
  · obtain ⟨document, hread, hdocument⟩ := exists_of_loadModel hm
    simpa [hdocument, Except.toOption] using hmodel path document hread

end Files

/-- With some entries a parse breaks off, and with others it does not, wherever the counters stand. -/
theorem Parsing.attempt_cases (l : Lexicon) (categories : PhraseCategories) (text : Text) :
    (∀ c, attempt l categories text c = .ok (Setting.parse ⟨l.grammar, categories⟩ text c)) ∨
      ∀ c, ∃ i, attempt l categories text c = .error i := by
  unfold attempt
  dsimp only
  split
  · exact .inl fun _ => rfl
  · split
    · exact .inr fun _ => ⟨_, rfl⟩
    · split
      · exact .inr fun _ => ⟨_, rfl⟩
      · exact .inl fun _ => rfl

def Counters.indexShift (c : Counters) : Shift := ⟨0, (Counters.shiftTo {} c).indices⟩

theorem Counters.indices_indexShift_le {c : Counters} (h : c.nextIndex < 0) : c.indexShift.indices ≤ 0 := by
  simp only [indexShift, shiftTo]
  omega

namespace CommandLine

def Request.hasSentence : Request → Bool
  | .parse _ => true
  | .eval _ => true
  | _ => false

def assignmentOf? (arguments : Text) : Option Assignment :=
  match Text.words arguments with
  | [index, entity] => (Assignment.ofText (index ++ "=" ++ entity)).toOption
  | _ => none

/-- If the request states an assignment, then for the index of a pronoun. -/
def Request.isPronominal : Request → Bool
  | .assign arguments => (assignmentOf? arguments).all (0 ≤ ·.index)
  | _ => true

namespace Transcript

@[simp] theorem stdout_nil : stdout [] = [] := rfl

@[simp] theorem stdout_append (t t' : Transcript) : stdout (t ++ t') = stdout t ++ stdout t' :=
  List.flatMap_append

@[simp] theorem stdout_cons_document (document : Json) (t : Transcript) :
    stdout (.document document :: t) = document.compact ++ "\n" ++ stdout t := rfl

@[simp] theorem stdout_cons_log (line : LogLine) (t : Transcript) : stdout (.log line :: t) = stdout t := rfl

@[simp] theorem stdout_ofLog (lines : List LogLine) : stdout (ofLog lines) = [] :=
  List.flatMap_eq_nil_iff.mpr (List.forall_mem_map.mpr fun _ _ => rfl)

end Transcript

namespace Session

/-- What a session answers with besides its counters. -/
structure Setup where
  lexicon : Lexicon
  model : Model
  showsDerivation : Bool
  deriving DecidableEq

def setup (s : Session) : Setup := ⟨s.lexicon, s.model, s.showsDerivation⟩

namespace Setup

def session (setup : Setup) (c : Counters) : Session := ⟨setup.lexicon, setup.model, setup.showsDerivation, c⟩

def setting (setup : Setup) : Parsing.Setting := ⟨setup.lexicon.grammar, {}⟩

/-- What is set up instead, if a request succeeds in changing something. -/
def change? (files : Files) (setup : Setup) : Request → Option Setup
  | .derivation value =>
    let word := Text.lowerCase (Text.trim value)
    if word = "on" then some { setup with showsDerivation := true }
    else if word = "off" then some { setup with showsDerivation := false }
    else none
  | .load arguments =>
    match loadTarget? arguments with
    | none => none
    | some (.grammar, path) =>
      (files.loadGrammar path).2.toOption.map fun l => { setup with lexicon := l }
    | some (.model, path) =>
      (files.loadModel path).2.toOption.map fun m => { setup with model := m }
  | .assign arguments =>
    (assignmentOf? arguments).bind fun a =>
      if setup.model.isEntity (.text a.entity) then
        some { setup with model := setup.model.assign a.index (.text a.entity) }
      else none
  | _ => none

inductive Change (files : Files) (setup : Setup) (request : Request) : Setup → Prop
  | display (isShown : Bool) : Change files setup request { setup with showsDerivation := isShown }
  | grammar {path : Text} {l : Lexicon} (h : (files.loadGrammar path).2 = .ok l) :
    Change files setup request { setup with lexicon := l }
  | model {path : Text} {m : Model} (h : (files.loadModel path).2 = .ok m) :
    Change files setup request { setup with model := m }
  | assignment {arguments : Text} {a : Assignment} (hrequest : request = .assign arguments)
    (ha : assignmentOf? arguments = some a) (hentity : setup.model.isEntity (.text a.entity)) :
    Change files setup request { setup with model := setup.model.assign a.index (.text a.entity) }

variable {files : Files} {setup next : Setup} {request : Request}

theorem change_of_change? (h : setup.change? files request = some next) : Change files setup request next := by
  unfold change? at h
  split at h
  · dsimp only at h
    split at h
    · cases h
      exact .display true
    · split at h
      · cases h
        exact .display false
      · cases h
  · split at h
    · cases h
    · obtain ⟨l, hl, rfl⟩ := Option.map_eq_some_iff.mp h
      exact .grammar (eq_ok_of_toOption_eq_some hl)
    · obtain ⟨m, hm, rfl⟩ := Option.map_eq_some_iff.mp h
      exact .model (eq_ok_of_toOption_eq_some hm)
  · obtain ⟨a, ha, h⟩ := Option.bind_eq_some_iff.mp h
    split at h
    · cases h
      exact .assignment rfl ha ‹_›
    · cases h
  · cases h

structure IsPronominal (setup : Setup) : Prop where
  lexicon : setup.lexicon.IsPronominal
  model : setup.model.IsPronominal

theorem assignsEntities_getD_change? (h : setup.model.AssignsEntities) :
    ((setup.change? files request).getD setup).model.AssignsEntities := by
  cases hchange : setup.change? files request with
  | none => exact h
  | some next =>
    cases change_of_change? hchange with
    | display | grammar => exact h
    | model hm => exact Files.assignsEntities_of_loadModel hm
    | assignment _ _ hentity => exact h.assign _ hentity

theorem IsPronominal.getD_change? (hfiles : files.ArePronominal) (hrequest : request.isPronominal)
    (h : setup.IsPronominal) : ((setup.change? files request).getD setup).IsPronominal := by
  cases hchange : setup.change? files request with
  | none => exact h
  | some next =>
    cases change_of_change? hchange with
    | display => exact ⟨h.lexicon, h.model⟩
    | grammar hl => exact ⟨hfiles.grammars _ _ hl, h.model⟩
    | model hm => exact ⟨h.lexicon, hfiles.models _ _ hm⟩
    | @assignment arguments a heq ha =>
      have hindex : 0 ≤ a.index := by simpa [Request.isPronominal, heq, ha] using hrequest
      exact ⟨h.lexicon, h.model.assign hindex _⟩

end Setup

section
variable (s : Session) (before : Transcript) {f : Formula}

theorem answerEvaluation_of_ok {value : Bool} (h : s.model.evaluate f = .ok value) :
    s.answerEvaluation before f =
      ⟨before ++ Transcript.ofLog (LogLine.ofEvaluation s.model f) ++ [.line (truthWord value)], .go s⟩ := by
  simp only [answerEvaluation, h]

theorem answerEvaluation_of_message {e : EvaluationError} (h : s.model.evaluate f = .error e) {message : Text}
    (he : e.message? = some message) : s.answerEvaluation before f =
      ⟨before ++ Transcript.ofLog (LogLine.ofEvaluation s.model f) ++ [.line ("Error: " ++ message)], .go s⟩ := by
  simp only [answerEvaluation, h, Obstacle.ofEvaluation, he]
  rfl

theorem answerEvaluation_of_defect {e : EvaluationError} (h : s.model.evaluate f = .error e)
    (he : e.message? = none) : s.answerEvaluation before f =
      ⟨before ++ Transcript.ofLog (LogLine.ofEvaluation s.model f), .stop (.defect (.evaluation e))⟩ := by
  simp only [answerEvaluation, h, Obstacle.ofEvaluation, he]
  rfl

end

section
variable {s : Session} {evaluates : Bool} {sentence : Text}

theorem next_of_broken {i : Parsing.Interruption} (h : Parsing.attempt s.lexicon {} sentence s.counters = .error i) :
    (s.answerSentence evaluates sentence).next = .stop (.defect (.parsing i.breakdown)) := by
  simp only [answerSentence, h]
  rfl

variable {o : Parsing.Outcome} (h : Parsing.attempt s.lexicon {} sentence s.counters = .ok o)
include h

theorem answerSentence_of_rejected (hentry : o.entry? = none) :
    s.answerSentence evaluates sentence =
      ⟨Transcript.ofLog (LogLine.ofParse o) ++ .line (verdictWord false) :: unknownLines o,
        .go { s with counters := o.counters }⟩ := by
  simp only [answerSentence, h, hentry]

theorem answerSentence_of_accepted {entry : ChartEntry} (hentry : o.entry? = some entry) :
    let shown := Transcript.ofLog (LogLine.ofParse o) ++
      (if s.showsDerivation then [.line entry.listingText] else []) ++ [.line entry.expression.meaning.text]
    s.answerSentence evaluates sentence =
      if evaluates then answerEvaluation { s with counters := o.counters } shown entry.expression.meaning
      else ⟨shown, .go { s with counters := o.counters }⟩ := by
  simp only [answerSentence, h, hentry]

end

/-- What is answered whatever the counters are, and they stay: the end of the dialogue, or what it goes on with. -/
def Setup.Settles (setup next : Setup) (answer : Session → Answer) : Prop :=
  ∃ transcript, (∃ ending, ∀ c, answer (setup.session c) = ⟨transcript, .stop ending⟩) ∨
    ∀ c, answer (setup.session c) = ⟨transcript, .go (next.session c)⟩

namespace Setup
variable (setup : Setup) (files : Files)

theorem settles_say (lines : List Text) : setup.Settles setup (·.say lines) := ⟨_, .inr fun _ => rfl⟩

theorem settles_list (lines : List (Option Text)) : setup.Settles setup (·.list lines) := by
  unfold Session.list
  split
  · exact ⟨_, .inr fun _ => rfl⟩
  · exact ⟨_, .inl ⟨_, fun _ => rfl⟩⟩

theorem settles_answerDerivation (value : Text) :
    setup.Settles ((setup.change? files (.derivation value)).getD setup) (·.answerDerivation value) := by
  unfold answerDerivation
  dsimp only [change?]
  split
  · exact ⟨_, .inr fun _ => rfl⟩
  · split
    · exact ⟨_, .inr fun _ => rfl⟩
    · exact ⟨_, .inr fun _ => rfl⟩

theorem settles_meet (before : Transcript) (tell : Text → Output) (obstacle : Obstacle) :
    setup.Settles setup (·.meet before tell obstacle) := by
  cases obstacle with
  | failure message => exact ⟨_, .inr fun _ => rfl⟩
  | defect d => exact ⟨_, .inl ⟨_, fun _ => rfl⟩⟩

theorem settles_answerLoad (arguments : Text) :
    setup.Settles ((setup.change? files (.load arguments)).getD setup) (answerLoad files · arguments) := by
  unfold answerLoad
  dsimp only [change?]
  cases loadTarget? arguments with
  | none => exact setup.settles_say _
  | some target =>
    obtain ⟨kind, path⟩ := target
    cases kind with
    | grammar =>
      dsimp only [load]
      generalize files.loadGrammar path = loaded
      obtain ⟨log, result⟩ := loaded
      cases result with
      | error e => exact setup.settles_meet _ _ _
      | ok l => exact ⟨_, .inr fun _ => rfl⟩
    | model =>
      dsimp only [load]
      generalize files.loadModel path = loaded
      obtain ⟨log, result⟩ := loaded
      cases result with
      | error e => exact setup.settles_meet _ _ _
      | ok m => exact ⟨_, .inr fun _ => rfl⟩

theorem settles_answerAssign (arguments : Text) :
    setup.Settles ((setup.change? files (.assign arguments)).getD setup) (·.answerAssign arguments) := by
  unfold answerAssign
  dsimp only [change?, assignmentOf?]
  generalize Text.words arguments = words
  match words with
  | [index, entity] =>
    dsimp only
    cases Assignment.ofText (index ++ "=" ++ entity) with
    | error e => exact setup.settles_say _
    | ok a =>
      dsimp only [Except.toOption, Option.bind_some]
      by_cases hentity : setup.model.isEntity (.text a.entity)
      · rw [if_pos hentity]
        exact ⟨_, .inr fun c => (if_pos hentity).trans rfl⟩
      · rw [if_neg hentity]
        exact ⟨_, .inr fun c => (if_neg hentity).trans rfl⟩
  | [] | [_] | _ :: _ :: _ :: _ => exact setup.settles_say _

theorem settles_answerEvaluation (before : Transcript) (f : Formula) :
    setup.Settles setup (·.answerEvaluation before f) := by
  let told := before ++ Transcript.ofLog (LogLine.ofEvaluation setup.model f)
  cases hvalue : setup.model.evaluate f with
  | ok value =>
    exact ⟨told ++ [.line (truthWord value)], .inr fun c =>
      (setup.session c).answerEvaluation_of_ok before hvalue⟩
  | error e =>
    cases hmessage : e.message? with
    | none =>
      exact ⟨told, .inl ⟨.defect (.evaluation e), fun c =>
        (setup.session c).answerEvaluation_of_defect before hvalue hmessage⟩⟩
    | some message =>
      exact ⟨told ++ [.line ("Error: " ++ message)], .inr fun c =>
        (setup.session c).answerEvaluation_of_message before hvalue hmessage⟩

theorem settles_answerFormula (text : Text) : setup.Settles setup (·.answerFormula text) := by
  unfold answerFormula
  cases Formula.read text with
  | error e => exact setup.settles_say _
  | ok f => exact setup.settles_answerEvaluation [] f

theorem settles_answerRequest {request : Request} (h : request.hasSentence = false) :
    setup.Settles ((setup.change? files request).getD setup) (answerRequest files · request) := by
  cases request with
  | nothing => exact ⟨_, .inr fun _ => rfl⟩
  | quit => exact ⟨_, .inl ⟨_, fun _ => rfl⟩⟩
  | help => exact setup.settles_say _
  | showLexicon => exact setup.settles_list (lexiconLines setup.lexicon)
  | showModel => exact setup.settles_list (modelLines setup.model)
  | derivation value => exact setup.settles_answerDerivation files value
  | load arguments => exact setup.settles_answerLoad files arguments
  | assign arguments => exact setup.settles_answerAssign files arguments
  | formula text => exact setup.settles_answerFormula text
  | parse sentence => cases h
  | eval sentence => cases h
  | unknown command => exact setup.settles_say _

end Setup

theorem Setup.Settles.transcript_eq {setup after : Setup} {answer : Session → Answer} (h : setup.Settles after answer)
    (c c' : Counters) : (answer (setup.session c')).transcript = (answer (setup.session c)).transcript := by
  obtain ⟨transcript, ⟨ending, hstop⟩ | hgo⟩ := h
  · rw [hstop c, hstop c']
  · rw [hgo c, hgo c']

theorem Setup.Settles.setup_eq {s next : Session} {after : Setup} {answer : Session → Answer}
    (h : s.setup.Settles after answer) (hgo : (answer s).next = .go next) : next.setup = after := by
  obtain ⟨transcript, ⟨ending, hstop⟩ | hnext⟩ := h
  · have hanswer : answer s = ⟨transcript, .stop ending⟩ := hstop s.counters
    rw [hanswer] at hgo
    cases hgo
  · have hanswer : answer s = ⟨transcript, .go (after.session s.counters)⟩ := hnext s.counters
    rw [hanswer] at hgo
    cases hgo
    rfl

theorem setup_of_answerSentence {s next : Session} {evaluates : Bool} {sentence : Text}
    (h : (s.answerSentence evaluates sentence).next = .go next) : next.setup = s.setup := by
  unfold answerSentence at h
  split at h
  · cases h
  · dsimp only at h
    split at h
    · cases h
      rfl
    · split at h
      · have hsetup := (Setup.settles_answerEvaluation _ _ _).setup_eq h
        exact hsetup
      · cases h
        rfl

theorem setup_of_answerRequest {s next : Session} {request : Request}
    (h : (answerRequest files s request).next = .go next) :
    next.setup = (s.setup.change? files request).getD s.setup := by
  cases hsentence : request.hasSentence with
  | false => exact (s.setup.settles_answerRequest files hsentence).setup_eq h
  | true =>
    cases request with
    | parse sentence => exact setup_of_answerSentence h
    | eval sentence => exact setup_of_answerSentence h
    | _ => cases hsentence

/-- A piece of what is put out, in which generated indices may occur. -/
inductive Told where
  | text (content : Text)
  | formula (f : Formula)
  | derivation (entry : ChartEntry)
  | failure (error : EvaluationError)

def Told.output (σ : Shift) : Told → Output
  | text content => .out content
  | formula f => .line (f.mapIndices σ.index).text
  | derivation entry => .line (entry.shift σ).listingText
  | failure error => .line ("Error: " ++ ((error.mapIndices σ.index).message?.getD []))

def Told.stdout (told : List Told) (c : Counters) : Text :=
  Transcript.stdout (told.map (output c.indexShift))

theorem Told.stdout_singleton (told : Told) (c : Counters) :
    stdout [told] c = Transcript.stdout [told.output c.indexShift] := rfl

theorem Told.stdout_append (told more : List Told) (c : Counters) :
    stdout (told ++ more) c = stdout told c ++ stdout more c := by
  rw [stdout, List.map_append, Transcript.stdout_append]
  rfl

/-- From any counters the same is told: either all answers end the dialogue, or it goes on with one setup after each,
and they put out the same but for the numbers of generated indices. -/
def Setup.IsToldAlike (next : Setup) (answer : Counters → Answer) : Prop :=
  (∀ c, c.nextIndex < 0 → ∃ ending, (answer c).next = .stop ending) ∨
    ∃ told : List Told, ∀ c, c.nextIndex < 0 → (answer c).transcript.stdout = Told.stdout told c ∧
      ∃ c', c'.nextIndex < 0 ∧ (answer c).next = .go (next.session c')

namespace Setup
variable {setup next : Setup}

theorem IsToldAlike.congr {answer answer' : Counters → Answer} (h : next.IsToldAlike answer)
    (heq : ∀ c, answer' c = answer c) : next.IsToldAlike answer' := by
  rwa [funext heq]

/-- What does not look at the counters tells the same. -/
theorem Settles.isToldAlike {answer : Session → Answer} (h : setup.Settles next answer) :
    next.IsToldAlike fun c => answer (setup.session c) := by
  obtain ⟨transcript, ⟨ending, hstop⟩ | hgo⟩ := h
  · exact .inl fun c _ => ⟨ending, congrArg Answer.next (hstop c)⟩
  · refine .inr ⟨[.text transcript.stdout], fun c hc => ⟨?_, c, hc, congrArg Answer.next (hgo c)⟩⟩
    have htranscript := congrArg (Transcript.stdout ∘ Answer.transcript) (hgo c)
    exact htranscript.trans (List.append_nil _).symm

theorem isToldAlike_answerEvaluation (h : setup.model.IsPronominal) {after : Counters → Counters}
    (hafter : ∀ c, c.nextIndex < 0 → (after c).nextIndex < 0) {before : Counters → Transcript} {told : List Told}
    (hbefore : ∀ c, c.nextIndex < 0 → (before c).stdout = Told.stdout told c) (f : Formula) :
    setup.IsToldAlike fun c =>
      (setup.session (after c)).answerEvaluation (before c) (f.mapIndices c.indexShift.index) := by
  have hevaluate {c : Counters} (hc : c.nextIndex < 0) :
      (setup.session (after c)).model.evaluate (f.mapIndices c.indexShift.index) =
        (setup.model.evaluate f).mapError (EvaluationError.mapIndices c.indexShift.index) :=
    h.evaluate_mapIndices (Counters.indices_indexShift_le hc) f
  cases hvalue : setup.model.evaluate f with
  | ok value =>
    refine .inr ⟨told ++ [.text (truthWord value ++ "\n")], fun c hc => ?_⟩
    have hok := hevaluate hc
    rw [hvalue] at hok
    dsimp only
    rw [answerEvaluation_of_ok _ _ hok]
    refine ⟨?_, after c, hafter c hc, rfl⟩
    simp only [Transcript.stdout_append, Transcript.stdout_ofLog, hbefore c hc, Told.stdout_append, List.append_nil]
    rfl
  | error e =>
    have herror {c : Counters} (hc : c.nextIndex < 0) :
        (setup.session (after c)).model.evaluate (f.mapIndices c.indexShift.index) =
          .error (e.mapIndices c.indexShift.index) := by
      rw [hevaluate hc, hvalue]
      rfl
    cases hmessage : e.message?.isSome with
    | false =>
      refine .inl fun c hc => ⟨.defect (.evaluation (e.mapIndices c.indexShift.index)), ?_⟩
      have hnone : (e.mapIndices c.indexShift.index).message? = none :=
        Option.not_isSome_iff_eq_none.mp (by simp [hmessage])
      dsimp only
      rw [answerEvaluation_of_defect _ _ (herror hc) hnone]
    | true =>
      refine .inr ⟨told ++ [.failure e], fun c hc => ?_⟩
      obtain ⟨message, hsome⟩ := Option.isSome_iff_exists.mp ((e.isSome_message?_mapIndices _).trans hmessage)
      dsimp only
      rw [answerEvaluation_of_message _ _ (herror hc) hsome]
      refine ⟨?_, after c, hafter c hc, rfl⟩
      have hfailure : Told.output c.indexShift (.failure e) = .line ("Error: " ++ message) := by
        rw [Told.output, hsome, Option.getD_some]
      simp only [Transcript.stdout_append, Transcript.stdout_ofLog, hbefore c hc, Told.stdout_append, List.append_nil]
      rw [Told.stdout_singleton, hfailure]

def showing (setup : Setup) (entry : ChartEntry) : List Told :=
  (if setup.showsDerivation then [.derivation entry] else []) ++ [.formula entry.expression.meaning]

theorem stdout_showing (setup : Setup) (entry : ChartEntry) (log : List LogLine) (c : Counters) :
    let accepted := entry.shift (Counters.shiftTo {} c)
    Transcript.stdout (Transcript.ofLog log ++ (if setup.showsDerivation then [.line accepted.listingText] else []) ++
      [.line accepted.expression.meaning.text]) = Told.stdout (setup.showing entry) c := by
  intro accepted
  have hlisting : accepted.listingText = (entry.shift c.indexShift).listingText := ChartEntry.listingText_shift _ _
  have hmeaning : accepted.expression.meaning = entry.expression.meaning.mapIndices c.indexShift.index := by
    rw [ChartEntry.expression_shift, Expression.meaning_mapIndices]
    rfl
  rw [hlisting, hmeaning, showing, Told.stdout_append, Transcript.stdout_append, Transcript.stdout_append,
    Transcript.stdout_ofLog]
  congr 1
  split <;> rfl

section Sentence
variable {evaluates : Bool} {sentence : Text}

/-- A parse that finds nothing tells which words are unknown, and these depend on the sentence only. -/
theorem isToldAlike_of_rejected
    (hparse : ∀ c, Parsing.attempt setup.lexicon {} sentence c = .ok (setup.setting.parse sentence c))
    (hentry : ∀ c, Parsing.Outcome.entry? (setup.setting.parse sentence c) = none) :
    setup.IsToldAlike fun c => (setup.session c).answerSentence evaluates sentence := by
  let verdict : Transcript := .line (verdictWord false) :: unknownLines (setup.setting.parse sentence {})
  have hunknown (c : Counters) :
      unknownLines (setup.setting.parse sentence c) = unknownLines (setup.setting.parse sentence {}) := by
    simp only [unknownLines, setup.setting.unknown_parse]
  refine .inr ⟨[.text verdict.stdout], fun c hc => ?_⟩
  dsimp only
  rw [answerSentence_of_rejected (hparse c) (hentry c), hunknown]
  refine ⟨?_, _, Int.lt_of_le_of_lt (setup.setting.nextIndex_parse_le sentence c) hc, rfl⟩
  rw [Transcript.stdout_append, Transcript.stdout_ofLog]
  exact (List.append_nil _).symm

theorem isToldAlike_of_accepted (h : setup.model.IsPronominal)
    (hparse : ∀ c, Parsing.attempt setup.lexicon {} sentence c = .ok (setup.setting.parse sentence c))
    {entry : ChartEntry} (hentry : ∀ c, Parsing.Outcome.entry? (setup.setting.parse sentence c) =
      some (entry.shift (Counters.shiftTo {} c))) :
    setup.IsToldAlike fun c => (setup.session c).answerSentence evaluates sentence := by
  have hcounters (c : Counters) (hc : c.nextIndex < 0) : (setup.setting.parse sentence c).counters.nextIndex < 0 :=
    Int.lt_of_le_of_lt (setup.setting.nextIndex_parse_le sentence c) hc
  have hshown (c : Counters) (_ : c.nextIndex < 0) :=
    setup.stdout_showing entry (LogLine.ofParse (setup.setting.parse sentence c)) c
  cases evaluates with
  | true =>
    have hevaluated := isToldAlike_answerEvaluation h hcounters hshown entry.expression.meaning
    refine hevaluated.congr fun c => ?_
    rw [answerSentence_of_accepted (hparse c) (hentry c), if_pos rfl, ChartEntry.expression_shift,
      Expression.meaning_mapIndices]
    rfl
  | false =>
    refine .inr ⟨setup.showing entry, fun c hc => ?_⟩
    dsimp only
    rw [answerSentence_of_accepted (hparse c) (hentry c), if_neg Bool.false_ne_true]
    exact ⟨hshown c hc, _, hcounters c hc, rfl⟩

/-- A sentence is parsed with the next indices, which are generated in the same order. -/
theorem isToldAlike_answerSentence (h : setup.IsPronominal) (evaluates : Bool) (sentence : Text) :
    setup.IsToldAlike fun c => (setup.session c).answerSentence evaluates sentence := by
  rcases Parsing.attempt_cases setup.lexicon {} sentence with hparse | hbroken
  · have hentry (c : Counters) := setup.setting.entry_parse_eq h.lexicon sentence c
    cases hfirst : Parsing.Outcome.entry? (setup.setting.parse sentence {}) with
    | none => exact isToldAlike_of_rejected hparse fun c => by rw [hentry, hfirst, Option.map_none]
    | some entry => exact isToldAlike_of_accepted h.model hparse fun c => by rw [hentry, hfirst, Option.map_some]
  · refine .inl fun c _ => ?_
    obtain ⟨i, hi⟩ := hbroken c
    exact ⟨_, next_of_broken hi⟩

end Sentence

theorem isToldAlike_answerRequest (h : setup.IsPronominal) (files : Files) (request : Request) :
    ((setup.change? files request).getD setup).IsToldAlike fun c =>
      answerRequest files (setup.session c) request := by
  cases hsentence : request.hasSentence with
  | false => exact (setup.settles_answerRequest files hsentence).isToldAlike
  | true =>
    cases request with
    | parse sentence => exact isToldAlike_answerSentence h false sentence
    | eval sentence => exact isToldAlike_answerSentence h true sentence
    | _ => cases hsentence

end Setup

end Session
end CommandLine
end MinimalistGrammar
