import MinimalistGrammar.Proofs.Answers

/-! Dialogues as sequences of turns. What a line does depends on the setup that the turns before it have come to, and
on nothing else that they have done: the counters, which sentences move on, show in the numbers of generated indices
only, so that turns without an effect on the setup can as well be left out. -/
namespace MinimalistGrammar
namespace CommandLine

/-- A line that a dialogue goes on after: the session before it, what is put out for it, and the session after it. -/
structure Turn where
  line : Text
  before : Session
  transcript : Transcript
  after : Session

namespace Turn

def request (t : Turn) : Request := Request.ofLine t.line

def IsAnswer (files : Files) (t : Turn) : Prop :=
  t.before.answer files (.line t.line) = ⟨t.transcript, .go t.after⟩

def output (t : Turn) : Transcript := Session.prompt :: t.transcript

/-- Two turns with one line and one setup put out the same, but for the numbers of generated indices. -/
structure Agrees (t t' : Turn) : Prop where
  line_eq : t'.line = t.line
  before_eq : t'.before.setup = t.before.setup
  after_eq : t'.after.setup = t.after.setup
  stdout_eq : ∃ told : List Session.Told,
    t.transcript.stdout = Session.Told.stdout told t.before.counters ∧
      t'.transcript.stdout = Session.Told.stdout told t'.before.counters
  transcript_eq : t.request.hasSentence = false → t'.transcript = t.transcript

end Turn

namespace Session

def turns (files : Files) : Session → List Text → List Turn
  | _, [] => []
  | s, line :: rest =>
    let a := s.answer files (.line line)
    match a.next with
    | .stop _ => []
    | .go next => ⟨line, s, a.transcript, next⟩ :: turns files next rest

variable {files : Files} {s s' next : Session} {line : Text} {lines : List Text}

theorem turns_cons_of_go {transcript : Transcript} (h : s.answer files (.line line) = ⟨transcript, .go next⟩)
    (rest : List Text) : s.turns files (line :: rest) = ⟨line, s, transcript, next⟩ :: next.turns files rest := by
  rw [turns, h]

theorem turns_cons_of_stop {transcript : Transcript} {ending : Ending}
    (h : s.answer files (.line line) = ⟨transcript, .stop ending⟩) (rest : List Text) :
    s.turns files (line :: rest) = [] := by
  rw [turns, h]

theorem forall_turns {I : Session → Prop} (h : I s)
    (hanswer : ∀ t : Turn, t.line ∈ lines → t.IsAnswer files → I t.before → I t.after) :
    ∀ t ∈ s.turns files lines, t.line ∈ lines ∧ t.IsAnswer files ∧ I t.before ∧ I t.after := by
  induction lines generalizing s with
  | nil => exact fun t ht => nomatch ht
  | cons line rest ih =>
    cases hline : s.answer files (.line line) with
    | mk transcript next? =>
      cases next? with
      | stop ending =>
        rw [turns_cons_of_stop hline]
        exact fun t ht => nomatch ht
      | go next =>
        have hnext : I next := hanswer ⟨line, s, transcript, next⟩ List.mem_cons_self hline h
        have hrest := ih hnext fun t ht => hanswer t (List.mem_cons_of_mem line ht)
        rw [turns_cons_of_go hline]
        refine List.forall_mem_cons.mpr ⟨⟨List.mem_cons_self, hline, h, hnext⟩, fun t ht => ?_⟩
        exact (hrest t ht).imp_left (List.mem_cons_of_mem line)

/-- A dialogue whose lines all have turns has put these out, and goes on with the session after the last one. -/
theorem exists_run_eq (h : (s.turns files lines).map (·.line) = lines) :
    ∃ last : Session, ∀ inputs, run files s (lines.map .line ++ inputs) =
      ((s.turns files lines).flatMap Turn.output ++ (run files last inputs).1, (run files last inputs).2) := by
  induction lines generalizing s with
  | nil => exact ⟨s, fun _ => rfl⟩
  | cons line rest ih =>
    cases hline : s.answer files (.line line) with
    | mk transcript next? =>
      cases next? with
      | stop ending =>
        rw [turns_cons_of_stop hline] at h
        cases h
      | go next =>
        rw [turns_cons_of_go hline] at h
        obtain ⟨last, hlast⟩ := ih (List.cons.inj h).2
        refine ⟨last, fun inputs => ?_⟩
        rw [turns_cons_of_go hline, List.map_cons, List.cons_append, run, hline]
        dsimp only
        rw [hlast, List.flatMap_cons, List.append_assoc]
        rfl

/-- With files of the right types every line has its turn, except those that quit. -/
theorem IsWellFormed.map_line_turns (hfiles : files.AreTyped) (h : s.IsWellFormed)
    (hlines : ∀ line ∈ lines, Request.ofLine line ≠ .quit) : (s.turns files lines).map (·.line) = lines := by
  induction lines generalizing s with
  | nil => rfl
  | cons line rest ih =>
    obtain ⟨hline, hrest⟩ := List.forall_mem_cons.mp hlines
    obtain ⟨next, hgo, hnext⟩ := h.answerRequest hfiles hline
    have hanswer : s.answer files (.line line) = ⟨(s.answer files (.line line)).transcript, .go next⟩ :=
      congrArg (Answer.mk _) hgo
    rw [turns_cons_of_go hanswer, List.map_cons, ih hnext hrest]

/-- What requests with indices of pronouns keep: so are the indices of the setup, and the next one is generated. -/
structure IsPronominal (s : Session) : Prop where
  setup : s.setup.IsPronominal
  nextIndex_neg : s.counters.nextIndex < 0

theorem eq_session_of_setup_eq (h : s'.setup = s.setup) : s' = s.setup.session s'.counters := by
  rw [← h]
  rfl

theorem IsPronominal.exists_agrees (hfiles : files.ArePronominal) (hline : (Request.ofLine line).isPronominal)
    (h : s.IsPronominal) (h' : s'.IsPronominal) (hsetup : s'.setup = s.setup) {transcript : Transcript}
    (hanswer : s.answer files (.line line) = ⟨transcript, .go next⟩) :
    ∃ transcript' next', s'.answer files (.line line) = ⟨transcript', .go next'⟩ ∧ next'.IsPronominal ∧
      Turn.Agrees ⟨line, s, transcript, next⟩ ⟨line, s', transcript', next'⟩ := by
  have hs' := eq_session_of_setup_eq hsetup
  have hnext : (s.answer files (.line line)).next = .go next := congrArg Answer.next hanswer
  have htranscript : (s.answer files (.line line)).transcript = transcript := congrArg Answer.transcript hanswer
  rcases Setup.isToldAlike_answerRequest h.setup files (Request.ofLine line) with hstop | ⟨told, htold⟩
  · obtain ⟨ending, hending⟩ := hstop s.counters h.nextIndex_neg
    cases hending.symm.trans hnext
  · obtain ⟨hstdout, c, -, hgo⟩ := htold s.counters h.nextIndex_neg
    obtain ⟨hstdout', c', hc', hgo'⟩ := htold s'.counters h'.nextIndex_neg
    dsimp only at hstdout' hgo'
    rw [← hs'] at hstdout' hgo'
    have hafter : next.setup = (s.setup.change? files (Request.ofLine line)).getD s.setup :=
      congrArg Session.setup (Next.go.inj (hnext.symm.trans hgo))
    refine ⟨_, _, congrArg (Answer.mk _) hgo', ⟨h.setup.getD_change? hfiles hline, hc'⟩, ?_⟩
    refine ⟨rfl, hsetup, hafter.symm, ⟨told, htranscript ▸ hstdout, hstdout'⟩, fun hsentence => ?_⟩
    have hsettled := s.setup.settles_answerRequest files hsentence
    have hsame := hsettled.transcript_eq s.counters s'.counters
    rw [← hs'] at hsame
    exact hsame.trans htranscript

theorem IsPronominal.of_answer (hfiles : files.ArePronominal) (hline : (Request.ofLine line).isPronominal)
    (h : s.IsPronominal) {transcript : Transcript}
    (hanswer : s.answer files (.line line) = ⟨transcript, .go next⟩) : next.IsPronominal := by
  obtain ⟨transcript', next', hagain, hnext, -⟩ := h.exists_agrees hfiles hline h rfl hanswer
  rw [hanswer] at hagain
  cases hagain
  exact hnext

theorem IsPronominal.forall_turns (hfiles : files.ArePronominal)
    (hlines : ∀ line ∈ lines, (Request.ofLine line).isPronominal) (h : s.IsPronominal) :
    ∀ t ∈ s.turns files lines, t.line ∈ lines ∧ t.IsAnswer files ∧ t.before.IsPronominal ∧ t.after.IsPronominal :=
  Session.forall_turns h fun t ht hanswer hbefore => hbefore.of_answer hfiles (hlines t.line ht) hanswer

/-- Turns that leave the setup as it is can be left out: the other lines have the turns that they had. -/
theorem IsPronominal.agrees_filter (hfiles : files.ArePronominal)
    (hlines : ∀ line ∈ lines, (Request.ofLine line).isPronominal) (h : s.IsPronominal) (h' : s'.IsPronominal)
    (hsetup : s'.setup = s.setup) {keep : Turn → Bool}
    (hkeep : ∀ t ∈ s.turns files lines, t.after.setup ≠ t.before.setup → keep t) :
    let kept := (s.turns files lines).filter keep
    List.Forall₂ Turn.Agrees kept (s'.turns files (kept.map (·.line))) := by
  induction lines generalizing s s' with
  | nil => exact .nil
  | cons line rest ih =>
    obtain ⟨hline, hrest⟩ := List.forall_mem_cons.mp hlines
    cases hanswer : s.answer files (.line line) with
    | mk transcript next? =>
      cases next? with
      | stop ending =>
        rw [turns_cons_of_stop hanswer]
        exact .nil
      | go next =>
        have hnext := h.of_answer hfiles hline hanswer
        rw [turns_cons_of_go hanswer] at hkeep ⊢
        obtain ⟨hfirst, hothers⟩ := List.forall_mem_cons.mp hkeep
        by_cases hkept : keep ⟨line, s, transcript, next⟩
        · obtain ⟨transcript', next', hanswer', hnext', hagrees⟩ := h.exists_agrees hfiles hline h' hsetup hanswer
          intro kept
          simp only [kept, List.filter_cons_of_pos hkept, List.map_cons, turns_cons_of_go hanswer']
          exact .cons hagrees (ih hrest hnext hnext' hagrees.after_eq hothers)
        · have hunchanged : next.setup = s.setup := by
            by_contra hchanged
            exact hkept (hfirst hchanged)
          intro kept
          simp only [kept, List.filter_cons_of_neg hkept]
          exact ih hrest hnext h' (hsetup.trans hunchanged.symm) hothers

def Begins (files : Files) (s : Session) : Prop :=
  ∃ grammar? model?, (start files grammar? model?).next = .go s

theorem Begins.of_load {I : Session → Prop} (h : s.Begins files) (hempty : I {})
    (hgrammar : ∀ (s : Session) path l, I s → (files.loadGrammar path).2 = .ok l → I { s with lexicon := l })
    (hmodel : ∀ (s : Session) path m, I s → (files.loadModel path).2 = .ok m → I { s with model := m }) : I s := by
  have hload (s : Session) (path : Text) (kind : FileKind) (hs : I s) :
      Yields I (fun _ => True) (load files s path kind).2 := by
    cases kind with
    | grammar => exact (Yields.of_forall_eq_ok fun l hl => hgrammar s path l hs hl).map fun _ h => h
    | model => exact (Yields.of_forall_eq_ok fun m hm => hmodel s path m hs hm).map fun _ h => h
  obtain ⟨grammar?, model?, hstart⟩ := h
  have hthere (path : Text) : Model.FailsOnly (fun _ => True) (files.isThere path) := .trivially _
  have hinitial := yields_initial hthere hload hempty grammar? model?
  unfold start at hstart
  generalize initial files grammar? model? = began at hinitial hstart
  obtain ⟨said, result⟩ := began
  cases result with
  | error e =>
    dsimp only at hstart
    cases hstart
  | ok first =>
    cases hstart
    exact hinitial

theorem Begins.assignsEntities (h : s.Begins files) : s.model.AssignsEntities :=
  h.of_load (I := fun s => s.model.AssignsEntities) (fun _ ha => nomatch ha) (fun _ _ _ hs _ => hs)
    fun _ _ _ _ hm => Files.assignsEntities_of_loadModel hm

theorem Begins.isWellFormed (hfiles : files.AreTyped) (h : s.Begins files) : s.IsWellFormed :=
  h.of_load isWellFormed_empty (fun _ path _ hs hl => ⟨(hfiles.grammars path).gives hl, hs.model⟩)
    fun _ path _ hs hm => ⟨hs.lexicon, (hfiles.models path).gives hm⟩

theorem Begins.isPronominal (hfiles : files.ArePronominal) (h : s.Begins files) : s.IsPronominal :=
  h.of_load ⟨⟨fun _ hitem => (nomatch hitem), fun _ ha => nomatch ha⟩, by decide⟩
    (fun _ path l hs hl => ⟨⟨hfiles.grammars path l hl, hs.setup.model⟩, hs.nextIndex_neg⟩)
    fun _ path m hs hm => ⟨⟨hs.setup.lexicon, hfiles.models path m hm⟩, hs.nextIndex_neg⟩

theorem assignsEntities_of_isAnswer {t : Turn} (h : t.IsAnswer files) (ht : t.before.model.AssignsEntities) :
    t.after.model.AssignsEntities := by
  have hsetup := setup_of_answerRequest (congrArg Answer.next h)
  have hmodel : t.after.model = ((t.before.setup.change? files t.request).getD t.before.setup).model :=
    congrArg Setup.model hsetup
  rw [hmodel]
  exact Setup.assignsEntities_getD_change? ht

theorem Begins.assignsEntities_turns (h : s.Begins files) : ∀ t ∈ s.turns files lines,
    t.line ∈ lines ∧ t.IsAnswer files ∧ t.before.model.AssignsEntities ∧ t.after.model.AssignsEntities :=
  forall_turns (I := fun s => s.model.AssignsEntities) h.assignsEntities fun _ _ => assignsEntities_of_isAnswer

/-- A line changes the setup by loading, assigning or switching with success, each its own part of it, and no line
else does; what is assigned is always an entity. With files of the right types the turns are those of all lines up
to the end. If indices that are written are those of pronouns, lines without an effect on the setup can be left out,
and two turns with one line and one setup put out the same but for the numbers of generated indices. -/
theorem turns_determined_by_setup (files : Files) :
    (∀ s, Begins files s → ∀ lines,
      s.model.AssignsEntities ∧
      (∀ t ∈ s.turns files lines,
        t.after.setup = (t.before.setup.change? files t.request).getD t.before.setup ∧
          t.after.model.AssignsEntities) ∧
      (files.AreTyped → (∀ line ∈ lines, Request.ofLine line ≠ .quit) →
        (s.turns files lines).map (·.line) = lines ∧
          ∃ last : Session, ∀ inputs, run files s (lines.map .line ++ inputs) =
            ((s.turns files lines).flatMap Turn.output ++ (run files last inputs).1, (run files last inputs).2))) ∧
    (files.ArePronominal → ∀ s, Begins files s → ∀ lines, (∀ line ∈ lines, (Request.ofLine line).isPronominal) →
      (∀ keep : Turn → Bool, (∀ t ∈ s.turns files lines, t.after.setup ≠ t.before.setup → keep t) →
        let kept := (s.turns files lines).filter keep
        List.Forall₂ Turn.Agrees kept (s.turns files (kept.map (·.line)))) ∧
      ∀ s', Begins files s' → ∀ lines', (∀ line ∈ lines', (Request.ofLine line).isPronominal) →
        ∀ t ∈ s.turns files lines, ∀ t' ∈ s'.turns files lines',
          t'.line = t.line → t'.before.setup = t.before.setup → t.Agrees t') := by
  refine ⟨fun s hs lines => ⟨hs.assignsEntities, fun t ht => ?_, fun hfiles hlines => ?_⟩,
    fun hfiles s hs lines hlines => ⟨fun keep hkeep => ?_, fun s' hs' lines' hlines' t ht t' ht' hline hsetup => ?_⟩⟩
  · obtain ⟨-, hanswer, -, hafter⟩ := hs.assignsEntities_turns t ht
    exact ⟨setup_of_answerRequest (congrArg Answer.next hanswer), hafter⟩
  · have hall := (hs.isWellFormed hfiles).map_line_turns hfiles hlines
    exact ⟨hall, exists_run_eq hall⟩
  · have hpronominal := hs.isPronominal hfiles
    exact hpronominal.agrees_filter hfiles hlines hpronominal rfl hkeep
  · obtain ⟨hmem, hmade, hbefore, -⟩ := (hs.isPronominal hfiles).forall_turns hfiles hlines t ht
    obtain ⟨-, hmade', hbefore', -⟩ := (hs'.isPronominal hfiles).forall_turns hfiles hlines' t' ht'
    obtain ⟨transcript, next, hagain, -, hagrees⟩ :=
      hbefore.exists_agrees hfiles (hlines t.line hmem) hbefore' hsetup hmade
    obtain ⟨line', before', transcript', after'⟩ := t'
    cases hline
    rw [Turn.IsAnswer] at hmade'
    cases hmade'.symm.trans hagain
    exact hagrees

/-- A grammar and a model in one file, a sentence with a quantifier that is evaluated twice, lines between that fail
or are unknown, and lines that succeed, of which one changes nothing. -/
theorem turns_determined_by_setup_every_girl :
    let entry (token features meaning : Text) : Json :=
      .obj [("token", .str token), ("features", .str features), ("meaning", .str meaning)]
    let document : Json := .obj [("start_symbols", .str "c"),
      ("lexicon", .arr [entry "every" "+n -d -k -q" "every", entry "girl" "-n" "girl", entry "he" "-d" "x_1",
        entry "chase" "+d +d -v" "chase", entry "-s" "+v +k -t" "present", entry "e" "+t +q -c" ""]),
      ("entities", .arr [.str "bob", .str "carol"]), ("events", .arr [.str "chasing"]),
      ("predicates", .obj [("girl", .arr [.str "carol"]), ("chase", .arr [.str "chasing"]),
        ("present", .arr [.str "chasing"])]),
      ("predicates2", .obj [("int", .arr [.arr [.str "chasing", .str "bob"]]),
        ("ext", .arr [.arr [.str "chasing", .str "carol"]])])]
    let files : Files := fun _ => .text document.indented
    let s : Session := match (start files (some "g.json") none).next with
      | .go s => s
      | .stop _ => {}
    let load : Text := "load model m.json"
    let assign : Text := "assign 1 bob"
    let sentence : Text := "eval e every girl chase -s he"
    let lines : List Text := [load, sentence, "assign 1 ann", "sing", sentence, assign, "derivation off"]
    let turns := s.turns files lines
    files.AreTyped ∧ files.ArePronominal ∧ Begins files s ∧ turns.map (·.line) = lines ∧
      (∀ t ∈ turns, t.after.model.AssignsEntities) ∧
      ∃ t t', turns[1]? = some t ∧ turns[4]? = some t' ∧ t'.transcript.stdout ≠ t.transcript.stdout ∧ t.Agrees t' ∧
        let changing := turns.filter fun t => t.after.setup ≠ t.before.setup
        changing.map (·.line) = [load, assign] ∧
          List.Forall₂ Turn.Agrees changing (s.turns files (changing.map (·.line))) := by
  intro entry document files s load assign sentence lines turns
  have hdocument : (Json.read (Text.unifyLineEnds document.indented)).toOption = some document := by decide +kernel
  have hread (path : Text) (found : Json) (h : files.readDocument path = .ok found) : found = document := by
    obtain ⟨content, hcontent, hfound⟩ := Files.exists_of_readDocument h
    cases hcontent
    rw [eq_ok_of_toOption_eq_some hdocument] at hfound
    exact (Except.ok.inj hfound).symm
  have htyped : files.AreTyped := by
    refine .of_holds (fun path found h => ?_) fun path found h => ?_
    · rw [hread path found h]
      decide
    · rw [hread path found h]
      decide
  have hpronominal : files.ArePronominal := by
    refine .of_documents (fun path found h => ?_) fun path found h => ?_
    · rw [hread path found h]
      decide +kernel
    · rw [hread path found h]
      decide +kernel
  have hbegins : Begins files s := by
    have hgo : (match (start files (some "g.json") none).next with
        | .go _ => true
        | .stop _ => false) = true := by decide +kernel
    refine ⟨some "g.json", none, ?_⟩
    cases hnext : (start files (some "g.json") none).next with
    | stop ending =>
      rw [hnext] at hgo
      cases hgo
    | go first => simp only [s, hnext]
  obtain ⟨hchanging, hsentences⟩ :
      (turns.filter fun t => t.after.setup ≠ t.before.setup).map (·.line) = [load, assign] ∧
      (turns[1]?).any fun t => (turns[4]?).any fun t' =>
        t'.line = t.line ∧ t'.before.setup = t.before.setup ∧ t'.transcript.stdout ≠ t.transcript.stdout := by
    decide +kernel
  obtain ⟨t, ht, hsecond⟩ := (Option.any_eq_true _ _).mp hsentences
  obtain ⟨t', ht', hboth⟩ := (Option.any_eq_true _ _).mp hsecond
  obtain ⟨hline, hsetup, hnumbers⟩ := of_decide_eq_true hboth
  obtain ⟨hany, hsame⟩ := turns_determined_by_setup files
  obtain ⟨-, heach, hall⟩ := hany s hbegins lines
  have hpronouns : ∀ line ∈ lines, (Request.ofLine line).isPronominal := by decide +kernel
  obtain ⟨hkept, hagree⟩ := hsame hpronominal s hbegins lines hpronouns
  refine ⟨htyped, hpronominal, hbegins, (hall htyped (by decide +kernel)).1, fun t ht => (heach t ht).2, t, t', ht,
    ht', hnumbers, ?_, hchanging, ?_⟩
  · exact hagree s hbegins lines hpronouns t (List.mem_of_getElem? ht) t' (List.mem_of_getElem? ht') hline hsetup
  · exact hkept _ fun t _ hchanged => decide_eq_true hchanged

end Session
end CommandLine
end MinimalistGrammar
