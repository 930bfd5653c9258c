import MinimalistGrammar.Proofs.Streams

/-! How commands end, whatever is in their files. With files of the described types they end with an exit code of
their own, also on a stream of UTF-8 if it can take the texts in the files. -/
namespace MinimalistGrammar
namespace CommandLine

/-- The command ends with an exit code. On a stream of UTF-8 it does so too, or by the error of a text that it prints
and that cannot be encoded. -/
structure EndsWithCode (run : Transcript × Ending) : Prop where
  code : ∃ code, run.2 = .code code
  onStream : (∃ code, (onStream run).2 = .own (.code code)) ∨ ∃ text error, .out text ∈ run.1 ∧
    EncodingError.find? (fun _ => false) text = some error ∧ (CommandLine.onStream run).2 = .refused error

namespace EndsWithCode
variable {run : Transcript × Ending}

theorem of_code (h : ∃ code, run.2 = .code code) : EndsWithCode run where
  code := h
  onStream := by
    obtain ⟨code, hcode⟩ := h
    rcases run.1.print_cases with hnone | hfailure | ⟨text, error, hmem, herror, hrefused⟩
    · exact .inl ⟨code, by rw [CommandLine.onStream, hnone, Option.getD_none, hcode]⟩
    · exact .inl ⟨1, by rw [CommandLine.onStream, hfailure, Option.getD_some, Ending.failure]⟩
    · exact .inr ⟨text, error, hmem, herror, by rw [CommandLine.onStream, hrefused, Option.getD_some]⟩

theorem exists_code_of_passes (h : EndsWithCode run) (hpasses : run.1.Passes) :
    ∃ code, (CommandLine.onStream run).2 = .own (.code code) := by
  refine h.onStream.resolve_right ?_
  rintro ⟨text, error, hmem, herror, -⟩
  have hencodable : text.IsEncodable := hpasses _ hmem
  rw [EncodingError.find?_eq_none_iff.mpr hencodable] at herror
  cases herror

end EndsWithCode

/-- A document of the described types is read as what it describes, or refused with a message, and from no other
document is anything well-formed read. From what a document describes only formulas are derived, and with files of
such documents every command ends with an exit code of its own. On a stream of UTF-8 this may fail for a text that
cannot be encoded, but not if all texts in the files can be, and what the user gives where it is shown. -/
theorem ends_with_code_of_described (document : Json) (l : Lexicon) (files : Files) :
    (document.describesGrammar →
      Yields Lexicon.IsWellFormed (fun e => e.message?.isSome) (Lexicon.ofDocument document)) ∧
    (document.describesModel →
      Yields Model.IsTextual (fun e => e.message?.isSome) (Model.ofDocument document)) ∧
    (∀ read, Lexicon.ofDocument document = .ok read → read.IsWellFormed → document.describesGrammar) ∧
    (document.partsHaveDistinctKeys →
      ∀ read, Model.ofDocument document = .ok read → read.IsTextual → document.describesModel) ∧
    (l.IsWellFormed → ∀ categories text counters,
      ∃ o, Parsing.attempt l categories text counters = .ok o ∧
        ∀ entry : ChartEntry, o.entry? = some entry → entry.expression.meaning.isWritable) ∧
    (∀ grammar : Text, files.HoldsGrammar grammar → ∀ sentence derivation json,
      EndsWithCode (runParse files (some grammar) sentence derivation json) ∧
        (files.HoldsEncodable grammar → (json → grammar.IsEncodable ∧ sentence.IsEncodable) →
          ∃ code, (onStream (runParse files (some grammar) sentence derivation json)).2 = .own (.code code))) ∧
    (∀ grammar model : Text, files.HoldsGrammar grammar → files.HoldsModel model →
      ∀ sentence assignments expected? derivation json, none ∉ assignments →
        EndsWithCode (runEval files (some grammar) (some model) sentence assignments expected? derivation json) ∧
          (files.HoldsEncodable grammar → (json → sentence.IsEncodable) → ∃ code,
            (onStream (runEval files (some grammar) (some model) sentence assignments expected? derivation json)).2 =
              .own (.code code))) ∧
    ((∀ path, files.HoldsGrammar path) → (∀ path, files.HoldsModel path) → ∀ grammar? model? inputs,
      EndsWithCode (runSession files grammar? model? inputs) ∧
        ((∀ path, files.HoldsEncodable path) → (∀ text, .line text ∈ inputs → text.IsEncodable) →
          ∃ code, (onStream (runSession files grammar? model? inputs)).2 = .own (.code code))) := by
  refine ⟨fun h => Lexicon.yields_ofDocument h, fun h => ?_,
    fun read hread h => Lexicon.describesGrammar_of_isWellFormed hread h,
    fun hkeys read hread h => Model.describesModel_of_isTextual hread hkeys h,
    fun h categories text counters => ?_, ?_, ?_, ?_⟩
  · exact (Model.yields_ofDocument h).imp fun m hm => hm.isTextual
  · exact ⟨_, Parsing.attempt_of_isWellFormed h categories text counters, fun entry hentry =>
      Parsing.isWritable_of_parse (Parsing.isWritable_of_mem_items h) hentry⟩
  · intro grammar hgrammar sentence derivation json
    have hends := EndsWithCode.of_code (exists_code_runParse hgrammar sentence derivation json)
    exact ⟨hends, fun hdocument hjson =>
      hends.exists_code_of_passes (passes_runParse hgrammar hdocument hjson derivation)⟩
  · intro grammar model hgrammar hmodel sentence assignments expected? derivation json h
    have hends := EndsWithCode.of_code (exists_code_runEval hgrammar hmodel sentence h expected? derivation json)
    exact ⟨hends, fun hdocument hjson => hends.exists_code_of_passes
      (passes_runEval hgrammar hdocument model assignments hjson expected? derivation)⟩
  · intro hgrammar hmodel grammar? model? inputs
    have htyped : files.AreTyped := .of_holds hgrammar hmodel
    have hends := EndsWithCode.of_code (exists_code_runSession htyped grammar? model? inputs)
    exact ⟨hends, fun hdocument hinputs => hends.exists_code_of_passes
      (passes_runSession htyped hdocument grammar? model? hinputs)⟩

/-- A lexicon with homophones, an entry that is none, a model that binds a pronoun to no entity of its own, a meaning
that is no text and a member of a predicate that is none, and a dialogue in which a file is loaded for what it is
not. -/
theorem ends_with_code_of_described_awkward :
    let lexicon : Json := .obj [("start_symbols", .str "c"), ("lexicon", .arr [
      .obj [("token", .str "he"), ("features", .str "-d"), ("meaning", .str "x_1")],
      .obj [("token", .str "sleeps"), ("features", .str "+d -c")]])]
    let entry : Json := .obj [("lexicon", .arr [.str "he"])]
    let model : Json := .obj [("entities", .str "ab"), ("assignments", .obj [("1", .str "c")])]
    let unread : Json := .obj [("lexicon", .arr [
      .obj [("token", .str "he"), ("features", .str "-d"), ("meaning", .null)]])]
    let unnamed : Json := .obj [("predicates", .obj [("girl", .arr [.int 5])])]
    let files : Files := fun path => if path = "g.json" then .text lexicon.indented else .text model.indented
    let load : Text := "load grammar m.json"
    (∃ l, Lexicon.ofDocument lexicon = .ok l ∧ l.IsWellFormed) ∧
      (∃ e, Lexicon.ofDocument entry = .error e ∧ e.message?.isSome) ∧
      (∃ e, Model.ofDocument model = .error e ∧ e.message?.isSome) ∧
      (∃ l, Lexicon.ofDocument unread = .ok l ∧ ¬l.IsWellFormed) ∧
      (∃ m, Model.ofDocument unnamed = .ok m ∧ ¬m.IsTextual) ∧
      (EndsWithCode (runParse files (some "g.json") "sleeps he" false true) ∧
        ∃ code, (onStream (runParse files (some "g.json") "sleeps he" false true)).2 = .own (.code code)) ∧
      (EndsWithCode (runEval files (some "g.json") (some "m.json") "sleeps he" [] none false false) ∧
        ∃ code, (onStream (runEval files (some "g.json") (some "m.json") "sleeps he" [] none false false)).2 =
          .own (.code code)) ∧
      EndsWithCode (runSession files (some "g.json") none [.line load, .line "eval sleeps he"]) ∧
        ∃ code, (onStream (runSession files (some "g.json") none [.line load, .line "eval sleeps he"])).2 =
          .own (.code code) := by
  intro lexicon entry model unread unnamed files load
  have hlexicon : (Json.read (Text.unifyLineEnds lexicon.indented)).toOption = some lexicon := by decide +kernel
  have hmodel : (Json.read (Text.unifyLineEnds model.indented)).toOption = some model := by decide +kernel
  have hread (path : Text) (document : Json) (h : files.readDocument path = .ok document) :
      document = lexicon ∨ document = model := by
    obtain ⟨content, hcontent, hdocument⟩ := Files.exists_of_readDocument h
    by_cases hpath : path = "g.json"
    · have hfile : files path = .text lexicon.indented := if_pos hpath
      rw [hfile] at hcontent
      cases hcontent
      rw [eq_ok_of_toOption_eq_some hlexicon] at hdocument
      exact .inl (Except.ok.inj hdocument).symm
    · have hfile : files path = .text model.indented := if_neg hpath
      rw [hfile] at hcontent
      cases hcontent
      rw [eq_ok_of_toOption_eq_some hmodel] at hdocument
      exact .inr (Except.ok.inj hdocument).symm
  have hgrammar (path : Text) : files.HoldsGrammar path := by
    intro document h
    rcases hread path document h with rfl | rfl <;> decide
  have hmodel (path : Text) : files.HoldsModel path := by
    intro document h
    rcases hread path document h with rfl | rfl <;> decide
  have hencodable (path : Text) : files.HoldsEncodable path := by
    intro document h
    rcases hread path document h with rfl | rfl <;> decide
  have hinputs (text : Text) (h : .line text ∈ [Input.line load, .line "eval sleeps he"]) : text.IsEncodable := by
    simp only [List.mem_cons, List.not_mem_nil, or_false, Input.line.injEq] at h
    rcases h with rfl | rfl <;> exact Text.isEncodable_ofString _
  obtain ⟨hlexicon, -, -, -, -, hparse, heval, hsession⟩ := ends_with_code_of_described lexicon ∅ files
  have hstated := hlexicon (by decide)
  have hrefused := (ends_with_code_of_described entry ∅ files).1 (by decide)
  have hunbound := (ends_with_code_of_described model ∅ files).2.1 (by decide)
  obtain ⟨-, -, hgrammar', -⟩ := ends_with_code_of_described unread ∅ files
  obtain ⟨-, -, -, hmodel', -⟩ := ends_with_code_of_described unnamed ∅ files
  obtain ⟨l, hl⟩ : ∃ l, (Lexicon.ofDocument lexicon).toOption = some l :=
    Option.isSome_iff_exists.mp (by decide +kernel)
  obtain ⟨l', hl'⟩ : ∃ l, (Lexicon.ofDocument unread).toOption = some l :=
    Option.isSome_iff_exists.mp (by decide +kernel)
  obtain ⟨m, hm⟩ : ∃ m, (Model.ofDocument unnamed).toOption = some m :=
    Option.isSome_iff_exists.mp (by decide +kernel)
  have hentry : Lexicon.ofDocument entry = .error (.malformedEntry (.str "he")) := rfl
  have hparse := hparse "g.json" (hgrammar _) "sleeps he" false true
  have heval := heval "g.json" "m.json" (hgrammar _) (hmodel _) "sleeps he" [] none false false (by decide)
  have hsession := hsession hgrammar hmodel (some "g.json") none [.line load, .line "eval sleeps he"]
  have hgiven := Text.isEncodable_ofString
  have hassignment : Model.ofDocument model = .error (.notAnEntity 1 (.str "c")) := rfl
  refine ⟨⟨l, eq_ok_of_toOption_eq_some hl, hstated.gives (eq_ok_of_toOption_eq_some hl)⟩,
    ⟨_, hentry, hrefused.fails_of_eq_error hentry⟩, ⟨_, hassignment, hunbound.fails_of_eq_error hassignment⟩,
    ⟨l', eq_ok_of_toOption_eq_some hl', fun h => ?_⟩, ⟨m, eq_ok_of_toOption_eq_some hm, fun h => ?_⟩,
    ⟨hparse.1, hparse.2 (hencodable _) fun _ => ⟨hgiven "g.json", hgiven "sleeps he"⟩⟩,
    ⟨heval.1, heval.2 (hencodable _) fun _ => hgiven "sleeps he"⟩, hsession.1, hsession.2 hencodable hinputs⟩
  · exact absurd (hgrammar' l' (eq_ok_of_toOption_eq_some hl') h) (by decide)
  · exact absurd (hmodel' (by decide) m (eq_ok_of_toOption_eq_some hm) h) (by decide)

/-- Other documents fail without a message, or leave something in a lexicon that is no formula and fails without one
when it is evaluated. A described document may hold a text that a stream refuses where it is printed. -/
theorem ends_with_defect_of_undescribed :
    let unlisted : Json := .obj [("start_symbols", .int 5)]
    let lexicon : Json := .obj [("start_symbols", .str "c"), ("lexicon", .arr [
      .obj [("token", .str "he"), ("features", .str "-d"), ("meaning", .null)],
      .obj [("token", .str "sleeps"), ("features", .str "+d -c")]])]
    let files : Files := fun path => .text (if path = "g.json" then lexicon else .obj []).indented
    let halved : Text := "\x7b\"start_symbols\": \"c\", \"lexicon\": [" ++
      "\x7b\"token\": \"he\", \"features\": \"-d\", \"meaning\": \"\\ud800\"\x7d, " ++
      "\x7b\"token\": \"sleeps\", \"features\": \"+d -c\"\x7d]\x7d"
    (∃ e, Lexicon.ofDocument unlisted = .error e ∧ e.message? = none) ∧
      (∃ l, Lexicon.ofDocument lexicon = .ok l ∧ ¬l.IsWellFormed) ∧
      (runEval files (some "g.json") (some "m.json") "sleeps he" [] none false false).2 =
        .defect (.evaluation .notAFormula) ∧
      (∃ document, Json.read halved = .ok document ∧ document.describesGrammar) ∧
      (runParse (fun _ => .text halved) (some "h.json") "sleeps he" false false).2 = .success ∧
      (onStream (runParse (fun _ => .text halved) (some "h.json") "sleeps he" false false)).2 =
        .refused ⟨.half 0, 11, 1⟩ := by
  intro unlisted lexicon files halved
  have hstated : (Lexicon.ofDocument lexicon).toOption.any (!decide ·.IsWellFormed) := by decide +kernel
  have hending (ending : Ending) (h : (match ending with
      | .defect (.evaluation .notAFormula) => true
      | _ => false) = true) : ending = .defect (.evaluation .notAFormula) := by
    split at h
    · rfl
    · cases h
  have hrefused (ending : StreamEnding) (error : EncodingError) (h : (match ending with
      | .refused found => decide (found = error)
      | .own _ => false) = true) : ending = .refused error := by
    split at h
    · exact congrArg _ (of_decide_eq_true h)
    · cases h
  have hsuccess (ending : Ending) (h : (match ending with
      | .code code => decide (code = 0)
      | .defect _ => false) = true) : ending = .success := by
    split at h
    · exact congrArg _ (of_decide_eq_true h)
    · cases h
  have hread : (Json.read halved).toOption.any Json.describesGrammar := by decide +kernel
  obtain ⟨document, hdocument, hdescribed⟩ := (Option.any_eq_true _ _).mp hread
  obtain ⟨l, hl, hnot⟩ := (Option.any_eq_true _ _).mp hstated
  refine ⟨⟨.wrongType, rfl, rfl⟩, ⟨l, eq_ok_of_toOption_eq_some hl, by simpa using hnot⟩,
    hending _ (by decide +kernel), ⟨document, eq_ok_of_toOption_eq_some hdocument, hdescribed⟩,
    hsuccess _ (by decide +kernel), hrefused _ _ (by decide +kernel)⟩

end CommandLine
end MinimalistGrammar
