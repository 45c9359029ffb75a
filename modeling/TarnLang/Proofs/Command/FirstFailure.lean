/-
  TarnLang/Proofs/Command/FirstFailure.lean
  =========================================
  **All commands agree on the first phase that fails.**  `failingPhase` is the first of the phases
  lex, parse and resolve that finds errors in a text, and `shownDiagnostics` is what is shown for
  it.  They know nothing of commands and options.

  A command fails when its phases reach that one.  Which command it is and which options it
  was given makes no difference to the diagnostics, and banners change the standard error
  only: `Ends` says so of a job and is kept by each phase.

  What is shown depends on one thing more, the order in which a table gives its symbols.  Names to
  suggest are looked for in that order, and where several are equally close the first of them is
  taken.  `AgreeButForTies` is all that two orders can differ in.
-/
import TarnLang.Proofs.Command.Shown
import TarnLang.Proofs.Diagnostic.Suggestion

namespace TarnLang

/-! ### The first phase that fails -/

/-- The phase that finds errors in the names of a program. -/
def failingNames (p : Program) : Option Phase := if (resolve p).isOk then none else some .resolve

/-- The first phase that finds errors in the tokens of a text. -/
def failingTokens (tokens : Array Token) : Option Phase :=
  match parse tokens with
  | .error _ => some .parse
  | .ok p => failingNames p

/-- The first phase that finds errors in a text. -/
def failingPhase (source : String) : Option Phase :=
  if (tokenize source).isOk then failingTokens (tokenize source).tokens else some .lex

/-- What is shown for the phase that fails: all that the front end has to say, but of several
    lexical errors that follow each other on one line only the first. -/
def shownDiagnostics (order : TableOrder) (source : String) : List Diagnostic :=
  if (tokenize source).isOk then (diagnoseIn order source).2
  else (firstPerLine (tokenize source).errors.toList).map (·.diagnostic)

/-- Whether a command for one phase runs another. -/
def Phase.reaches : Phase → Phase → Bool
  | .lex, q => q = .lex
  | .parse, q => q = .lex || q = .parse
  | .resolve, _ => true
  | .check, _ => true

/-- The first phase that fails on a text is one that a command for a phase runs. -/
def Phase.FailsOn (phase : Phase) (source : String) : Prop :=
  ∃ q, failingPhase source = some q ∧ phase.reaches q = true

variable {source : String} {order : TableOrder}

theorem firstPerLine_ne_nil {errors : List LexError} (h : errors ≠ []) :
    firstPerLine errors ≠ [] := by
  cases errors with
  | nil => exact absurd rfl h
  | cons e es =>
    rw [firstPerLine, firstPerLineAfter, if_neg (by simp)]
    exact List.cons_ne_nil _ _

theorem failingNames_eq_some {p : Program} {q : Phase} (h : failingNames p = some q) :
    q = .resolve ∧ ∀ order, ((resolve p).arranged order).diagnostics ≠ [] := by
  unfold failingNames at h
  split at h
  · cases h
  · rename_i herrors
    cases h
    refine ⟨rfl, fun order hnil => herrors ?_⟩
    have hnone : (resolve p).errors = #[] := by
      simpa [Resolution.diagnostics, Resolution.arranged] using hnil
    rw [Resolution.isOk, hnone]
    rfl

theorem failingTokens_eq_some {tokens : Array Token} {q : Phase}
    (h : failingTokens tokens = some q) : q ≠ .lex ∧
      ∀ order, (diagnoseTokens order tokens).1 = q ∧ (diagnoseTokens order tokens).2 ≠ [] := by
  unfold failingTokens at h
  unfold diagnoseTokens
  cases hparse : parse tokens with
  | error failure =>
    rw [hparse] at h
    cases h
    exact ⟨nofun, fun _ => ⟨rfl, List.cons_ne_nil _ _⟩⟩
  | ok p =>
    rw [hparse] at h
    obtain ⟨rfl, hne⟩ := failingNames_eq_some h
    exact ⟨nofun, fun order => ⟨rfl, hne order⟩⟩

section Lexed

variable (order : TableOrder)

theorem diagnoseIn_of_isOk (h : (tokenize source).isOk = true) :
    diagnoseIn order source = diagnoseTokens order (tokenize source).tokens := if_pos h

theorem shownDiagnostics_of_isOk (h : (tokenize source).isOk = true) :
    shownDiagnostics order source = (diagnoseTokens order (tokenize source).tokens).2 := by
  rw [shownDiagnostics, if_pos h, diagnoseIn_of_isOk order h]

theorem failingPhase_of_isOk (h : (tokenize source).isOk = true) :
    failingPhase source = failingTokens (tokenize source).tokens := if_pos h

theorem diagnoseIn_of_not_isOk (h : ¬ (tokenize source).isOk = true) :
    diagnoseIn order source = (.lex, (tokenize source).errors.toList.map (·.diagnostic)) := if_neg h

theorem shownDiagnostics_of_not_isOk (h : ¬ (tokenize source).isOk = true) :
    shownDiagnostics order source =
      (firstPerLine (tokenize source).errors.toList).map (·.diagnostic) := if_neg h

theorem failingPhase_of_not_isOk (h : ¬ (tokenize source).isOk = true) :
    failingPhase source = some .lex := if_neg h

end Lexed

/-- **A phase that fails has something to show**, and the front end stops in it. -/
theorem failingPhase_eq_some {q : Phase} (h : failingPhase source = some q) (order : TableOrder) :
    (diagnoseIn order source).1 = q ∧ shownDiagnostics order source ≠ [] := by
  by_cases hok : (tokenize source).isOk = true
  · rw [failingPhase_of_isOk hok] at h
    rw [diagnoseIn_of_isOk order hok, shownDiagnostics_of_isOk order hok]
    exact (failingTokens_eq_some h).2 order
  · rw [failingPhase_of_not_isOk hok] at h
    cases h
    rw [diagnoseIn_of_not_isOk order hok, shownDiagnostics_of_not_isOk order hok]
    refine ⟨rfl, fun hnil => ?_⟩
    refine firstPerLine_ne_nil (fun hnone => hok ?_) (List.map_eq_nil_iff.mp hnil)
    rw [LexResult.isOk, Array.toList_eq_nil_iff.mp hnone]
    rfl

/-! ### Orders of a table -/

/-- Two diagnostics for one error of a text: they are the same, unless the name that they suggest
    was chosen among several which are equally close. -/
inductive AgreeButForTies (source : String) : Diagnostic → Diagnostic → Prop
  | same (d : Diagnostic) : AgreeButForTies source d d
  | tied {p : Program} {usage : Token} {name name' : String}
    (hp : parse (tokenize source).tokens = .ok p)
    (herror : SemanticError.useBeforeDefinition usage none ∈ (resolve p).errors)
    (hname : Closest usage.text (resolve p).names name)
    (hname' : Closest usage.text (resolve p).names name') :
    AgreeButForTies source
      { (SemanticError.useBeforeDefinition usage none).diagnostic with
        help := some ("did you mean `" ++ name ++ "`?") }
      { (SemanticError.useBeforeDefinition usage none).diagnostic with
        help := some ("did you mean `" ++ name' ++ "`?") }

theorem Resolution.names_arranged_perm (order : TableOrder) (r : Resolution) :
    (r.arranged order).names.Perm r.names := by
  rw [names, arranged, SymbolTable.arranged, List.toList_toArray]
  exact (order.perm r.symbols.entries.toList).map fun s => s.id.name

theorem agreeButForTies_diagnosticFor {p : Program} {e : SemanticError}
    (hp : parse (tokenize source).tokens = .ok p) (he : e ∈ (resolve p).errors)
    (order order' : TableOrder) :
    AgreeButForTies source (((resolve p).arranged order).diagnosticFor e)
      (((resolve p).arranged order').diagnosticFor e) := by
  cases e with
  | useBeforeDefinition usage definition =>
    cases definition with
    | some definition => exact .same _
    | none =>
      have hnames := (resolve p).names_arranged_perm order
      have hperm := hnames.trans ((resolve p).names_arranged_perm order').symm
      rcases didYouMean_of_perm usage.text hperm with
        ⟨hnone, hnone'⟩ | ⟨name, name', hname, hname', hsome, hsome'⟩
      · simp only [Resolution.diagnosticFor, hnone, hnone']
        exact .same _
      · simp only [Resolution.diagnosticFor, hsome, hsome']
        exact .tied hp he (hname.perm hnames) (hname'.perm hnames)
  | _ => exact .same _

/-- **Orders of a table differ in ties only.** -/
theorem agreeButForTies_shownDiagnostics (source : String) (order order' : TableOrder) :
    List.Forall₂ (AgreeButForTies source) (shownDiagnostics order source)
      (shownDiagnostics order' source) := by
  have hsame : ∀ ds, List.Forall₂ (AgreeButForTies source) ds ds := fun ds =>
    List.forall₂_same.mpr fun d _ => .same d
  by_cases hok : (tokenize source).isOk = true
  · rw [shownDiagnostics_of_isOk order hok, shownDiagnostics_of_isOk order' hok]
    unfold diagnoseTokens
    cases hp : parse (tokenize source).tokens with
    | error failure => exact hsame _
    | ok p =>
      refine List.forall₂_map_left_iff.mpr (List.forall₂_map_right_iff.mpr ?_)
      exact List.forall₂_same.mpr fun e he =>
        agreeButForTies_diagnosticFor hp (Array.mem_def.mpr he) order order'
  · rw [shownDiagnostics_of_not_isOk order hok, shownDiagnostics_of_not_isOk order' hok]
    exact hsame _

/-! ### How a job ends -/

namespace Job

/-- A result with banners in front of its standard error, if banners are wanted. -/
structure Announced (job : Job) (bare c : Completed) : Prop where
  exit : c.exit = bare.exit
  stdout : c.stdout = bare.stdout
  stderr : ∃ texts, c.stderr = banners job.colors texts ++ bare.stderr ∧
    (job.options.verbose = false → texts = [])

variable {job : Job} {phase : Phase} {failing : Option Phase} {ds : List Diagnostic}
variable {bare c : Completed}

theorem Announced.refl (bare : Completed) : Announced job bare bare :=
  ⟨rfl, rfl, [], by simp [banners, String.join], fun _ => rfl⟩

theorem Announced.announced (h : Announced job bare c) (text : String) :
    Announced job bare (job.announced text c) := by
  obtain ⟨hexit, hstdout, texts, hstderr, hquiet⟩ := h
  unfold Job.announced
  split
  · rename_i hverbose
    refine ⟨hexit, hstdout, text :: texts, ?_, ?_⟩
    · show Listing.banner job.colors text ++ "\n" ++ c.stderr = _
      rw [hstderr]
      simp [banners, String.append_assoc]
    · intro h
      rw [hverbose] at h
      cases h
  · exact ⟨hexit, hstdout, texts, hstderr, hquiet⟩

/-- A job ends as it should: in the phase that fails, if its phases reach that, and else as a
    success. -/
def Ends (job : Job) (phase : Phase) (failing : Option Phase) (ds : List Diagnostic)
    (c : Completed) : Prop :=
  (∀ q, failing = some q → phase.reaches q = true → Announced job (job.failed q ds) c) ∧
    ((∀ q, failing = some q → phase.reaches q = false) →
      ∃ listing, Announced job (job.succeeded phase listing) c)

theorem ends_failed {q : Phase} (hq : phase.reaches q = true) :
    Ends job phase (some q) ds (job.failed q ds) := by
  constructor
  · rintro _ ⟨⟩ -
    exact .refl _
  · intro h
    rw [h q rfl] at hq
    cases hq

theorem ends_succeeded (listing : String)
    (h : ∀ q, failing = some q → phase.reaches q = false) :
    Ends job phase failing ds (job.succeeded phase listing) := by
  refine ⟨fun q hq hreach => ?_, fun _ => ⟨listing, .refl _⟩⟩
  rw [h q hq] at hreach
  cases hreach

theorem Ends.announced (h : Ends job phase failing ds c) (text : String) :
    Ends job phase failing ds (job.announced text c) := by
  refine ⟨fun q hq hreach => (h.1 q hq hreach).announced text, fun hnone => ?_⟩
  obtain ⟨listing, hlisting⟩ := h.2 hnone
  exact ⟨listing, hlisting.announced text⟩

/-! ### The phases in a row -/

theorem ends_resolvePhase (hphase : phase = .resolve ∨ phase = .check) (p : Program) :
    Ends job phase (failingNames p) ((resolve p).arranged job.order).diagnostics
      (job.resolvePhase phase p) := by
  refine Ends.announced ?_ _
  have hreach : phase.reaches .resolve = true := by
    rcases hphase with rfl | rfl <;> rfl
  have harranged : ((resolve p).arranged job.order).isOk = (resolve p).isOk := rfl
  unfold failingNames
  rw [harranged]
  cases (resolve p).isOk with
  | false => exact ends_failed hreach
  | true =>
    simp only [Bool.not_true, Bool.false_eq_true, if_false, if_true]
    rcases hphase with rfl | rfl
    · exact ends_succeeded _ nofun
    · exact ends_succeeded _ nofun

theorem ends_parsePhase (hphase : phase ≠ .lex) (tokens : Array Token) :
    Ends job phase (failingTokens tokens) (diagnoseTokens job.order tokens).2
      (job.parsePhase phase tokens) := by
  have hreach : phase.reaches .parse = true := by
    cases phase with
    | lex => exact absurd rfl hphase
    | _ => rfl
  unfold failingTokens diagnoseTokens parsePhase
  cases parse tokens with
  | error failure => exact ends_failed hreach
  | ok p =>
    refine Ends.announced ?_ _
    cases phase with
    | lex => exact absurd rfl hphase
    | parse =>
      refine ends_succeeded _ fun q h => ?_
      rw [(failingNames_eq_some h).1]
      rfl
    | resolve => exact ends_resolvePhase (Or.inl rfl) p
    | check => exact ends_resolvePhase (Or.inr rfl) p

/-- **A job ends in the first phase that fails.** -/
theorem ends_run (job : Job) (phase : Phase) :
    Ends job phase (failingPhase job.source) (shownDiagnostics job.order job.source)
      (job.run phase) := by
  have hreach : phase.reaches .lex = true := by cases phase <;> rfl
  by_cases hok : (tokenize job.source).isOk = true
  · rw [failingPhase_of_isOk hok, shownDiagnostics_of_isOk job.order hok]
    simp only [run, hok, Bool.not_true, Bool.false_eq_true, if_false]
    refine Ends.announced ?_ _
    cases phase with
    | lex =>
      refine ends_succeeded _ fun q h => ?_
      cases q with
      | lex => exact absurd rfl (failingTokens_eq_some h).1
      | _ => rfl
    | parse => exact ends_parsePhase (by decide) _
    | resolve => exact ends_parsePhase (by decide) _
    | check => exact ends_parsePhase (by decide) _
  · rw [failingPhase_of_not_isOk hok, shownDiagnostics_of_not_isOk job.order hok]
    simp only [run, hok, Bool.not_false, if_true]
    exact ends_failed hreach

/-- What a job shows of a failure is the same behind banners. -/
theorem Announced.exists_showsFailure {q : Phase} (h : Announced job (job.failed q ds) c)
    (hds : ds ≠ []) :
    ∃ texts, ShowsFailure job texts q ds c ∧ (job.options.verbose = false → texts = []) := by
  obtain ⟨hexit, hstdout, texts, hstderr, hquiet⟩ := h
  have hshows : ShowsFailure job [] q ds (job.failed q ds) := showsFailure_failed hds
  have hnone : ∀ text, banners job.colors [] ++ text = text := fun text => String.empty_append
  refine ⟨texts, ⟨hexit.trans hshows.exit, fun hjson => ?_, fun hjson => ?_⟩, hquiet⟩
  · obtain ⟨hreport, hempty⟩ := hshows.json hjson
    rw [hstdout, hstderr, hempty]
    exact ⟨hreport, String.append_empty⟩
  · obtain ⟨hempty, text, hterminal, htext⟩ := hshows.terminal hjson
    rw [hstdout, hstderr, htext, hnone]
    exact ⟨hempty, text, hterminal, rfl⟩

/-- What a job that gets to no phase that fails leaves behind. -/
theorem Announced.report_succeeded {listing : String}
    (h : Announced job (job.succeeded phase listing) c) (hjson : job.options.json = true) :
    Reports job.source job.path phase.label true [] c.stdout := by
  rw [h.stdout, succeeded, if_pos hjson]
  exact reports_write ..

end Job

/-! ### Command lines -/

/-- The words of a command line ask for a phase of a file: the name of the phase and the file
    come first among the words that are no options, or a file name alone does. -/
inductive Asks (words : List String) : Phase → String → Prop
  | phase {phase : Phase} {path : String} {rest : List String} :
      CommandOptions.others words = phase.label :: path :: rest → Asks words phase path
  | file {path : String} {rest : List String} : CommandOptions.others words = path :: rest →
      Command.isFileName path = true → Asks words .check path

theorem Asks.ofWords {words : List String} {phase : Phase} {path : String}
    (h : Asks words phase path) :
    Command.ofWords (CommandOptions.others words) = .run phase (some path) := by
  cases h with
  | phase hwords =>
    rw [hwords]
    cases phase <;> rfl
  | file hwords hname =>
    rw [hwords]
    unfold Command.ofWords
    dsimp only
    -- no command has the ending of a file
    split
    all_goals first
      | exact absurd hname (by decide)
      | rw [if_pos hname]

/-- An option may stand anywhere. -/
theorem Asks.insert {u v : List String} {option : String} {phase : Phase} {path : String}
    (hoption : option ∈ ["--json", "-v", "--verbose"]) (h : Asks (u ++ v) phase path) :
    Asks (u ++ option :: v) phase path := by
  have hothers : CommandOptions.others (u ++ option :: v) = CommandOptions.others (u ++ v) := by
    have hno : (!(CommandOptions.isJson option || CommandOptions.isVerbose option)) = false := by
      revert option
      decide
    simp only [CommandOptions.others, List.filter_append, List.filter_cons, hno]
    rfl
  cases h with
  | phase hwords => exact .phase (hothers.trans hwords)
  | file hwords hname => exact .file (hothers.trans hwords) hname

theorem CommandOptions.json_ofWords {words : List String} :
    (ofWords words).json = true ↔ "--json" ∈ words := by
  simp [ofWords, isJson]

theorem CommandOptions.verbose_ofWords {words : List String} (h : "-v" ∉ words)
    (h' : "--verbose" ∉ words) : (ofWords words).verbose = false := by
  simp only [ofWords, List.any_eq_false, isVerbose, Bool.or_eq_true, decide_eq_true_eq]
  rintro word hword (rfl | rfl)
  · exact h hword
  · exact h' hword

/-- A command line that asks for a phase of a file runs the phases on the text of the file. -/
theorem Asks.runWordsIn_eq {words : List String} {colors : Bool} {phase : Phase}
    {path : String} {read : String → Except FileError String} (h : Asks words phase path)
    (hread : read path = .ok source) :
    runWordsIn order words colors read =
      Job.run ⟨CommandOptions.ofWords words, colors, order, path, source⟩ phase := by
  rw [runWordsIn, h.ofWords, Command.carryOut, hread]

section Run

variable {words : List String} {phase q : Phase} {path : String}
variable {read : String → Except FileError String}

theorem Asks.exists_showsFailure (h : Asks words phase path) (hread : read path = .ok source)
    (order : TableOrder) (colors : Bool) (hfailing : failingPhase source = some q)
    (hreach : phase.reaches q = true) :
    ∃ texts, Job.ShowsFailure ⟨CommandOptions.ofWords words, colors, order, path, source⟩ texts q
        (shownDiagnostics order source) (runWordsIn order words colors read) ∧
      ("-v" ∉ words → "--verbose" ∉ words → texts = []) := by
  have hends := Job.ends_run ⟨CommandOptions.ofWords words, colors, order, path, source⟩ phase
  obtain ⟨texts, hshows, hquiet⟩ := (hends.1 q hfailing hreach).exists_showsFailure
    (failingPhase_eq_some hfailing order).2
  rw [h.runWordsIn_eq hread]
  exact ⟨texts, hshows, fun hv hv' => hquiet (CommandOptions.verbose_ofWords hv hv')⟩

theorem Asks.of_passes (h : Asks words phase path) (hread : read path = .ok source)
    (order : TableOrder) (colors : Bool) (hpasses : ¬ phase.FailsOn source) :
    (runWordsIn order words colors read).exit = 0 ∧
      ("--json" ∈ words →
        Reports source path phase.label true [] (runWordsIn order words colors read).stdout) := by
  have hends := Job.ends_run ⟨CommandOptions.ofWords words, colors, order, path, source⟩ phase
  obtain ⟨listing, hlisting⟩ := hends.2 fun q hfailing => by
    cases hreach : phase.reaches q with
    | false => rfl
    | true => exact absurd ⟨q, hfailing, hreach⟩ hpasses
  rw [h.runWordsIn_eq hread]
  refine ⟨hlisting.exit, fun hjson => ?_⟩
  exact hlisting.report_succeeded (CommandOptions.json_ofWords.mpr hjson)

/-- The exit status says whether the command gets to the phase that fails. -/
theorem Asks.exit_iff (h : Asks words phase path) (hread : read path = .ok source)
    (order : TableOrder) (colors : Bool) :
    ((runWordsIn order words colors read).exit = 1 ↔ phase.FailsOn source) ∧
      ((runWordsIn order words colors read).exit = 0 ↔ ¬ phase.FailsOn source) := by
  by_cases hfails : phase.FailsOn source
  · obtain ⟨q, hfailing, hreach⟩ := hfails
    obtain ⟨texts, hshows, -⟩ := h.exists_showsFailure hread order colors hfailing hreach
    rw [hshows.exit]
    exact ⟨⟨fun _ => ⟨q, hfailing, hreach⟩, fun _ => rfl⟩, nofun, fun hnot =>
      absurd ⟨q, hfailing, hreach⟩ hnot⟩
  · rw [(h.of_passes hread order colors hfails).1]
    exact ⟨⟨nofun, fun h => absurd h hfails⟩, fun _ => hfails, fun _ => rfl⟩

end Run

/-- **All commands agree on the first phase that fails.**  They exit with 1 exactly when they get
    to it, and else with 0.  Those that get to it show the same diagnostics for it, whatever
    their options are and wherever these stand: in a report that names the phase, or as text.  Those
    that do not report a success.  The order in which a table gives its symbols makes no difference
    but for the choice among equally close names to suggest. -/
theorem commands_agree {words : List String} {colors : Bool} {order : TableOrder}
    {read : String → Except FileError String} {phase : Phase} {path source : String}
    {content : ByteArray} (hasks : Asks words phase path)
    (hread : read path = textOfBytes content) (hcontent : String.fromUTF8? content = some source) :
    let c := runWordsIn order words colors read
    (c.exit = 1 ↔ phase.FailsOn source) ∧
    (c.exit = 0 ↔ ¬ phase.FailsOn source) ∧
    (∀ q, failingPhase source = some q → phase.reaches q = true →
      (diagnoseIn order source).1 = q ∧ shownDiagnostics order source ≠ [] ∧
      ∃ texts, ("-v" ∉ words → "--verbose" ∉ words → texts = []) ∧
        ("--json" ∈ words →
          Reports source path q.label false (shownDiagnostics order source) c.stdout ∧
            c.stderr = Job.banners colors texts) ∧
        ("--json" ∉ words → c.stdout = "" ∧
          ∃ text, OnTerminal colors source path q (shownDiagnostics order source) text ∧
            c.stderr = Job.banners colors texts ++ text)) ∧
    (¬ phase.FailsOn source → "--json" ∈ words →
      Reports source path phase.label true [] c.stdout) ∧
    (∀ order', List.Forall₂ (AgreeButForTies source) (shownDiagnostics order source)
      (shownDiagnostics order' source)) ∧
    (∀ words' colors' order', Asks words' phase path →
      (runWordsIn order' words' colors' read).exit = c.exit) ∧
    ∀ u v option, words = u ++ v → option ∈ ["--json", "-v", "--verbose"] →
      Asks (u ++ option :: v) phase path := by
  have htext : read path = .ok source := by
    rw [hread, textOfBytes, hcontent]
  obtain ⟨hone, hzero⟩ := hasks.exit_iff htext order colors
  refine ⟨hone, hzero, fun q hfailing hreach => ?_,
    fun hpasses => (hasks.of_passes htext order colors hpasses).2,
    agreeButForTies_shownDiagnostics source order, fun words' colors' order' hasks' => ?_,
    fun u v option hwords hoption => Asks.insert hoption (hwords ▸ hasks)⟩
  · obtain ⟨hphase, hne⟩ := failingPhase_eq_some hfailing order
    obtain ⟨texts, hshows, hquiet⟩ :=
      hasks.exists_showsFailure htext order colors hfailing hreach
    refine ⟨hphase, hne, texts, hquiet, fun hjson => ?_, fun hjson => ?_⟩
    · exact hshows.json (CommandOptions.json_ofWords.mpr hjson)
    · exact hshows.terminal (by simpa [← CommandOptions.json_ofWords] using hjson)
  · obtain ⟨hone', hzero'⟩ := hasks'.exit_iff htext order' colors'
    by_cases hfails : phase.FailsOn source
    · exact (hone'.mpr hfails).trans (hone.mpr hfails).symm
    · exact (hzero'.mpr hfails).trans (hzero.mpr hfails).symm

/-- A name that is declared nowhere, with two names at the same distance: a check fails in the
    resolver, and its report has one or the other as a suggestion.  The parser is content. -/
theorem commands_agree_on_tied_names :
    let source := "fn main() \x7b let bat; let cart; cat = 1; \x7d"
    let read : String → Except FileError String := fun _ => textOfBytes source.toUTF8
    let reversed : TableOrder := ⟨List.reverse, List.reverse_perm⟩
    (runWordsIn reversed ["a.tarn", "-v"] false read).exit = 1 ∧
      Reports source "a.tarn" "resolve" false (shownDiagnostics reversed source)
        (runWordsIn reversed ["check", "--json", "a.tarn"] false read).stdout ∧
      Reports source "a.tarn" "parse" true []
        (runWordsIn reversed ["--json", "parse", "a.tarn"] false read).stdout ∧
      List.Forall₂ (AgreeButForTies source) (shownDiagnostics .inserted source)
        (shownDiagnostics reversed source) ∧
      (shownDiagnostics .inserted source).map (·.help) = [some "did you mean `bat`?"] ∧
      (shownDiagnostics reversed source).map (·.help) = [some "did you mean `cart`?"] := by
  intro source read reversed
  have hcontent : String.fromUTF8? source.toUTF8 = some source := by decide +kernel
  have hphase : failingPhase source = some .resolve := by decide +kernel
  have hasksFile : Asks ["a.tarn", "-v"] .check "a.tarn" :=
    .file (show CommandOptions.others _ = ["a.tarn"] by decide) (by decide)
  have hasksCheck : Asks ["check", "--json", "a.tarn"] .check "a.tarn" :=
    .phase (show CommandOptions.others _ = ["check", "a.tarn"] by decide)
  have hasksParse : Asks ["--json", "parse", "a.tarn"] .parse "a.tarn" :=
    .phase (show CommandOptions.others _ = ["parse", "a.tarn"] by decide)
  have hpasses : ¬ Phase.parse.FailsOn source := by
    rintro ⟨q, hq, hreach⟩
    rw [hphase] at hq
    cases hq
    cases hreach
  obtain ⟨hexit, -⟩ := @commands_agree _ false reversed read _ _ _ _ hasksFile rfl hcontent
  obtain ⟨-, -, hshown, -⟩ := @commands_agree _ false reversed read _ _ _ _ hasksCheck rfl hcontent
  obtain ⟨-, -, -, hreport, -⟩ :=
    @commands_agree _ false reversed read _ _ _ _ hasksParse rfl hcontent
  obtain ⟨-, -, -, -, htied, -⟩ :=
    @commands_agree _ false .inserted read _ _ _ _ hasksParse rfl hcontent
  obtain ⟨-, -, texts, -, hjson, -⟩ := hshown _ hphase rfl
  exact ⟨hexit.mpr ⟨_, hphase, rfl⟩, (hjson (by decide)).1, hreport hpasses (by decide),
    htied reversed, by decide +kernel, by decide +kernel⟩

end TarnLang
