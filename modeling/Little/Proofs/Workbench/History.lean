import Mathlib.Data.List.DropRight
import Mathlib.Data.List.Forall2
import Little.Proofs.Program.Agreement
import Little.Workbench

/-!
# The workbench shows what its history says

What a session keeps from step to step is worked out here from the steps alone: the text of the last
run (`lastText?`), the sample chosen last (`lastSample?`), and a transcript of all that was written
and cleared (`transcript`). `after_recalls` says that the session keeps just this, step by step, and
`session_follows_history` what is seen of it: the rows and the tree are those of the last run,
whatever was done since, and the console shows what was written since it was last cleared. What a
run writes is what the command writes about the same text.
-/

namespace Little

/-- What a step does to the console. -/
inductive ConsoleChange where
  | written (text : String)
  | cleared
deriving DecidableEq, Repr

namespace ConsoleChange

def text? : ConsoleChange → Option String
  | .written text => some text
  | .cleared => none

/-- What was written since the console was last cleared. -/
def sinceClear (entries : List ConsoleChange) : List String :=
  (entries.rtakeWhile (·.text?.isSome)).filterMap text?

@[simp] theorem since_clear_written (entries : List ConsoleChange) (text : String) :
    sinceClear (entries ++ [.written text]) = sinceClear entries ++ [text] := by
  rw [sinceClear, List.rtakeWhile_concat_pos _ _ _ rfl, List.filterMap_append]
  rfl

@[simp] theorem since_clear_cleared (entries : List ConsoleChange) :
    sinceClear (entries ++ [.cleared]) = [] := by
  rw [sinceClear, List.rtakeWhile_concat_neg _ _ _ Bool.false_ne_true, List.filterMap_nil]

end ConsoleChange

/-- The sample that a step chooses. -/
def Step.sample? (step : Step) : Option String :=
  if (Sample.text? step.choice).isSome then some step.choice else none

namespace Session

/-- The session after some steps. -/
def after (steps : List Step) : Session := steps.foldl step start

@[simp] theorem after_concat (steps : List Step) (step : Step) :
    after (steps ++ [step]) = (after steps).step step :=
  List.foldl_concat _ _ _ _

theorem views_concat (session : Session) (steps : List Step) (step : Step) :
    session.views (steps ++ [step]) =
      session.views steps ++ [((steps.foldl Session.step session).step step).view step.tree] := by
  induction steps generalizing session with
  | nil => rfl
  | cons first steps ih => simp only [List.cons_append, views, ih, List.foldl_cons]

/-- The steps up to the last one that runs the pass. -/
def upToRun (steps : List Step) : List Step := steps.rdropWhile (!·.run)

/-- The text of the last run, if there was one: what the editor held at that step. -/
def lastText? (steps : List Step) : Option String :=
  if steps.any (·.run) then some (after (upToRun steps)).code else none

/-- The sample chosen last. -/
def lastSample? (steps : List Step) : Option String := (steps.filterMap Step.sample?).getLast?

/-- The sample that is loaded in a step behind others: the one it chooses, if that was not the one
chosen last. -/
def loaded? (earlier : List Step) (step : Step) : Option String :=
  if lastSample? earlier = step.sample? then none else step.sample?

/-- What a run writes about a text. -/
def output (text : String) : String := (runOutput (Parse.ofSource .program text)).2

/-- What a step behind others does to the console: what it loads is told of first, then the console
is cleared, and what a run writes comes last. -/
def entries (earlier : List Step) (step : Step) : List ConsoleChange :=
  ((loaded? earlier step).map fun name => .written (loadLine name)).toList ++
    (if step.clear then [.cleared] else []) ++
    if step.run then [.written (output (after (earlier ++ [step])).code)] else []

/-- What steps behind others do to the console. -/
def transcriptFrom (earlier : List Step) : List Step → List ConsoleChange
  | [] => []
  | step :: steps => entries earlier step ++ transcriptFrom (earlier ++ [step]) steps

/-- What all steps do to the console, in order. -/
def transcript (steps : List Step) : List ConsoleChange := transcriptFrom [] steps

end Session

/-- A row shows a symbol of a scope. A value that is absent is shown as an empty text. -/
structure Row.Shows (row : Row) (entry : Scope × Symbol) : Prop where
  scope : row.scope = entry.1.name
  kind : row.kind = entry.1.kind
  name : row.name = entry.2.name
  type : row.type = entry.2.type
  value : entry.2.value = some row.value ∨ entry.2.value = none ∧ row.value = ""

/-- The symbols of a table, each with its scope: scope by scope, as they were declared. -/
def SymbolTable.entries (table : SymbolTable) : List (Scope × Symbol) :=
  table.listed.flatMap fun scope => scope.symbols.map (scope, ·)

/-- What is seen after some steps, the last of which asked for the tree or did not. -/
structure View.Tells (view : View) (steps : List Step) (tree : Bool) : Prop where
  /-- There are rows exactly if the last run came to a table. -/
  rows_iff : view.rows ≠ none ↔ ∃ text table, Session.lastText? steps = some text ∧
    (Parse.ofSource .program text).diagnostics = [] ∧
      analyze (Parse.ofSource .program text).tree = .ok table
  /-- Each symbol of that table has one row. -/
  rows : ∀ text table rows, Session.lastText? steps = some text →
    analyze (Parse.ofSource .program text).tree = .ok table → view.rows = some rows →
      List.Forall₂ Row.Shows rows table.entries
  /-- The tree is that of the last run, with or without diagnostics. -/
  shown : view.shown =
    (if view.console = "" then Session.placeholder else view.console) ::
      if tree then ((Session.lastText? steps).map fun text =>
        (Parse.ofSource .program text).tree.render).toList
      else []
  console : view.console = String.join (ConsoleChange.sinceClear (Session.transcript steps))

/-- What a run writes about a text, and how it goes with what the command writes about it. -/
structure Session.Reports (text : String) : Prop where
  clean : (Parse.ofSource .program text).diagnostics = [] →
    (∃ table, analyze (Parse.ofSource .program text).tree = .ok table ∧
      output text = table.report) ∨
    ∃ name place, analyze (Parse.ofSource .program text).tree =
        .error (.semantic (.duplicate name place)) ∧
      output text = "DECLARATION ERROR " ++ name ++ "\n"
  /-- A run writes what the command prints, and behind their number the diagnostics as the command
  tells of them. -/
  agrees : '\r' ∉ text.toList → ∀ arguments file verbose stdin files,
    Arguments.parse arguments = .ok (.analyze file verbose) →
    Command.input files stdin file = .ok text.toUTF8 →
    ∃ console, Command.run arguments stdin files = .exit console ∧
      ((Parse.ofSource .program text).diagnostics = [] → console.stdout = output text) ∧
      ((Parse.ofSource .program text).diagnostics ≠ [] → console.stdout = "" ∧
        output text = "❌ Errores de sintaxis: " ++
          toString (Parse.ofSource .program text).diagnostics.length ++ "\n" ++ console.stderr)

namespace Session

section Histories

variable {steps : List Step} {step : Step}

theorem last_text_concat_run (h : step.run = true) :
    lastText? (steps ++ [step]) = some (after (steps ++ [step])).code := by
  have hlast : upToRun (steps ++ [step]) = steps ++ [step] :=
    List.rdropWhile_concat_neg _ _ _ (by simp [h])
  rw [lastText?, hlast, if_pos (by simp [h])]

theorem last_text_concat_not_run (h : step.run = false) :
    lastText? (steps ++ [step]) = lastText? steps := by
  have hlast : upToRun (steps ++ [step]) = upToRun steps :=
    List.rdropWhile_concat_pos _ _ _ (by simp [h])
  rw [lastText?, lastText?, hlast, List.any_append]
  simp [h]

/-- The sample chosen last is the one loaded now, or else the one chosen before. -/
theorem last_sample_concat :
    lastSample? (steps ++ [step]) = (loaded? steps step).or (lastSample? steps) := by
  have hlast : lastSample? (steps ++ [step]) = step.sample?.or (lastSample? steps) := by
    rw [lastSample?, List.filterMap_append, List.getLast?_append, List.filterMap_cons,
      List.filterMap_nil]
    cases step.sample? <;> rfl
  rw [hlast, loaded?]
  split
  · next hsame => rw [hsame, Option.or_self, Option.none_or]
  · rfl

theorem transcript_from_concat (earlier : List Step) :
    transcriptFrom earlier (steps ++ [step]) =
      transcriptFrom earlier steps ++ entries (earlier ++ steps) step := by
  induction steps generalizing earlier with
  | nil => simp [transcriptFrom]
  | cons first steps ih => simp [transcriptFrom, ih]

theorem transcript_concat :
    transcript (steps ++ [step]) = transcript steps ++ entries steps step :=
  transcript_from_concat []

end Histories

/-- The console holds what was written since it was last cleared. -/
def Prints (session : Session) (changes : List ConsoleChange) : Prop :=
  session.console = String.join (ConsoleChange.sinceClear changes)

/-- What a session keeps is what the steps say. -/
structure Recalls (session : Session) (steps : List Step) : Prop where
  parse : session.lastParse = (lastText? steps).map (Parse.ofSource .program)
  table : session.table =
    (lastText? steps).bind fun text => (runOutput (Parse.ofSource .program text)).1
  loaded : session.loaded = lastSample? steps
  prints : session.Prints (transcript steps)

theorem run_eq (session : Session) :
    session.run =
      { session with
        lastParse := some (Parse.ofSource .program session.code)
        table := (runOutput (Parse.ofSource .program session.code)).1
        console := session.console ++ output session.code } := by
  unfold run output
  dsimp only

/-- A step up to the run. -/
def beforeRun (session : Session) (step : Step) : Session :=
  if step.clear then ((session.choose step.choice).edit step.edit).clear
  else (session.choose step.choice).edit step.edit

section Steps

variable {session : Session} {changes : List ConsoleChange}

theorem Prints.write (h : session.Prints changes) {next : Session} {text : String}
    (hconsole : next.console = session.console ++ text) :
    next.Prints (changes ++ [.written text]) := by
  rw [Prints, ConsoleChange.since_clear_written, hconsole, h]
  simp

theorem prints_clear (session : Session) (changes : List ConsoleChange) :
    session.clear.Prints (changes ++ [.cleared]) := by
  rw [Prints, ConsoleChange.since_clear_cleared]
  rfl

/-- No sample has the name that stands for none. -/
theorem text_no_sample : Sample.text? noSample = none := by decide

theorem choose_of_none {earlier : List Step} {step : Step}
    (h : session.loaded = lastSample? earlier) (hnone : loaded? earlier step = none) :
    session.choose step.choice = session := by
  unfold choose
  split
  · rfl
  · next hother =>
    simp only [Bool.or_eq_true, decide_eq_true_eq, not_or] at hother
    rw [h] at hother
    cases htext : Sample.text? step.choice with
    | none => rfl
    | some text => simp [loaded?, Step.sample?, htext, hother.2] at hnone

/-- A sample is loaded if it is chosen and was not the one chosen last. -/
theorem choose_of_some {earlier : List Step} {step : Step} {name : String}
    (h : session.loaded = lastSample? earlier) (hsome : loaded? earlier step = some name) :
    ∃ text key, session.choose step.choice =
      { session with
        code := text
        console := session.console ++ loadLine name
        editorKey := key
        loaded := some name } := by
  unfold loaded? Step.sample? at hsome
  cases htext : Sample.text? step.choice with
  | none => simp [htext] at hsome
  | some text =>
      rw [htext, Option.isSome_some, if_pos rfl] at hsome
      split at hsome
      · cases hsome
      · next hother =>
        cases hsome
        have hname : step.choice ≠ noSample := by
          intro hnone
          rw [hnone, text_no_sample] at htext
          cases htext
        refine ⟨text, session.editorKey + 1, ?_⟩
        rw [choose, htext, h]
        simp [hname, hother]

/-- What is loaded is told of, and nothing else changes that counts later. -/
theorem Recalls.choose {earlier : List Step} (h : session.Recalls earlier) (step : Step) :
    (session.choose step.choice).lastParse = session.lastParse ∧
      (session.choose step.choice).table = session.table ∧
      (session.choose step.choice).loaded = lastSample? (earlier ++ [step]) ∧
      (session.choose step.choice).Prints (transcript earlier ++
        ((loaded? earlier step).map fun name => .written (loadLine name)).toList) := by
  cases hloaded : loaded? earlier step with
  | none =>
      rw [choose_of_none h.loaded hloaded, last_sample_concat, hloaded, Option.none_or,
        Option.map_none, Option.toList_none, List.append_nil]
      exact ⟨rfl, rfl, h.loaded, h.prints⟩
  | some name =>
      obtain ⟨text, key, hchoose⟩ := choose_of_some h.loaded hloaded
      rw [hchoose, last_sample_concat, hloaded]
      exact ⟨rfl, rfl, rfl, h.prints.write rfl⟩

/-- Editing changes the text only, and clearing the console only. -/
theorem Recalls.before_run {earlier : List Step} (h : session.Recalls earlier) (step : Step) :
    (session.beforeRun step).lastParse = session.lastParse ∧
      (session.beforeRun step).table = session.table ∧
      (session.beforeRun step).loaded = lastSample? (earlier ++ [step]) ∧
      (session.beforeRun step).Prints (transcript earlier ++
        ((loaded? earlier step).map fun name => .written (loadLine name)).toList ++
          if step.clear then [.cleared] else []) := by
  obtain ⟨hparse, htable, hloaded, hprints⟩ := h.choose step
  unfold beforeRun
  split
  · exact ⟨hparse, htable, hloaded, prints_clear _ _⟩
  · rw [List.append_nil]
    exact ⟨hparse, htable, hloaded, hprints⟩

/-- What a session keeps after another step is what the steps say with this one. -/
theorem Recalls.step {earlier : List Step} (h : (after earlier).Recalls earlier) (step : Step) :
    (after (earlier ++ [step])).Recalls (earlier ++ [step]) := by
  obtain ⟨hparse, htable, hloaded, hprints⟩ := h.before_run step
  have hstep : after (earlier ++ [step]) =
      if step.run then ((after earlier).beforeRun step).run
      else (after earlier).beforeRun step := after_concat earlier step
  cases hrun : step.run with
  | true =>
      -- the run is the last thing done, so it is on the text that the step leaves
      rw [hrun, if_pos rfl, run_eq] at hstep
      refine ⟨?_, ?_, ?_, ?_⟩
      · rw [last_text_concat_run hrun, hstep, Option.map_some]
      · rw [last_text_concat_run hrun, hstep, Option.bind_some]
      · rw [hstep]
        exact hloaded
      · rw [transcript_concat, entries, hrun, if_pos rfl, ← List.append_assoc,
          ← List.append_assoc, hstep]
        exact hprints.write rfl
  | false =>
      rw [hrun, if_neg Bool.false_ne_true] at hstep
      rw [hstep]
      refine ⟨?_, ?_, hloaded, ?_⟩
      · rw [hparse, last_text_concat_not_run hrun, h.parse]
      · rw [htable, last_text_concat_not_run hrun, h.table]
      · rw [transcript_concat, entries, hrun, if_neg Bool.false_ne_true, List.append_nil,
          ← List.append_assoc]
        exact hprints

end Steps

/-- After any steps a session keeps what the steps say. -/
theorem after_recalls (steps : List Step) : (after steps).Recalls steps := by
  induction steps using List.reverseRecOn with
  | nil => exact ⟨rfl, rfl, rfl, rfl⟩
  | append_singleton earlier step ih => exact ih.step step

/-- A run comes to a table exactly if nothing is wrong and the scope pass succeeds. -/
theorem run_output_table_iff {parse : Parse} {table : SymbolTable} :
    (runOutput parse).1 = some table ↔ parse.diagnostics = [] ∧ analyze parse.tree = .ok table := by
  have hok : parse.ok = true ↔ parse.diagnostics = [] := by simp [Parse.ok]
  unfold runOutput
  split
  · next hclean =>
    rw [← hok, and_iff_right hclean]
    split <;> simp_all
  · next hfaulty =>
    rw [← hok]
    simp [hfaulty]

theorem Recalls.table_iff {session : Session} {steps : List Step} (h : session.Recalls steps)
    {table : SymbolTable} : session.table = some table ↔ ∃ text, lastText? steps = some text ∧
      (Parse.ofSource .program text).diagnostics = [] ∧
        analyze (Parse.ofSource .program text).tree = .ok table := by
  rw [h.table, Option.bind_eq_some_iff]
  simp only [run_output_table_iff]

end Session

theorem SymbolTable.rows_show (table : SymbolTable) :
    List.Forall₂ Row.Shows table.rows table.entries := by
  have hrows : table.rows = table.entries.map fun entry =>
      ⟨entry.1.name, entry.1.kind, entry.2.name, entry.2.type, entry.2.value.getD ""⟩ := by
    simp only [rows, entries, List.map_flatMap, List.map_map]
    rfl
  rw [hrows, List.forall₂_map_left_iff, List.forall₂_same]
  intro entry _
  refine ⟨rfl, rfl, rfl, rfl, ?_⟩
  cases entry.2.value with
  | none => exact .inr ⟨rfl, rfl⟩
  | some value => exact .inl rfl

namespace Session

theorem Recalls.tells {session : Session} {steps : List Step} (h : session.Recalls steps)
    (tree : Bool) : (session.view tree).Tells steps tree where
  rows_iff := by
    have hrows : (session.view tree).rows = session.table.map SymbolTable.rows := rfl
    rw [hrows, Option.ne_none_iff_exists']
    simp only [Option.map_eq_some_iff, h.table_iff]
    constructor
    · rintro ⟨_, table, ⟨text, htext⟩, -⟩
      exact ⟨text, table, htext⟩
    · rintro ⟨text, table, htext⟩
      exact ⟨_, table, ⟨text, htext⟩, rfl⟩
  rows := by
    intro text table rows htext htable hrows
    obtain ⟨other, hother, rfl⟩ := Option.map_eq_some_iff.1 hrows
    obtain ⟨_, hsame, -, hanalyze⟩ := h.table_iff.1 hother
    obtain rfl := Option.some.inj (htext.symm.trans hsame)
    obtain rfl := Except.ok.inj (htable.symm.trans hanalyze)
    exact table.rows_show
  shown := by
    simp only [view, h.parse, Option.map_map]
    rfl
  console := h.prints

section Outputs

variable {text : String}

theorem run_output_of_table {parse : Parse} (h : parse.diagnostics = []) {table : SymbolTable}
    (htable : analyze parse.tree = .ok table) : runOutput parse = (some table, table.report) := by
  rw [runOutput, if_pos (by simp [Parse.ok, h]), htable]

theorem run_output_of_duplicate {parse : Parse} (h : parse.diagnostics = [])
    {error : SemanticError} (hhalt : analyze parse.tree = .error (.semantic error)) :
    runOutput parse = (none, endLines [error.message]) := by
  rw [runOutput, if_pos (by simp [Parse.ok, h]), hhalt]

theorem output_of_faulty (h : (Parse.ofSource .program text).diagnostics ≠ []) :
    output text = syntaxOutput (Parse.ofSource .program text).diagnostics := by
  rw [output, runOutput, if_neg (by simpa [Parse.ok] using h)]

theorem end_lines_singleton (line : String) : endLines [line] = line ++ "\n" := by
  simp only [endLines, List.map_cons, List.map_nil, String.join_cons, String.join_nil,
    String.append_empty]

/-- The command writes the same about a text, whether or not it tells more on its log. -/
theorem analyze_source_output (verbose : Bool)
    (h : (Parse.ofSource .program text).diagnostics = []) :
    ∃ console, Command.analyzeSource verbose text = .exit console ∧
      console.stdout = output text := by
  obtain ⟨log, -, hsource⟩ := Command.exists_log_of_clean verbose h
  rw [hsource]
  rcases analyze_cases h with ⟨table, htable⟩ | ⟨name, place, hhalt⟩
  · rw [output, run_output_of_table h htable, htable]
    exact ⟨_, rfl, rfl⟩
  · rw [output, run_output_of_duplicate h hhalt, hhalt]
    exact ⟨_, rfl, rfl⟩

/-- The command takes a text without carriage returns as it is. -/
theorem run_text {arguments : List String} {file : String} {verbose : Bool} {stdin : ByteArray}
    {files : Files} (harguments : Arguments.parse arguments = .ok (.analyze file verbose))
    (hinput : Command.input files stdin file = .ok text.toUTF8) (htext : '\r' ∉ text.toList) :
    Command.run arguments stdin files = Command.analyzeSource verbose text := by
  unfold Command.run
  rw [harguments]
  dsimp only
  rw [hinput]
  dsimp only
  rw [Command.analyze_bytes_of_text, unified_of_not_mem htext]

theorem reports (text : String) : Reports text where
  clean := fun h => by
    rcases analyze_cases h with ⟨table, htable⟩ | ⟨name, place, hhalt⟩
    · exact .inl ⟨table, htable, congrArg Prod.snd (run_output_of_table h htable)⟩
    · rw [output, run_output_of_duplicate h hhalt, end_lines_singleton]
      exact .inr ⟨name, place, hhalt, rfl⟩
  agrees := fun htext arguments file verbose stdin files harguments hinput => by
    rw [run_text harguments hinput htext]
    by_cases h : (Parse.ofSource .program text).diagnostics = []
    · obtain ⟨console, hconsole, houtput⟩ := analyze_source_output verbose h
      exact ⟨console, hconsole, fun _ => houtput, fun hfaulty => absurd h hfaulty⟩
    · rw [Command.analyze_source_faulty verbose h, output_of_faulty h]
      refine ⟨_, rfl, fun hclean => absurd hclean h, fun _ => ⟨rfl, ?_⟩⟩
      dsimp only [syntaxOutput]

end Outputs

end Session

/-- What is seen after any steps is what their history says: rows and tree are those of the last
run, and the console shows what was written since it was last cleared. A run writes the report on
its text or names the duplicate, just as the command does. -/
theorem session_follows_history :
    (∀ (earlier : List Step) (step : Step), ∃ view,
      (Session.start.views (earlier ++ [step])).getLast? = some view ∧
        view.Tells (earlier ++ [step]) step.tree) ∧
    ∀ text, Session.Reports text := by
  refine ⟨fun earlier step => ⟨_, ?_, (Session.after_recalls _).tells step.tree⟩,
    Session.reports⟩
  rw [Session.views_concat, List.getLast?_concat, Session.after_concat]
  rfl

/-- A program that declares a name twice. -/
def declaredTwice : String := "PROGRAM p BEGIN FUNCTION VOID main () BEGIN INT x, x; END END"

/-- A run and the command name the duplicate alike, and the run leaves no rows. -/
theorem session_names_duplicate :
    (Session.start.views [⟨Session.noSample, some declaredTwice, true, false, false⟩]).map
        (fun view => (view.console, view.rows)) = [("DECLARATION ERROR x\n", none)] ∧
      ∃ console, Command.run ["a"] .empty [("a", .file declaredTwice.toUTF8)] = .exit console ∧
        console.stdout = "DECLARATION ERROR x\n" := by
  have hclean : (Parse.ofSource .program declaredTwice).diagnostics = [] := by decide +kernel
  have houtput : Session.output declaredTwice = "DECLARATION ERROR x\n" := by decide +kernel
  obtain ⟨console, hrun, hstdout, -⟩ := (session_follows_history.2 declaredTwice).agrees
    (by decide +kernel) ["a"] "a" false .empty [("a", .file declaredTwice.toUTF8)] (by decide) rfl
  exact ⟨by decide +kernel, console, hrun, (hstdout hclean).trans houtput⟩

/-- The rows of a run stay in view while the text is edited and the console cleared. -/
example :
    (Session.start.views [
      ⟨Session.noSample, some "PROGRAM p BEGIN FUNCTION VOID main () BEGIN INT x; END END",
        true, false, false⟩,
      ⟨Session.noSample, some "PROGRAM", false, true, false⟩]).map (·.rows) =
      List.replicate 2 (some [⟨"main", .function, "x", "INT", ""⟩]) := by
  decide +kernel

end Little
