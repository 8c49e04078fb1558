import Little.Command
import Little.Proofs.Command.Paths
import Little.Proofs.Lexing.Newlines
import Little.Proofs.Scope.Reading
import Little.Proofs.Scope.Respelling
import Little.SourceFile

/-!
# The command and the library agree

The command reads a file with its line breaks unified and the library reads it as it is. They find
the same things wrong with it (`problems_unified`), the scope pass declares the same or halts alike
(`analyze_unified`), and the report of the command is that of the library with its line breaks
unified (`report_unified`). `command_agrees` puts this together for every file whose name is no
switch.
-/

namespace Little

section Text

variable {front back text : String}

theorem unified_append
    (h : ¬ (front.toList.getLast? = some '\r' ∧ back.toList.head? = some '\n')) :
    unifiedNewlines (front ++ back) = unifiedNewlines front ++ unifiedNewlines back := by
  rw [unifiedNewlines, String.toList_append, unify_append h, String.ofList_append]
  rfl

theorem unified_of_not_mem (h : '\r' ∉ text.toList) : unifiedNewlines text = text := by
  rw [unifiedNewlines, unify_of_not_mem h, String.ofList_toList]

/-- Lines can be unified one by one. -/
theorem unified_join {lines : List String} (h : ∀ line ∈ lines, ∃ text, line = text ++ "\n") :
    unifiedNewlines (String.join lines) = String.join (lines.map unifiedNewlines) := by
  induction lines with
  | nil => rfl
  | cons line lines ih =>
      rw [List.forall_mem_cons] at h
      obtain ⟨⟨text, rfl⟩, hlines⟩ := h
      have hend : (text ++ "\n").toList.getLast? ≠ some '\r' := by
        rw [String.toList_append, show "\n".toList = ['\n'] from rfl, List.getLast?_concat]
        decide
      rw [String.join_cons, unified_append fun hcut => hend hcut.1, ih hlines, List.map_cons,
        String.join_cons]

end Text

/-- The line of a symbol has line breaks in its value only. -/
theorem Symbol.Proper.unified_line {symbol : Symbol} (h : symbol.Proper) :
    unifiedNewlines (symbol.render ++ "\n") =
      (symbol.respell unifiedNewlines).render ++ "\n" := by
  obtain ⟨name, type, value⟩ := symbol
  have hname : '\r' ∉ name.toList := not_mem_of_alphanum h.name (by decide)
  rcases h.form with ⟨htype, rfl⟩ | ⟨rfl, body, -, rfl⟩
  · have htype : '\r' ∉ type.toList := by
      rcases htype with rfl | rfl <;> decide
    refine unified_of_not_mem ?_
    simp [Symbol.render, hname, htype]
  · have hline (value : String) : (Symbol.mk name "STRING" (some value)).render ++ "\n" =
        ("name " ++ name ++ " type STRING value ") ++ (value ++ "\n") := by
      rw [← String.toList_inj]
      simp [Symbol.render]
    -- all line breaks stand behind the quote that opens the value and before the one that closes it
    have hfront : '\r' ∉ ("name " ++ name ++ " type STRING value ").toList := by
      simp [hname]
    have hquote : (String.ofList ('"' :: body ++ ['"'])).toList.getLast? ≠ some '\r' := by
      rw [String.toList_ofList, List.getLast?_concat]
      decide
    rw [hline, unified_append fun hcut => hfront (List.mem_of_getLast? hcut.1),
      unified_of_not_mem hfront, unified_append fun hcut => hquote hcut.1]
    exact (hline _).symm

/-- A section is written with the line breaks in its values unified. -/
theorem Scope.Proper.unified_render {scope : Scope} (h : scope.Proper) :
    unifiedNewlines scope.render = (scope.respell unifiedNewlines).render := by
  have hlines (scope : Scope) : scope.render =
      String.join (("Symbol table " ++ scope.name ++ "\n") ::
        (scope.symbols.map fun symbol => symbol.render ++ "\n") ++ ["\n"]) := by
    simp [Scope.render, String.append_assoc]
  have hname : '\r' ∉ ("Symbol table " ++ scope.name ++ "\n").toList := by
    simp [h.break_not_mem (.inl rfl)]
  have hsymbols : (scope.symbols.map fun symbol => symbol.render ++ "\n").map unifiedNewlines =
      (scope.respell unifiedNewlines).symbols.map fun symbol => symbol.render ++ "\n" := by
    rw [Scope.respell, List.map_map, List.map_map]
    exact List.map_congr_left fun symbol hmem => (h.symbols symbol hmem).unified_line
  rw [hlines, unified_join, hlines, List.map_append, List.map_cons, hsymbols,
    unified_of_not_mem hname]
  · rfl
  · simp only [List.mem_append, List.mem_cons, List.mem_map, List.not_mem_nil, or_false]
    rintro _ ((rfl | ⟨symbol, -, rfl⟩) | rfl)
    · exact ⟨_, rfl⟩
    · exact ⟨_, rfl⟩
    · exact ⟨"", rfl⟩

/-- A report is written with the line breaks in its values unified. -/
theorem report_unified {table : SymbolTable} (h : ∀ scope ∈ table.listed, scope.Proper) :
    unifiedNewlines table.report = (table.respell unifiedNewlines).report := by
  unfold SymbolTable.report
  rw [SymbolTable.reported_respell, unified_join, List.map_map, List.map_map]
  · refine congrArg String.join (List.map_congr_left fun scope hmem => ?_)
    exact (h scope (SymbolTable.mem_listed_of_reported hmem)).unified_render
  · intro _ hmem
    obtain ⟨scope, -, rfl⟩ := List.mem_map.1 hmem
    exact ⟨_, rfl⟩

section Source

variable {source : String}

theorem alike_unified (source : String) :
    Lexing.Alike unifiedNewlines (.ofSource source) (.ofSource (unifiedNewlines source)) := by
  refine Lexing.alike_of_signals unifiedNewlines ?_
  rw [unifiedNewlines, String.toList_ofList]
  exact signals_unify source.toList

/-- The same things are wrong with a text whichever way its line breaks are written. -/
theorem problems_unified (entry : Rule) (source : String) :
    (Parse.ofSource entry (unifiedNewlines source)).diagnostics.map (·.problem) =
      (Parse.ofSource entry source).diagnostics.map (·.problem) :=
  (alike_unified source).problems entry

/-- A text without diagnostics has none either way. -/
theorem diagnostics_unified_iff (entry : Rule) (source : String) :
    (Parse.ofSource entry (unifiedNewlines source)).diagnostics = [] ↔
      (Parse.ofSource entry source).diagnostics = [] := by
  have hproblems := problems_unified entry source
  constructor
  · intro h
    rw [h] at hproblems
    exact List.map_eq_nil_iff.1 hproblems.symm
  · intro h
    rw [h] at hproblems
    exact List.map_eq_nil_iff.1 hproblems

/-- The scope pass declares the same with the line breaks in values unified, or halts at the same
name. -/
theorem analyze_unified {entry : Rule} (h : (Parse.ofSource entry source).diagnostics = []) :
    (analyze (Parse.ofSource entry (unifiedNewlines source)).tree).mapError Halt.atStart =
      ((analyze (Parse.ofSource entry source).tree).map
        (SymbolTable.respell unifiedNewlines)).mapError Halt.atStart :=
  analyze_of_respell ((alike_unified source).trees entry) (keeps_of_enter h)

theorem analyze_unified_ok {entry : Rule} (h : (Parse.ofSource entry source).diagnostics = [])
    {table : SymbolTable} (htable : analyze (Parse.ofSource entry source).tree = .ok table) :
    analyze (Parse.ofSource entry (unifiedNewlines source)).tree =
      .ok (table.respell unifiedNewlines) := by
  have hunified := analyze_unified h
  rw [htable] at hunified
  cases hanalyze : analyze (Parse.ofSource entry (unifiedNewlines source)).tree with
  | ok other =>
      rw [hanalyze] at hunified
      exact congrArg Except.ok (Except.ok.inj hunified)
  | error halt =>
      rw [hanalyze] at hunified
      cases hunified

theorem analyze_unified_duplicate {entry : Rule}
    (h : (Parse.ofSource entry source).diagnostics = []) {name : String} {place : Location}
    (hhalt : analyze (Parse.ofSource entry source).tree =
      .error (.semantic (.duplicate name place))) :
    ∃ place, analyze (Parse.ofSource entry (unifiedNewlines source)).tree =
      .error (.semantic (.duplicate name place)) := by
  have hunified := analyze_unified h
  rw [hhalt] at hunified
  cases hanalyze : analyze (Parse.ofSource entry (unifiedNewlines source)).tree with
  | ok table =>
      rw [hanalyze] at hunified
      cases hunified
  | error halt =>
      rw [hanalyze] at hunified
      -- only the place of the halt can be another one
      have hstart : halt.atStart = .semantic (.duplicate name .atStart) :=
        Except.error.inj hunified
      cases halt with
      | semantic error =>
          cases error with
          | duplicate other place =>
              cases hstart
              exact ⟨place, rfl⟩
          | other => cases hstart
      | _ => cases hstart

/-- Without diagnostics there is a symbol table or a duplicate. -/
theorem analyze_cases (h : (Parse.ofSource .program source).diagnostics = []) :
    (∃ table, analyze (Parse.ofSource .program source).tree = .ok table) ∨
      ∃ name place, analyze (Parse.ofSource .program source).tree =
        .error (.semantic (.duplicate name place)) := by
  obtain ⟨parts, hparts⟩ := exists_program_parts h
  rw [hparts]
  obtain ⟨hok, herror⟩ := parts.analyze_eq
  cases hclash : parts.tree.outline.firstClash with
  | none =>
      obtain ⟨table, htable, -⟩ := hok hclash
      exact .inl ⟨table, htable⟩
  | some item => exact .inr ⟨_, _, herror item hclash⟩

end Source

namespace Command

variable {source : String}

theorem analyze_source_faulty (verbose : Bool)
    (h : (Parse.ofSource .program source).diagnostics ≠ []) :
    analyzeSource verbose source =
      .exit ⟨2, "", endLines ((Parse.ofSource .program source).diagnostics.map
        Diagnostic.render)⟩ := by
  have hok : (Parse.ofSource .program source).ok = false := by
    simpa [Parse.ok] using h
  unfold analyzeSource
  dsimp only
  rw [hok]
  rfl

/-- On a text without diagnostics the command leaves what the scope pass comes to, with a log if it
is asked for. -/
theorem exists_log_of_clean (verbose : Bool)
    (h : (Parse.ofSource .program source).diagnostics = []) :
    ∃ log, (verbose = false → log = "") ∧ analyzeSource verbose source =
      match analyze (Parse.ofSource .program source).tree with
      | .ok table => .exit ⟨0, table.report, log⟩
      | .error (.semantic error) => .exit ⟨1, endLines [error.message], log⟩
      | .error halt => .halted halt := by
  have hok : (Parse.ofSource .program source).ok = true := by
    simp [Parse.ok, h]
  unfold analyzeSource analyze
  dsimp only
  rw [hok, if_pos rfl]
  generalize Builder.start.walk _ = outcome
  obtain ⟨builder, _ | halt⟩ := outcome
  · refine ⟨_, ?_, rfl⟩
    rintro rfl
    rfl
  · cases halt with
    | semantic error =>
        refine ⟨_, ?_, rfl⟩
        rintro rfl
        rfl
    | missingPart | noOpenScope | unlistedScope => exact ⟨"", fun _ => rfl, rfl⟩

/-- What the command says about a text without diagnostics is what the scope pass makes of it. -/
theorem analyze_source_clean (h : (Parse.ofSource .program source).diagnostics = []) :
    analyzeSource false source =
      match analyze (Parse.ofSource .program source).tree with
      | .ok table => .exit ⟨0, table.report, ""⟩
      | .error (.semantic error) => .exit ⟨1, endLines [error.message], ""⟩
      | .error halt => .halted halt := by
  obtain ⟨log, hlog, hsource⟩ := exists_log_of_clean false h
  rw [hsource, hlog rfl]

/-- A single argument that is no switch names the file to read. -/
theorem arguments_file {file : String} (h : file.toList.head? ≠ some '-') :
    Arguments.parse [file] = .ok (.analyze file false) := by
  have hclassify : Argument.classify file.toList = .file := by
    cases htext : file.toList with
    | nil => rfl
    | cons c text =>
        have hc : c ≠ '-' := by
          rintro rfl
          exact h (congrArg List.head? htext)
        unfold Argument.classify
        split <;> simp_all
  unfold Arguments.parse Argument.classifyAll
  rw [hclassify]
  rfl

/-- The command reads the file that the path leads to, with its line breaks unified. -/
theorem run_file {files : Files} {file : String} {bytes : ByteArray}
    (hname : file.toList.head? ≠ some '-') (hread : files.read file = .ok bytes)
    (hdecode : Encoding.utf8.decode bytes = some source) (stdin : ByteArray) :
    run [file] stdin files = analyzeSource false (unifiedNewlines source) := by
  have hfile : file ≠ Arguments.defaultFile := by
    rintro rfl
    exact hname rfl
  have hinput : input files stdin file = .ok bytes := by
    rw [input, if_neg hfile, Files.read_plain_path hread]
  unfold run
  rw [arguments_file hname]
  dsimp only
  rw [hinput]
  dsimp only
  unfold analyzeBytes
  rw [hdecode]
  rfl

end Command

/-- What the command leaves fits the parse that the library makes of the same text. -/
structure Console.Agrees (console : Console) (source : String) (parse : Parse) : Prop where
  /-- The command gives up without output exactly where there are diagnostics. -/
  faulty : console.status = 2 ∧ console.stdout = "" ↔ parse.diagnostics ≠ []
  /-- It lists diagnostics of its own, as many and of the same phases in the same order. -/
  listed : parse.diagnostics ≠ [] →
    console.stderr = endLines ((Parse.ofSource .program (unifiedNewlines source)).diagnostics.map
      Diagnostic.render) ∧
    (Parse.ofSource .program (unifiedNewlines source)).diagnostics.map Diagnostic.phase =
      parse.diagnostics.map Diagnostic.phase
  /-- It names a duplicate exactly where the scope pass halts at that name. -/
  duplicate : parse.diagnostics = [] → ∀ name,
    (console.status = 1 ∧ console.stdout = "DECLARATION ERROR " ++ name ++ "\n" ↔
      ∃ place, analyze parse.tree = .error (.semantic (.duplicate name place)))
  /-- Otherwise there is a table, and it writes the report on it with line breaks unified. -/
  report : parse.diagnostics = [] →
    (∀ name place, analyze parse.tree ≠ .error (.semantic (.duplicate name place))) →
      ∃ table, analyze parse.tree = .ok table ∧ console.status = 0 ∧
        console.stdout = unifiedNewlines table.report

namespace Console.Agrees

variable {source : String}

theorem of_faulty (h : (Parse.ofSource .program source).diagnostics ≠ []) :
    Agrees ⟨2, "", endLines ((Parse.ofSource .program (unifiedNewlines source)).diagnostics.map
      Diagnostic.render)⟩ source (Parse.ofSource .program source) := by
  refine ⟨⟨fun _ => h, fun _ => ⟨rfl, rfl⟩⟩, fun _ => ⟨?_, ?_⟩, fun hnil => absurd hnil h,
    fun hnil => absurd hnil h⟩
  · dsimp only
  · rw [show Diagnostic.phase = Problem.phase ∘ (·.problem) from rfl, ← List.map_map,
      problems_unified, List.map_map]

theorem of_table (h : (Parse.ofSource .program source).diagnostics = []) {table : SymbolTable}
    (htable : analyze (Parse.ofSource .program source).tree = .ok table) :
    Agrees ⟨0, (table.respell unifiedNewlines).report, ""⟩ source
      (Parse.ofSource .program source) := by
  refine ⟨⟨fun hstatus => (nomatch hstatus.1), fun hne => absurd h hne⟩, fun hne => absurd h hne,
    fun _ name => ⟨fun hstatus => (nomatch hstatus.1), ?_⟩, fun _ _ => ⟨table, htable, rfl, ?_⟩⟩
  · rw [htable]
    exact nofun
  · exact (report_unified (proper_of_listed h htable)).symm

theorem of_duplicate (h : (Parse.ofSource .program source).diagnostics = []) {name : String}
    {place : Location} (hhalt : analyze (Parse.ofSource .program source).tree =
      .error (.semantic (.duplicate name place))) :
    Agrees ⟨1, "DECLARATION ERROR " ++ name ++ "\n", ""⟩ source
      (Parse.ofSource .program source) := by
  refine ⟨⟨fun hstatus => (nomatch hstatus.1), fun hne => absurd h hne⟩, fun hne => absurd h hne,
    fun _ other => ?_, fun _ hnone => absurd hhalt (hnone name place)⟩
  rw [hhalt]
  constructor
  · rintro ⟨-, hline⟩
    obtain rfl : name = other := by simpa using hline
    exact ⟨place, rfl⟩
  · rintro ⟨_, ⟨⟩⟩
    exact ⟨rfl, rfl⟩

/-- The command on a text with its line breaks unified agrees with the library on the text as it
is. -/
theorem exists_of_source (source : String) :
    ∃ console, Command.analyzeSource false (unifiedNewlines source) = .exit console ∧
      console.Agrees source (Parse.ofSource .program source) := by
  by_cases h : (Parse.ofSource .program source).diagnostics = []
  · rw [Command.analyze_source_clean ((diagnostics_unified_iff _ source).2 h)]
    rcases analyze_cases h with ⟨table, htable⟩ | ⟨name, place, hhalt⟩
    · rw [analyze_unified_ok h htable]
      exact ⟨_, rfl, of_table h htable⟩
    · obtain ⟨other, hother⟩ := analyze_unified_duplicate h hhalt
      rw [hother]
      exact ⟨_, rfl, of_duplicate h hhalt⟩
  · exact ⟨_, Command.analyze_source_faulty false (mt (diagnostics_unified_iff _ source).1 h),
      of_faulty h⟩

end Console.Agrees

theorem Encoding.decode_of_text (text : String) : utf8.decode text.toUTF8 = some text := by
  exact dif_pos text.isValidUTF8

/-- The command takes bytes that are a text as that text, with its line breaks unified. -/
theorem Command.analyze_bytes_of_text (verbose : Bool) (text : String) :
    analyzeBytes verbose text.toUTF8 = analyzeSource verbose (unifiedNewlines text) := by
  rw [analyzeBytes, Encoding.decode_of_text]
  rfl

/-- The library parses the file that a path leads to, as it is. -/
theorem SourceFile.parse_program {files : Files} {file source : String} {bytes : ByteArray}
    (hread : files.read file = .ok bytes) (hdecode : Encoding.utf8.decode bytes = some source) :
    parse files file .utf8 wholeProgram = .ok (Parse.ofSource .program source) := by
  rw [parse, hread]
  dsimp only
  rw [parseBytes, hdecode]
  rfl

/-- The command and the library agree on every file that is UTF-8 and whose name is no switch: both
come to an end, on diagnostics of the same phases in the same order, at the same duplicate, or with
the same report but for the line breaks in it. -/
theorem command_agrees {files : Files} {file source : String} {bytes : ByteArray}
    (hname : file.toList.head? ≠ some '-') (hread : files.read file = .ok bytes)
    (hdecode : Encoding.utf8.decode bytes = some source) (stdin : ByteArray) :
    ∃ parse console, SourceFile.parse files file .utf8 SourceFile.wholeProgram = .ok parse ∧
      Command.run [file] stdin files = .exit console ∧ console.Agrees source parse := by
  obtain ⟨console, hconsole, hagrees⟩ := Console.Agrees.exists_of_source source
  exact ⟨_, console, SourceFile.parse_program hread hdecode,
    (Command.run_file hname hread hdecode stdin).trans hconsole, hagrees⟩

/-- A program with all three kinds of line breaks, one of them in a string. -/
def mixedLines : String :=
  "PROGRAM p\r\nBEGIN\rFUNCTION VOID main ()\nBEGIN STRING s := \"x\r\ny\"; END END"

/-- The report of the command on such a file has line feeds only. -/
theorem command_agrees_mixed_lines : ∃ console,
    Command.run ["a"] .empty [("a", .file mixedLines.toUTF8)] = .exit console ∧
      console.status = 0 ∧
      console.stdout = "Symbol table main\nname s type STRING value \"x\ny\"\n\n" := by
  have hclean : (Parse.ofSource .program mixedLines).diagnostics = [] := by decide +kernel
  have htable : analyze (Parse.ofSource .program mixedLines).tree =
      .ok ⟨[⟨"GLOBAL", .global, []⟩, ⟨"main", .function, [⟨"s", "STRING", some "\"x\r\ny\""⟩]⟩,
        ⟨"BLOCK 1", .block, []⟩], [0, 1]⟩ := by
    decide +kernel
  have hdecode := Encoding.decode_of_text mixedLines
  obtain ⟨parse, console, hparse, hrun, hagrees⟩ :=
    @command_agrees [("a", .file mixedLines.toUTF8)] "a" _ _ (by decide) rfl hdecode .empty
  obtain rfl : parse = Parse.ofSource .program mixedLines :=
    Except.ok.inj (hparse.symm.trans (SourceFile.parse_program rfl hdecode))
  obtain ⟨table, hother, hstatus, hstdout⟩ := hagrees.report hclean (by rw [htable]; exact nofun)
  obtain rfl := Except.ok.inj (htable.symm.trans hother)
  exact ⟨console, hrun, hstatus, hstdout.trans (by decide +kernel)⟩

end Little
