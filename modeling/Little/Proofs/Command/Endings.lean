import Little.Proofs.Program.Agreement

/-!
# How the command ends

Whatever arguments, files and standard input the command is given, it ends with one of its three
statuses, and where it gives up it says why and prints nothing. Two inputs escape it: bytes that are
no text in UTF-8, and a name with a null character in it, which is no path. `ends_settled` says that
there are no others, and that every other source that cannot be read is told of.
-/

namespace Little

namespace Files

variable {files : Files} {path : String}

/-- Following a path does not ask what characters it has. -/
theorem follow_ne_null (files : Files) (path : String) (place : Place) (entry : Entry)
    (parts : List PathPart) : follow files path place entry parts ≠ .error .nullInPath := by
  induction parts generalizing place entry with
  | nil => simp [follow]
  | cons part parts ih =>
      cases entry with
      | file => simp [follow]
      | directory =>
          rw [follow]
          split
          · simp
          · split
            · simp
            · exact ih _ _

/-- A path with a null character in it, and no other, is refused as a path. -/
theorem read_eq_null_iff : files.read path = .error .nullInPath ↔ '\x00' ∈ path.toList := by
  unfold read resolve
  by_cases hnull : path.toList.contains '\x00' = true
  · simp [List.contains_iff_mem.1 hnull]
  · rw [if_neg hnull, iff_false_right fun hmem => hnull (List.contains_iff_mem.2 hmem)]
    have hfollow := follow_ne_null files path (.origin path.toList) .directory (cut path.toList)
    split
    · exact nofun
    · exact nofun
    · next problem hresolve =>
      rintro ⟨⟩
      split at hresolve
      · cases hresolve
      · split at hresolve
        · cases hresolve
        · exact hfollow hresolve

end Files

theorem end_lines_ne_empty {lines : List String} (h : lines ≠ []) : endLines lines ≠ "" := by
  cases lines with
  | nil => exact absurd rfl h
  | cons line lines => simp [endLines]

theorem Arguments.complaint_ne_empty (error : UsageError) : complaint error ≠ "" := by
  simp [complaint, usage]

/-- A command that was not broken off leaves one of three statuses. Where it gives up it prints
nothing and says why. -/
def Console.Settled (console : Console) : Prop :=
  console.status = 0 ∨ console.status = 1 ∨
    console.status = 2 ∧ console.stdout = "" ∧ console.stderr ≠ ""

namespace Command

/-- The command comes by bytes that are no text in UTF-8. -/
def ReadsNoText (arguments : List String) (stdin : ByteArray) (files : Files) : Prop :=
  ∃ file verbose bytes, Arguments.parse arguments = .ok (.analyze file verbose) ∧
    input files stdin file = .ok bytes ∧ ¬ ∃ text : String, text.toUTF8 = bytes

/-- The command is given a name with a null character in it. -/
def NamesNoPath (arguments : List String) : Prop :=
  ∃ file verbose, Arguments.parse arguments = .ok (.analyze file verbose) ∧
    '\x00' ∈ file.toList

/-- How the command ends. -/
structure Ends (arguments : List String) (stdin : ByteArray) (files : Files) : Prop where
  /-- It leaves one of its statuses unless one of two inputs escapes it. -/
  settled_iff :
    (∃ console, run arguments stdin files = .exit console ∧ console.Settled) ↔
      ¬ ReadsNoText arguments stdin files ∧ ¬ NamesNoPath arguments
  undecodable_iff : run arguments stdin files = .undecodable ↔ ReadsNoText arguments stdin files
  noPath_iff : run arguments stdin files = .noPath ↔ NamesNoPath arguments
  /-- It tells of every other source that it cannot read. -/
  unreadable : ∀ file verbose problem,
    Arguments.parse arguments = .ok (.analyze file verbose) →
    input files stdin file = .error problem → '\x00' ∉ file.toList →
      run arguments stdin files =
        .exit ⟨2, "", "No se pudo leer " ++ file ++ ": " ++ problem.message ++ "\n"⟩

section Source

variable {source : String}

/-- No text breaks the command off. -/
theorem analyze_source_settled (verbose : Bool) (source : String) :
    ∃ console, analyzeSource verbose source = .exit console ∧ console.Settled := by
  by_cases h : (Parse.ofSource .program source).diagnostics = []
  · obtain ⟨log, -, hlog⟩ := exists_log_of_clean verbose h
    rw [hlog]
    rcases analyze_cases h with ⟨table, htable⟩ | ⟨name, place, hhalt⟩
    · rw [htable]
      exact ⟨_, rfl, .inl rfl⟩
    · rw [hhalt]
      exact ⟨_, rfl, .inr (.inl rfl)⟩
  · rw [analyze_source_faulty verbose h]
    exact ⟨_, rfl, .inr (.inr ⟨rfl, rfl, end_lines_ne_empty (by simpa using h)⟩)⟩

end Source

section Run

variable {arguments : List String} {stdin : ByteArray} {files : Files} {file : String}
  {verbose : Bool} {bytes : ByteArray}

/-- Bytes are decoded exactly if they are a text. -/
theorem decode_ne_none_iff :
    Encoding.utf8.decode bytes ≠ none ↔ ∃ text : String, text.toUTF8 = bytes := by
  constructor
  · intro h
    obtain ⟨text, htext⟩ := Option.ne_none_iff_exists'.1 h
    unfold Encoding.decode String.fromUTF8? at htext
    dsimp only at htext
    split at htext
    · exact ⟨text, by rw [← Option.some.inj htext]; rfl⟩
    · cases htext
  · rintro ⟨text, rfl⟩
    rw [Encoding.decode_of_text]
    exact Option.some_ne_none text

theorem input_eq_null_iff :
    input files stdin file = .error .nullInPath ↔ '\x00' ∈ file.toList := by
  unfold input
  split
  · next hfile =>
    subst hfile
    exact iff_of_false nofun (by decide)
  · rw [Files.read_eq_null_iff, Files.mem_plain_path_iff (by decide) (by decide)]

theorem reads_no_text_iff (h : Arguments.parse arguments = .ok (.analyze file verbose)) :
    ReadsNoText arguments stdin files ↔
      ∃ bytes, input files stdin file = .ok bytes ∧ ¬ ∃ text : String, text.toUTF8 = bytes := by
  constructor
  · rintro ⟨_, _, bytes, hparse, hbytes⟩
    cases h.symm.trans hparse
    exact ⟨bytes, hbytes⟩
  · rintro ⟨bytes, hbytes⟩
    exact ⟨file, verbose, bytes, h, hbytes⟩

theorem names_no_path_iff (h : Arguments.parse arguments = .ok (.analyze file verbose)) :
    NamesNoPath arguments ↔ '\x00' ∈ file.toList := by
  constructor
  · rintro ⟨_, _, hparse, hnull⟩
    cases h.symm.trans hparse
    exact hnull
  · intro hnull
    exact ⟨file, verbose, h, hnull⟩

theorem run_unreadable (h : Arguments.parse arguments = .ok (.analyze file verbose))
    {problem : FileError} (hinput : input files stdin file = .error problem)
    (hnull : '\x00' ∉ file.toList) :
    run arguments stdin files =
      .exit ⟨2, "", "No se pudo leer " ++ file ++ ": " ++ problem.message ++ "\n"⟩ := by
  unfold run
  rw [h]
  dsimp only
  rw [hinput]
  cases problem with
  | nullInPath => exact absurd (input_eq_null_iff.1 hinput) hnull
  | _ => simp only [endLines, List.map_cons, List.map_nil, String.join_cons, String.join_nil,
      String.append_empty]

/-- Where no source is asked for, none of the two inputs is met. -/
theorem meets_neither
    (h : ∀ file verbose, Arguments.parse arguments ≠ .ok (.analyze file verbose)) :
    ¬ ReadsNoText arguments stdin files ∧ ¬ NamesNoPath arguments := by
  constructor
  · rintro ⟨file, verbose, _, hparse, -⟩
    exact h file verbose hparse
  · rintro ⟨file, verbose, hparse, -⟩
    exact h file verbose hparse

theorem analyze_bytes_of_no_text (verbose : Bool)
    (h : ¬ ∃ text : String, text.toUTF8 = bytes) : analyzeBytes verbose bytes = .undecodable := by
  have hdecode : Encoding.utf8.decode bytes = none :=
    Classical.not_not.1 fun hne => h (decode_ne_none_iff.1 hne)
  rw [analyzeBytes, hdecode]

/-- The command ends with a status, and nothing escapes it but the two inputs. -/
theorem run_cases (arguments : List String) (stdin : ByteArray) (files : Files) :
    (∃ console, run arguments stdin files = .exit console ∧ console.Settled) ∧
        ¬ ReadsNoText arguments stdin files ∧ ¬ NamesNoPath arguments ∨
      run arguments stdin files = .undecodable ∧
        ReadsNoText arguments stdin files ∧ ¬ NamesNoPath arguments ∨
      run arguments stdin files = .noPath ∧
        ¬ ReadsNoText arguments stdin files ∧ NamesNoPath arguments := by
  cases hparse : Arguments.parse arguments with
  | error problem =>
      have hrun : run arguments stdin files = .exit ⟨2, "", Arguments.complaint problem⟩ := by
        rw [run, hparse]
      exact .inl ⟨⟨_, hrun, .inr (.inr ⟨rfl, rfl, Arguments.complaint_ne_empty problem⟩)⟩,
        meets_neither fun _ _ => hparse ▸ nofun⟩
  | ok invocation =>
      cases invocation with
      | help =>
          have hrun : run arguments stdin files = .exit ⟨0, Arguments.helpText, ""⟩ := by
            rw [run, hparse]
          exact .inl ⟨⟨_, hrun, .inl rfl⟩, meets_neither fun _ _ => hparse ▸ nofun⟩
      | analyze file verbose =>
          rw [reads_no_text_iff hparse, names_no_path_iff hparse,
            ← @input_eq_null_iff stdin files file]
          cases hinput : input files stdin file with
          | error problem =>
              by_cases hnull : problem = .nullInPath
              · subst hnull
                have hrun : run arguments stdin files = .noPath := by
                  simp only [run, hparse, hinput]
                exact .inr (.inr ⟨hrun, nofun, rfl⟩)
              · have hpath : '\x00' ∉ file.toList := fun hmem =>
                  hnull (Except.error.inj (hinput.symm.trans (input_eq_null_iff.2 hmem)))
                exact .inl ⟨⟨_, run_unreadable hparse hinput hpath,
                  .inr (.inr ⟨rfl, rfl, by simp⟩)⟩, nofun, fun h => hnull (Except.error.inj h)⟩
          | ok bytes =>
              have hrun : run arguments stdin files = analyzeBytes verbose bytes := by
                simp only [run, hparse, hinput]
              rw [hrun]
              by_cases htext : ∃ text : String, text.toUTF8 = bytes
              · obtain ⟨text, rfl⟩ := htext
                rw [analyze_bytes_of_text]
                refine .inl ⟨analyze_source_settled verbose _, ?_, nofun⟩
                rintro ⟨_, hbytes, hno⟩
                exact hno ⟨text, Except.ok.inj hbytes⟩
              · exact .inr (.inl ⟨analyze_bytes_of_no_text verbose htext,
                  ⟨bytes, rfl, htext⟩, nofun⟩)

end Run

/-- The command ends with one of its statuses on everything but bytes that are no text and names
that are no path. It tells of every other source that it cannot read. -/
theorem ends_settled (arguments : List String) (stdin : ByteArray) (files : Files) :
    Ends arguments stdin files where
  settled_iff := by
    rcases run_cases arguments stdin files with ⟨hrun, hno⟩ | ⟨hrun, hbytes, -⟩ | ⟨hrun, -, hname⟩
    · exact iff_of_true hrun hno
    · simp [hrun, hbytes]
    · simp [hrun, hname]
  undecodable_iff := by
    rcases run_cases arguments stdin files with
      ⟨⟨_, hrun, -⟩, hno, -⟩ | ⟨hrun, hbytes, -⟩ | ⟨hrun, hno, -⟩
    · exact iff_of_false (by rw [hrun]; exact nofun) hno
    · exact iff_of_true hrun hbytes
    · exact iff_of_false (by rw [hrun]; exact nofun) hno
  noPath_iff := by
    rcases run_cases arguments stdin files with
      ⟨⟨_, hrun, -⟩, -, hno⟩ | ⟨hrun, -, hno⟩ | ⟨hrun, -, hname⟩
    · exact iff_of_false (by rw [hrun]; exact nofun) hno
    · exact iff_of_false (by rw [hrun]; exact nofun) hno
    · exact iff_of_true hrun hname
  unreadable := fun _ _ _ hparse => run_unreadable hparse

/-- A file of one byte that begins no character breaks the command off. -/
theorem stray_byte_escapes :
    run ["a"] .empty [("a", .file ⟨#[0xFF]⟩)] = .undecodable ∧
      ¬ ∃ console, run ["a"] .empty [("a", .file ⟨#[0xFF]⟩)] = .exit console := by
  have hrun : run ["a"] .empty [("a", .file ⟨#[0xFF]⟩)] = .undecodable := by decide +kernel
  rw [hrun]
  exact ⟨rfl, nofun⟩

end Command

end Little
