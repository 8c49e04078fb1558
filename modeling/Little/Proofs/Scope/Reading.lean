import Little.Proofs.Scope.Proper

/-!
# Reading a report back

A report can be read back, though the text of a `STRING` may hold line breaks and anything that
looks like a part of a report. `readReport` does it: names of scopes end with their line, names of
symbols end at the next space, and a value ends at the next double quote. `report_read_back` says
that it finds the sections of every report on a program without diagnostics, so no two such reports
with other sections are the same text.
-/

namespace Little

/-- A section of a report: the name of a scope and its symbols. -/
abbrev Section := String × List Symbol

/-- The sections that the report on a table has. -/
def SymbolTable.sections (table : SymbolTable) : List Section :=
  table.reported.map fun scope => (scope.name, scope.symbols)

/-- What stands behind a word at the head of a text. -/
def behind (word : String) (text : List Char) : Option (List Char) := word.toList.isPrefixOf? text

/-- The text up to a character, and what stands from there on. -/
def cutAt (stop : Char) (text : List Char) : List Char × List Char :=
  (text.takeWhile (· != stop), text.dropWhile (· != stop))

/-- Reads the line of a symbol. -/
def readSymbol (text : List Char) : Option (Symbol × List Char) := do
  let text ← behind "name " text
  let (name, text) := cutAt ' ' text
  let text ← behind " type " text
  match behind "STRING value \"" text with
  | some text =>
    let (body, text) := cutAt '"' text
    let text ← behind "\"\n" text
    return (⟨.ofList name, "STRING", some (.ofList ('"' :: body ++ ['"']))⟩, text)
  | none =>
    let (type, text) := cutAt '\n' text
    let text ← behind "\n" text
    return (⟨.ofList name, .ofList type, none⟩, text)

/-- Reads the lines of at most so many symbols, up to an empty line. -/
def readSymbols : Nat → List Char → Option (List Symbol × List Char)
  | 0, text => (behind "\n" text).map ([], ·)
  | bound + 1, text =>
    match behind "\n" text with
    | some text => some ([], text)
    | none => do
      let (symbol, text) ← readSymbol text
      let (symbols, text) ← readSymbols bound text
      return (symbol :: symbols, text)

/-- Reads a section. It has no more symbols than characters. -/
def readSection (text : List Char) : Option (Section × List Char) := do
  let text ← behind "Symbol table " text
  let (name, text) := cutAt '\n' text
  let text ← behind "\n" text
  let (symbols, text) ← readSymbols text.length text
  return ((.ofList name, symbols), text)

/-- Reads at most so many sections, up to the end of the text. -/
def readSections : Nat → List Char → Option (List Section)
  | _, [] => some []
  | 0, _ :: _ => none
  | bound + 1, text => do
    let (first, text) ← readSection text
    let rest ← readSections bound text
    return first :: rest

/-- Reads a report. It has no more sections than characters. -/
def readReport (report : String) : Option (List Section) :=
  readSections report.toList.length report.toList

theorem behind_append (word : String) (text : List Char) :
    behind word (word.toList ++ text) = some text :=
  List.isPrefixOf?_eq_some_iff_append_eq.2 rfl

/-- A text is cut where a word begins with the character. -/
theorem cut_at_append {stop : Char} {front : List Char} {word : String} (hfront : stop ∉ front)
    (hword : word.toList.head? = some stop) (text : List Char) :
    cutAt stop (front ++ (word.toList ++ text)) = (front, word.toList ++ text) := by
  obtain ⟨rest, hrest⟩ := List.head?_eq_some_iff.1 hword
  have hpasses : ∀ c ∈ front, (c != stop) = true := by
    intro c hc
    rw [bne_iff_ne]
    rintro rfl
    exact hfront hc
  rw [cutAt, hrest, List.cons_append, List.takeWhile_append_of_pos hpasses,
    List.dropWhile_append_of_pos hpasses, List.takeWhile_cons_of_neg (by simp),
    List.dropWhile_cons_of_neg (by simp), List.append_nil]

/-- A character that is no letter and no digit has no place in a name. -/
theorem not_mem_of_alphanum {text : List Char} (h : ∀ c ∈ text, c.isAlphanum = true) {c : Char}
    (hc : c.isAlphanum = false) : c ∉ text :=
  fun hmem => ne_true_of_eq_false hc (h c hmem)

namespace Symbol

/-- The line of a symbol without a value is read back. -/
theorem read_plain {name type : String} (hname : ' ' ∉ name.toList)
    (htype : type = "INT" ∨ type = "FLOAT") (text : List Char) :
    readSymbol (((Symbol.mk name type none).render ++ "\n").toList ++ text) =
      some (⟨name, type, none⟩, text) := by
  have hline : ((Symbol.mk name type none).render ++ "\n").toList ++ text =
      "name ".toList ++ (name.toList ++ (" type ".toList ++ (type.toList ++
        ("\n".toList ++ text)))) := by
    simp [Symbol.render]
  have hstring : behind "STRING value \"" (type.toList ++ ("\n".toList ++ text)) = none := by
    rcases htype with rfl | rfl <;> rfl
  have hbreak : '\n' ∉ type.toList := by
    rcases htype with rfl | rfl <;> decide
  have hcut := @cut_at_append ' ' _ " type " hname rfl
  have hcut' := @cut_at_append '\n' _ "\n" hbreak rfl
  rw [hline]
  simp only [readSymbol, behind_append, Option.bind_eq_bind, Option.bind_some, hcut, hstring,
    hcut', String.ofList_toList]
  rfl

/-- The line of a string is read back. -/
theorem read_string {name : String} (hname : ' ' ∉ name.toList) {body : List Char}
    (hbody : '"' ∉ body) (text : List Char) :
    readSymbol (((Symbol.mk name "STRING" (some (.ofList ('"' :: body ++ ['"'])))).render ++
      "\n").toList ++ text) =
        some (⟨name, "STRING", some (.ofList ('"' :: body ++ ['"']))⟩, text) := by
  have hline : ((Symbol.mk name "STRING" (some (.ofList ('"' :: body ++ ['"'])))).render ++
      "\n").toList ++ text =
        "name ".toList ++ (name.toList ++ (" type ".toList ++ ("STRING value \"".toList ++
          (body ++ ("\"\n".toList ++ text))))) := by
    simp [Symbol.render]
  have hcut := @cut_at_append ' ' _ " type " hname rfl
  have hcut' := @cut_at_append '"' _ "\"\n" hbody rfl
  rw [hline]
  simp only [readSymbol, behind_append, Option.bind_eq_bind, Option.bind_some, hcut, hcut',
    String.ofList_toList]
  rfl

/-- The line of a symbol is read back. -/
theorem Proper.read_line {symbol : Symbol} (h : symbol.Proper) (text : List Char) :
    readSymbol ((symbol.render ++ "\n").toList ++ text) = some (symbol, text) := by
  obtain ⟨name, type, value⟩ := symbol
  obtain ⟨hname, hform⟩ := h
  have hspace : ' ' ∉ name.toList := not_mem_of_alphanum hname (by decide)
  rcases hform with ⟨htype, rfl⟩ | ⟨rfl, body, hbody, rfl⟩
  · exact read_plain hspace htype text
  · exact read_string hspace hbody text

end Symbol

/-- The lines of symbols are read back, up to the empty line behind them. -/
theorem read_symbols_lines {symbols : List Symbol} (h : ∀ symbol ∈ symbols, symbol.Proper)
    {bound : Nat} (hbound : symbols.length ≤ bound) (text : List Char) :
    readSymbols bound
      ((String.join (symbols.map fun symbol => symbol.render ++ "\n")).toList ++
        ("\n".toList ++ text)) = some (symbols, text) := by
  induction symbols generalizing bound with
  | nil =>
      have hempty : (String.join (([] : List Symbol).map fun symbol =>
          symbol.render ++ "\n")).toList ++ ("\n".toList ++ text) = "\n".toList ++ text := rfl
      rw [hempty]
      cases bound with
      | zero => rw [readSymbols, behind_append]; rfl
      | succ bound => rw [readSymbols, behind_append]
  | cons symbol symbols ih =>
      rw [List.forall_mem_cons] at h
      obtain ⟨bound, rfl⟩ := Nat.exists_eq_add_of_le' (Nat.le_of_add_left_le hbound)
      have hlines : (String.join ((symbol :: symbols).map fun symbol =>
          symbol.render ++ "\n")).toList ++ ("\n".toList ++ text) =
            (symbol.render ++ "\n").toList ++
              ((String.join (symbols.map fun symbol => symbol.render ++ "\n")).toList ++
                ("\n".toList ++ text)) := by
        simp
      -- the line of a symbol begins with its first word
      have hline : ∀ text, behind "\n" ((symbol.render ++ "\n").toList ++ text) = none := by
        intro text
        simp only [Symbol.render, String.toList_append, List.append_assoc]
        rfl
      rw [hlines, readSymbols, hline]
      simp only [h.1.read_line, Option.bind_eq_bind, Option.bind_some,
        ih h.2 (Nat.le_of_succ_le_succ hbound)]
      rfl

/-- Texts that are never empty are no more than the characters of all of them. -/
theorem length_le_join {α : Type} (render : α → String) (h : ∀ a, (render a).toList ≠ [])
    (items : List α) : items.length ≤ (String.join (items.map render)).toList.length := by
  induction items with
  | nil => exact Nat.zero_le _
  | cons item items ih =>
      have hpos := List.length_pos_iff.2 (h item)
      rw [List.map_cons, String.join_cons, String.toList_append, List.length_append,
        List.length_cons]
      omega

namespace Scope.Proper

variable {scope : Scope}

/-- The name of a scope stays on its line. -/
theorem break_not_mem (h : scope.Proper) {c : Char} (hc : c = '\r' ∨ c = '\n') :
    c ∉ scope.name.toList := by
  rcases h.kind with hkind | hkind | hkind
  · rw [h.global hkind]
    rcases hc with rfl | rfl <;> decide
  · exact not_mem_of_alphanum (h.function hkind) (by rcases hc with rfl | rfl <;> decide)
  · obtain ⟨number, hname⟩ := h.block hkind
    rw [hname, blockName, String.toList_append, String.toList_append]
    intro hmem
    rcases List.mem_append.1 hmem with hmem | hmem
    · rcases hc with rfl | rfl <;> exact absurd hmem (by decide)
    · have hdigits : (toString number).toList = Nat.toDigits 10 number := String.toList_ofList
      rw [hdigits] at hmem
      have hdigit := Nat.isDigit_of_mem_toDigits (by decide) (by decide) hmem
      rcases hc with rfl | rfl <;> exact absurd hdigit (by decide)

/-- The section of a scope is read back. -/
theorem read_section (h : scope.Proper) (text : List Char) :
    readSection (scope.render.toList ++ text) = some ((scope.name, scope.symbols), text) := by
  have hlines : scope.render.toList ++ text =
      "Symbol table ".toList ++ (scope.name.toList ++ ("\n".toList ++
        ((String.join (scope.symbols.map fun symbol => symbol.render ++ "\n")).toList ++
          ("\n".toList ++ text)))) := by
    simp [Scope.render]
  have hcut := @cut_at_append '\n' _ "\n" (h.break_not_mem (.inr rfl)) rfl
  have hlength := length_le_join (fun symbol : Symbol => symbol.render ++ "\n")
    (fun symbol => by simp) scope.symbols
  rw [hlines]
  simp only [readSection, behind_append, Option.bind_eq_bind, Option.bind_some, hcut]
  rw [read_symbols_lines h.symbols (by rw [List.length_append]; omega), Option.bind_some,
    String.ofList_toList]
  rfl

end Scope.Proper

/-- The sections of scopes are read back. -/
theorem read_sections_render {scopes : List Scope} (h : ∀ scope ∈ scopes, scope.Proper)
    {bound : Nat} (hbound : scopes.length ≤ bound) :
    readSections bound (String.join (scopes.map Scope.render)).toList =
      some (scopes.map fun scope => (scope.name, scope.symbols)) := by
  induction scopes generalizing bound with
  | nil => cases bound <;> rfl
  | cons scope scopes ih =>
      rw [List.forall_mem_cons] at h
      obtain ⟨bound, rfl⟩ := Nat.exists_eq_add_of_le' (Nat.le_of_add_left_le hbound)
      have hnext (text : List Char) (hne : text ≠ []) : readSections (bound + 1) text =
          (readSection text).bind fun (first, text) =>
            (readSections bound text).bind fun rest => some (first :: rest) := by
        obtain ⟨c, text, rfl⟩ := List.exists_cons_of_ne_nil hne
        rfl
      rw [List.map_cons, String.join_cons, String.toList_append, hnext _ (by simp [Scope.render]),
        h.1.read_section, Option.bind_some]
      dsimp only
      rw [ih h.2 (Nat.le_of_succ_le_succ hbound)]
      rfl

namespace SymbolTable

variable {table : SymbolTable} {scope : Scope}

theorem mem_listed_of_named {name : String} (h : table.named? name = some scope) :
    scope ∈ table.listed ∧ scope.name = name := by
  have hname := List.find?_some h
  exact ⟨List.mem_of_find?_eq_some h, beq_iff_eq.1 hname⟩

/-- A report shows scopes of the table only. -/
theorem mem_listed_of_reported (h : scope ∈ table.reported) : scope ∈ table.listed := by
  rcases List.mem_append.1 h with h | h
  · obtain ⟨name, -, hnamed⟩ := List.mem_filterMap.1 h
    exact (mem_listed_of_named hnamed).1
  · exact (mem_listed_of_named (Option.mem_toList.1 h)).1

/-- A report on scopes as they should be is read back. -/
theorem read_report (h : ∀ scope ∈ table.listed, scope.Proper) :
    readReport table.report = some table.sections := by
  have hlength := length_le_join Scope.render (fun scope => by simp [Scope.render]) table.reported
  exact read_sections_render (fun scope hscope => h scope (mem_listed_of_reported hscope)) hlength

end SymbolTable

/-- The sections of a report on a program can be read off its text, so another program with the same
report has the same sections: the same names of scopes, and in each the same symbols in the same
order, with their types and values. -/
theorem report_read_back {source : String} {table : SymbolTable}
    (h : (Parse.ofSource .program source).diagnostics = [])
    (htable : analyze (Parse.ofSource .program source).tree = .ok table) :
    readReport table.report = some table.sections ∧
    ∀ (source' : String) (table' : SymbolTable),
      (Parse.ofSource .program source').diagnostics = [] →
      analyze (Parse.ofSource .program source').tree = .ok table' →
      table'.report = table.report → table'.sections = table.sections := by
  have hread := SymbolTable.read_report (proper_of_listed h htable)
  refine ⟨hread, fun source' table' h' htable' hreport => ?_⟩
  have hread' := SymbolTable.read_report (proper_of_listed h' htable')
  rw [hreport, hread] at hread'
  exact (Option.some.inj hread').symm

/-- A program with a string whose text looks like a section. -/
theorem report_read_back_forged :
    (Parse.ofSource .program ("PROGRAM p BEGIN FUNCTION VOID main () BEGIN " ++
      "STRING s := \"\n\nSymbol table BLOCK 1\n\"; END END")).diagnostics = [] ∧
    ∃ table, analyze (Parse.ofSource .program ("PROGRAM p BEGIN FUNCTION VOID main () BEGIN " ++
        "STRING s := \"\n\nSymbol table BLOCK 1\n\"; END END")).tree = .ok table ∧
      readReport table.report =
        some [("main", [⟨"s", "STRING", some "\"\n\nSymbol table BLOCK 1\n\""⟩])] := by
  have hclean : (Parse.ofSource .program ("PROGRAM p BEGIN FUNCTION VOID main () BEGIN " ++
      "STRING s := \"\n\nSymbol table BLOCK 1\n\"; END END")).diagnostics = [] := by
    decide +kernel
  have htable : analyze (Parse.ofSource .program ("PROGRAM p BEGIN FUNCTION VOID main () BEGIN " ++
      "STRING s := \"\n\nSymbol table BLOCK 1\n\"; END END")).tree =
        .ok ⟨[⟨"GLOBAL", .global, []⟩, ⟨"main", .function,
          [⟨"s", "STRING", some "\"\n\nSymbol table BLOCK 1\n\""⟩]⟩, ⟨"BLOCK 1", .block, []⟩],
          [0, 1]⟩ := by
    decide +kernel
  exact ⟨hclean, _, htable, (report_read_back hclean htable).1⟩

end Little
