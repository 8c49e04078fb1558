import Mathlib.Data.List.Find
import Mathlib.Data.List.Sort
import Mathlib.Data.String.Basic
import Little.Proofs.Scope.Consistency
import Little.Proofs.Scope.Listing

/-!
# The order of a report

A report looks scopes up by their names, so it shows every block as itself only because no block has
the name of any other scope: blocks are numbered apart, and no name of a function is that of a block
(`Scope.Proper.kind_eq_block_iff`, `SymbolTable.named_of_block`). Then the blocks in a report are
those of the table, put in order by their names (`SymbolTable.reported_blocks_perm`,
`SymbolTable.reported_blocks_sorted`). `report_lists_blocks` says this of programs, with what stands
behind the blocks.
-/

namespace Little

/-- Names are put into a sorted list where they belong. -/
theorem insert_name_eq (name : String) (names : List String) :
    insertName name names = names.orderedInsert (· ≤ ·) name := by
  induction names with
  | nil => rfl
  | cons other names ih =>
      rw [insertName, List.orderedInsert_cons, ih]

theorem block_name_injective : Function.Injective blockName := by
  intro left right h
  have htext : toString left = toString right := by simpa [blockName] using h
  rw [Nat.toString_eq_ofList_toDigits, Nat.toString_eq_ofList_toDigits] at htext
  have hdigits := congrArg (Nat.ofDigitChars 10 · 0) (String.ofList_injective htext)
  simpa only [Nat.ofDigitChars_ten_toDigits] using hdigits

namespace Scope.Proper

variable {scope : Scope}

/-- The name of a block is that of no other scope. -/
theorem kind_eq_block_iff (h : scope.Proper) :
    scope.kind = .block ↔ ∃ number, scope.name = blockName number := by
  refine ⟨h.block, ?_⟩
  rintro ⟨number, hname⟩
  rcases h.kind with hkind | hkind | hkind
  · have hletters : ∀ c ∈ globalName.toList, c.isAlphanum = true :=
      List.all_eq_true.1 (by decide)
    exact absurd ((h.global hkind).symm.trans hname) (block_name_ne hletters)
  · exact absurd hname (block_name_ne (h.function hkind))
  · exact hkind

theorem block_like (h : scope.Proper) (hkind : scope.kind = .block) :
    isBlockLike scope.name = true := by
  obtain ⟨number, hname⟩ := h.block hkind
  rw [hname, isBlockLike, blockName, List.isPrefixOf_iff_prefix, String.toList_append,
    String.toList_append, List.append_assoc]
  exact List.prefix_append _ _

/-- Only a function is named `main`. -/
theorem kind_eq_function (h : scope.Proper) (hname : scope.name = mainName) :
    scope.kind = .function := by
  rcases h.kind with hkind | hkind | hkind
  · exact absurd ((h.global hkind).symm.trans hname) (by decide)
  · exact hkind
  · have hlike := h.block_like hkind
    rw [hname] at hlike
    exact absurd hlike (by decide)

end Scope.Proper

namespace SymbolTable

variable {table : SymbolTable} {scope : Scope}

theorem sorted_names_eq (table : SymbolTable) :
    table.sortedNames = table.names.insertionSort (· ≤ ·) := by
  unfold sortedNames
  induction table.names with
  | nil => rfl
  | cons name names ih => rw [List.foldr_cons, ih, insert_name_eq, List.insertionSort_cons]

theorem sorted_names_perm (table : SymbolTable) : table.sortedNames.Perm table.names := by
  rw [sorted_names_eq]
  exact List.perm_insertionSort _ _

theorem sorted_names_sorted (table : SymbolTable) : table.sortedNames.Pairwise (· ≤ ·) := by
  rw [sorted_names_eq]
  exact List.pairwise_insertionSort _ _

/-- The blocks in a table. -/
def blocks (table : SymbolTable) : List Scope := table.listed.filter (·.kind = .block)

/-- The blocks that a report shows, in the order in which it shows them. -/
def reportedBlocks (table : SymbolTable) : List Scope := table.reported.filter (·.kind = .block)

section Blocks

variable (hproper : ∀ scope ∈ table.listed, scope.Proper)
include hproper

/-- The section behind all others is that of the first function named `main`. -/
theorem named_main :
    table.named? mainName =
      table.listed.find? fun scope => scope.kind = .function && scope.name = mainName := by
  refine List.find?_congr fun scope hscope => ?_
  by_cases hname : scope.name = mainName
  · simp [hname, (hproper scope hscope).kind_eq_function hname]
  · simp [hname]

theorem reported_blocks_eq :
    table.reportedBlocks =
      ((table.sortedNames.filter isBlockLike).filterMap table.named?).filter (·.kind = .block) := by
  have hmain : (table.named? mainName).toList.filter (·.kind = .block) = [] := by
    refine List.filter_eq_nil_iff.2 fun scope hscope => ?_
    obtain ⟨hmem, hname⟩ := mem_listed_of_named (Option.mem_toList.1 hscope)
    simp [(hproper scope hmem).kind_eq_function hname]
  rw [reportedBlocks, reported, List.filter_append, hmain, List.append_nil]

variable (hnames : (table.blocks.map (·.name)).Nodup)
include hnames

/-- Under the name of a scope a block is found only if the scope is that block. -/
theorem block_of_named (hscope : scope ∈ table.listed) :
    (table.named? scope.name).filter (·.kind = .block) =
      if scope.kind = .block then some scope else none := by
  obtain ⟨found, hnamed⟩ : ∃ found, table.named? scope.name = some found :=
    Option.isSome_iff_exists.1 (List.find?_isSome.2 ⟨scope, hscope, beq_self_eq_true _⟩)
  obtain ⟨hfound, hname⟩ := mem_listed_of_named hnamed
  have hkind : found.kind = .block ↔ scope.kind = .block := by
    rw [(hproper found hfound).kind_eq_block_iff, (hproper scope hscope).kind_eq_block_iff, hname]
  rw [hnamed]
  by_cases hblock : scope.kind = .block
  · have heq : found = scope := List.inj_on_of_nodup_map hnames
      (List.mem_filter.2 ⟨hfound, decide_eq_true (hkind.2 hblock)⟩)
      (List.mem_filter.2 ⟨hscope, decide_eq_true hblock⟩) hname
    rw [if_pos hblock, heq, Option.filter_some, if_pos (decide_eq_true hblock)]
  · rw [if_neg hblock, Option.filter_some, if_neg (by simpa using mt hkind.1 hblock)]

/-- A report shows every block of the table once and as itself. -/
theorem reported_blocks_perm : table.reportedBlocks.Perm table.blocks := by
  -- in the order of the table every block finds itself, and nothing else finds a block
  have hself : ((table.names.filter isBlockLike).filterMap table.named?).filter
      (·.kind = .block) = table.blocks := by
    rw [names, List.filter_map, List.filterMap_map, List.filterMap_filter, List.filter_filterMap,
      blocks, ← List.filterMap_eq_filter]
    refine List.filterMap_congr fun scope hscope => ?_
    have hfound := block_of_named hproper hnames hscope
    by_cases hkind : scope.kind = .block
    · have hlike := (hproper scope hscope).block_like hkind
      simpa [Function.comp_apply, hlike, hkind, Option.guard] using hfound
    · rw [if_neg hkind] at hfound
      by_cases hlike : isBlockLike scope.name = true
      · simpa [Function.comp_apply, hlike, hkind, Option.guard] using hfound
      · simp [Function.comp_apply, hlike, hkind, Option.guard]
  rw [reported_blocks_eq hproper]
  exact (((table.sorted_names_perm.filter _).filterMap _).filter _).trans (.of_eq hself)

/-- A report shows blocks in the order of their names. -/
theorem reported_blocks_sorted : table.reportedBlocks.Pairwise (·.name < ·.name) := by
  have hnodup : (table.reportedBlocks.map (·.name)).Nodup :=
    ((reported_blocks_perm hproper hnames).map _).nodup_iff.2 hnames
  have hsorted : table.reportedBlocks.Pairwise (·.name ≤ ·.name) := by
    rw [reported_blocks_eq hproper]
    refine ((table.sorted_names_sorted.filter _).filterMap _ ?_).filter _
    intro left right hle scope hscope other hother
    rwa [(mem_listed_of_named hscope).2, (mem_listed_of_named hother).2]
  rw [List.Nodup, List.pairwise_map] at hnodup
  exact hsorted.imp₂ (fun _ _ => lt_of_le_of_ne) hnodup

end Blocks

end SymbolTable

/-- No two blocks of a program have one name. -/
theorem nodup_blocks {tree : Tree} {table : SymbolTable} (h : analyze tree = .ok table) :
    (table.blocks.map (·.name)).Nodup := by
  have hconsistent :=
    (Builder.consistent_preserved.walk tree.events Builder.consistent_start).builder
  have htable : (Builder.start.walk tree.events).builder.table = table := by
    unfold analyze at h
    dsimp only at h
    split at h
    · exact Except.ok.inj h
    · cases h
  obtain ⟨numbers, hnumbers, -, hnames⟩ := hconsistent.exists_numbers
  rw [htable] at hnames
  rw [SymbolTable.blocks, hnames]
  exact List.Nodup.map block_name_injective (hnumbers.imp Nat.ne_of_lt)

/-- What the report on the table of a program with the outline shows, and in which order. -/
structure SymbolTable.ReportFits (table : SymbolTable) (outline : Outline) : Prop where
  /-- Scopes have their symbols in the order in which these are declared. -/
  listed : table.listed = outline.scopes
  /-- The sections of the text are those of the scopes reported, each with all its symbols. -/
  sections : readReport table.report =
    some (table.reported.map fun scope => (scope.name, scope.symbols))
  /-- The sections under the header of a block are those of blocks. -/
  header : ∀ scope ∈ table.reported,
    ((∃ number, scope.name = blockName number) ↔ scope.kind = .block)
  /-- Every block of the table is shown once, and nothing else is shown as a block. -/
  blocks : (table.reported.filter (·.kind = .block)).Perm (table.listed.filter (·.kind = .block))
  /-- Blocks are shown in the order of their names. -/
  sorted : (table.reported.filter (·.kind = .block)).Pairwise (·.name < ·.name)
  /-- The first function named `main` is shown behind all others. -/
  last : ∃ front, (∀ scope ∈ front, scope.name ≠ mainName) ∧
    table.reported = front ++ (table.listed.find? fun scope =>
      scope.kind = .function && scope.name = mainName).toList
  /-- It is shown exactly if there is one. -/
  main : (∃ scope ∈ table.reported, scope.name = mainName) ↔ mainName ∈ outline.functionNames

/-- The report on a program shows every block of its table once, as itself and with all its symbols
in the order of declaration. The blocks stand in the order of their names, and the first function
named `main`, if the program has one, stands behind everything else. -/
theorem report_lists_blocks {source : String} {table : SymbolTable}
    (h : (Parse.ofSource .program source).diagnostics = [])
    (htable : analyze (Parse.ofSource .program source).tree = .ok table) :
    table.ReportFits (Parse.ofSource .program source).tree.outline := by
  have hlisted := listed_of_analyze h htable
  have hproper := proper_of_listed h htable
  have hnames := nodup_blocks htable
  refine ⟨hlisted, SymbolTable.read_report hproper, fun scope hscope => ?_,
    SymbolTable.reported_blocks_perm hproper hnames,
    SymbolTable.reported_blocks_sorted hproper hnames, ?_, ?_⟩
  · exact (hproper scope (SymbolTable.mem_listed_of_reported hscope)).kind_eq_block_iff.symm
  · refine ⟨(table.sortedNames.filter isBlockLike).filterMap table.named?, fun scope hscope => ?_,
      by rw [← SymbolTable.named_main hproper, SymbolTable.reported]⟩
    obtain ⟨name, hname, hnamed⟩ := List.mem_filterMap.1 hscope
    rw [(SymbolTable.mem_listed_of_named hnamed).2]
    rintro rfl
    exact absurd (List.mem_filter.1 hname).2 (by decide)
  · rw [Outline.mem_function_names, ← hlisted]
    constructor
    · rintro ⟨scope, hscope, hname⟩
      have hmem := SymbolTable.mem_listed_of_reported hscope
      exact ⟨scope, hmem, (hproper scope hmem).kind_eq_function hname, hname⟩
    · rintro ⟨scope, hscope, -, hname⟩
      obtain ⟨found, hnamed⟩ : ∃ found, table.named? mainName = some found :=
        Option.isSome_iff_exists.1 (List.find?_isSome.2 ⟨scope, hscope, beq_iff_eq.2 hname⟩)
      have hfound := (SymbolTable.mem_listed_of_named hnamed).2
      exact ⟨found, SymbolTable.mem_reported_iff.2 ⟨hfound ▸ hnamed, .inr hfound⟩, hfound⟩

/-- Ten blocks, the second and the tenth with a declaration. -/
def tenBlocks : String :=
  "PROGRAM p BEGIN FUNCTION VOID main () BEGIN IF (x < x) INT a; ENDIF " ++
    String.join (List.replicate 7 "IF (x < x) ENDIF ") ++
      "WHILE (x > x) FLOAT b; ENDWHILE END END"

/-- Block 10 is shown before block 2. -/
theorem report_lists_ten_blocks :
    (Parse.ofSource .program tenBlocks).diagnostics = [] ∧
    ∃ table, analyze (Parse.ofSource .program tenBlocks).tree = .ok table ∧
      table.reported.map (·.name) = ["BLOCK 10", "BLOCK 2", "main"] ∧
      table.ReportFits (Parse.ofSource .program tenBlocks).tree.outline := by
  -- one evaluation for both facts, so that the text is parsed once
  obtain ⟨hclean, hshown⟩ : (Parse.ofSource .program tenBlocks).diagnostics = [] ∧
      (analyze (Parse.ofSource .program tenBlocks).tree).toOption.map (·.reported.map (·.name)) =
        some ["BLOCK 10", "BLOCK 2", "main"] := by
    decide +kernel
  obtain ⟨table, htable, hreported⟩ := Option.map_eq_some_iff.1 hshown
  have hok : analyze (Parse.ofSource .program tenBlocks).tree = .ok table := by
    revert htable
    cases analyze (Parse.ofSource .program tenBlocks).tree with
    | ok other => exact fun heq => congrArg Except.ok (Option.some.inj heq)
    | error => nofun
  exact ⟨hclean, table, hok, hreported, report_lists_blocks hclean hok⟩

end Little
