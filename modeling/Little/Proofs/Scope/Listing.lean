import Little.Proofs.Scope.Reading

/-!
# Which scopes a report shows

A report picks scopes by their names: those that begin as the names of blocks do, and `main`
(`SymbolTable.mem_reported_iff`). The global scope is never among them, but a function can be: one
whose name begins as the names of blocks do is shown like a block. `report_shows_iff` says that a
report shows nothing but blocks and `main` exactly if no function of the program has such a name.
-/

namespace Little

theorem mem_insert_name {name other : String} {names : List String} :
    name ∈ insertName other names ↔ name = other ∨ name ∈ names := by
  induction names with
  | nil => rw [insertName, List.mem_cons]
  | cons first names ih =>
      rw [insertName]
      split
      · rw [List.mem_cons]
      · rw [List.mem_cons, ih, List.mem_cons, or_left_comm]

namespace SymbolTable

variable {table : SymbolTable} {scope : Scope}

theorem mem_sorted_names {name : String} : name ∈ table.sortedNames ↔ name ∈ table.names := by
  unfold sortedNames
  generalize table.names = names
  induction names with
  | nil => exact Iff.rfl
  | cons first names ih => rw [List.foldr_cons, mem_insert_name, ih, List.mem_cons]

/-- A report shows the first scope of each name that is `main` or begins as the names of blocks
do. -/
theorem mem_reported_iff : scope ∈ table.reported ↔
    table.named? scope.name = some scope ∧ (isBlockLike scope.name ∨ scope.name = mainName) := by
  constructor
  · intro h
    rcases List.mem_append.1 h with h | h
    · obtain ⟨name, hname, hnamed⟩ := List.mem_filterMap.1 h
      obtain rfl := (mem_listed_of_named hnamed).2
      exact ⟨hnamed, .inl (List.mem_filter.1 hname).2⟩
    · have hnamed := Option.mem_toList.1 h
      have hname := (mem_listed_of_named hnamed).2
      exact ⟨hname.symm ▸ hnamed, .inr hname⟩
  · rintro ⟨hnamed, hlike | hmain⟩
    · have hname : scope.name ∈ table.names :=
        List.mem_map_of_mem (mem_listed_of_named hnamed).1
      exact List.mem_append_left _ (List.mem_filterMap.2
        ⟨scope.name, List.mem_filter.2 ⟨mem_sorted_names.2 hname, hlike⟩, hnamed⟩)
    · exact List.mem_append_right _ (Option.mem_toList.2 (hmain ▸ hnamed))

end SymbolTable

/-- Whether a report should show a scope: a block, or the function `main`. -/
def Scope.IsShown (scope : Scope) : Prop :=
  scope.kind = .block ∨ scope.kind = .function ∧ scope.name = mainName

/-- The name of a region that is a function. -/
def Region.functionName? : Region → Option String
  | .function ident _ => some ident.text
  | .statements | .block _ => none

namespace Outline

/-- The names of the functions of a program, in order. -/
def functionNames (outline : Outline) : List String :=
  outline.regions.filterMap Region.functionName?

/-- The functions of a program are those that its table has scopes for. -/
theorem mem_function_names {outline : Outline} {name : String} :
    name ∈ outline.functionNames ↔
      ∃ scope ∈ outline.scopes, scope.kind = .function ∧ scope.name = name := by
  constructor
  · intro h
    obtain ⟨region, hmem, hname⟩ := List.mem_filterMap.1 h
    obtain ⟨index, hindex⟩ := List.mem_iff_getElem?.1 hmem
    have hregion : (region, index) ∈ outline.regions.zipIdx :=
      List.mem_zipIdx_iff_getElem?.2 hindex
    cases region with
    | function ident items =>
        refine ⟨⟨ident.text, .function, items.map Item.symbol⟩, ?_, rfl, Option.some.inj hname⟩
        exact List.mem_cons_of_mem _ (List.mem_filterMap.2 ⟨_, hregion, rfl⟩)
    | statements | block => cases hname
  · rintro ⟨scope, hmem, hkind, rfl⟩
    rcases List.mem_cons.1 hmem with rfl | hmem
    · cases hkind
    · obtain ⟨⟨region, index⟩, hregion, hscope⟩ := List.mem_filterMap.1 hmem
      cases region with
      | function ident items =>
          obtain rfl := Option.some.inj hscope
          exact List.mem_filterMap.2 ⟨_, List.fst_mem_of_mem_zipIdx hregion, rfl⟩
      | statements => cases hscope
      | block items =>
          dsimp only [Region.scope?] at hscope
          split at hscope
          · cases hscope
          · obtain rfl := Option.some.inj hscope
            cases hkind

end Outline

/-- No block has the name of a function. -/
theorem block_name_ne {number : Nat} {name : String}
    (h : ∀ c ∈ name.toList, c.isAlphanum = true) : name ≠ blockName number := by
  rintro rfl
  have hspace : ' ' ∈ (blockName number).toList := by
    rw [blockName, String.toList_append, String.toList_append]
    exact List.mem_append_left _ (by decide)
  exact absurd (h ' ' hspace) (by decide)

/-- A report on a program never shows the global scope, and it shows nothing but blocks and `main`
exactly if no function has a name that begins as the names of blocks do. -/
theorem report_shows_iff {source : String} {table : SymbolTable}
    (h : (Parse.ofSource .program source).diagnostics = [])
    (htable : analyze (Parse.ofSource .program source).tree = .ok table) :
    (∀ scope ∈ table.reported, scope.kind ≠ .global) ∧
    ((∀ scope ∈ table.reported, scope.IsShown) ↔
      ∀ name ∈ (Parse.ofSource .program source).tree.outline.functionNames,
        isBlockLike name = false) := by
  have hproper := proper_of_listed h htable
  have hlisted := listed_of_analyze h htable
  have hglobal : ∀ scope ∈ table.reported, scope.kind ≠ .global := by
    intro scope hscope hkind
    have hname := (SymbolTable.mem_reported_iff.1 hscope).2
    rw [(hproper scope (SymbolTable.mem_listed_of_reported hscope)).global hkind] at hname
    exact absurd hname (by decide)
  refine ⟨hglobal, fun hshown name hname => ?_, fun hnames scope hscope => ?_⟩
  · -- the first scope of that name is a function, as blocks have other names
    obtain ⟨function, hmem, hkind, rfl⟩ := Outline.mem_function_names.1 hname
    rw [← hlisted] at hmem
    obtain ⟨scope, hnamed⟩ : ∃ scope, table.named? function.name = some scope :=
      Option.isSome_iff_exists.1 (List.find?_isSome.2 ⟨function, hmem, beq_self_eq_true _⟩)
    obtain ⟨hscope, heq⟩ := SymbolTable.mem_listed_of_named hnamed
    rw [← Bool.not_eq_true]
    intro hlike
    have hreported : scope ∈ table.reported :=
      SymbolTable.mem_reported_iff.2 ⟨heq.symm ▸ hnamed, .inl (heq.symm ▸ hlike)⟩
    rcases hshown scope hreported with hblock | ⟨-, hmain⟩
    · obtain ⟨number, hnumber⟩ := (hproper scope hscope).block hblock
      exact block_name_ne ((hproper function hmem).function hkind) (heq.symm.trans hnumber)
    · rw [← heq, hmain] at hlike
      exact absurd hlike (by decide)
  · have hmem := SymbolTable.mem_listed_of_reported hscope
    rcases (hproper scope hmem).kind with hkind | hkind | hkind
    · exact absurd hkind (hglobal scope hscope)
    · refine .inr ⟨hkind, (SymbolTable.mem_reported_iff.1 hscope).2.resolve_left fun hlike => ?_⟩
      rw [hlisted] at hmem
      rw [hnames _ (Outline.mem_function_names.2 ⟨scope, hmem, hkind, rfl⟩)] at hlike
      exact Bool.false_ne_true hlike
    · exact .inl hkind

/-- A program with a function `main` and another one. Only `main` is shown. -/
theorem report_shows_main :
    (Parse.ofSource .program ("PROGRAM p BEGIN FUNCTION VOID main (INT a) BEGIN END " ++
      "FUNCTION VOID f (INT b) BEGIN END END")).diagnostics = [] ∧
    ∃ table, analyze (Parse.ofSource .program
        ("PROGRAM p BEGIN FUNCTION VOID main (INT a) BEGIN END " ++
          "FUNCTION VOID f (INT b) BEGIN END END")).tree = .ok table ∧
      ∀ scope ∈ table.reported, scope.IsShown := by
  have hclean : (Parse.ofSource .program
      ("PROGRAM p BEGIN FUNCTION VOID main (INT a) BEGIN END " ++
        "FUNCTION VOID f (INT b) BEGIN END END")).diagnostics = [] := by
    decide +kernel
  have htable : analyze (Parse.ofSource .program
      ("PROGRAM p BEGIN FUNCTION VOID main (INT a) BEGIN END " ++
        "FUNCTION VOID f (INT b) BEGIN END END")).tree =
      .ok ⟨[⟨"GLOBAL", .global, []⟩, ⟨"main", .function, [⟨"a", "INT", none⟩]⟩,
        ⟨"BLOCK 1", .block, []⟩, ⟨"f", .function, [⟨"b", "INT", none⟩]⟩,
        ⟨"BLOCK 2", .block, []⟩], [0, 1, 3]⟩ := by
    decide +kernel
  exact ⟨hclean, _, htable, (report_shows_iff hclean htable).2.2 (by decide +kernel)⟩

/-- A function that is shown like a block. -/
theorem report_shows_other_function :
    (Parse.ofSource .program
      "PROGRAM p BEGIN FUNCTION VOID BLOCKX (INT a) BEGIN END END").diagnostics = [] ∧
    ∃ table, analyze (Parse.ofSource .program
        "PROGRAM p BEGIN FUNCTION VOID BLOCKX (INT a) BEGIN END END").tree = .ok table ∧
      table.report = "Symbol table BLOCKX\nname a type INT\n\n" ∧
      ∃ scope ∈ table.reported, ¬ scope.IsShown := by
  refine ⟨by decide +kernel, ⟨[⟨"GLOBAL", .global, []⟩,
    ⟨"BLOCKX", .function, [⟨"a", "INT", none⟩]⟩, ⟨"BLOCK 1", .block, []⟩], [0, 1]⟩,
    by decide +kernel, by decide +kernel, ⟨"BLOCKX", .function, [⟨"a", "INT", none⟩]⟩,
    by decide +kernel, ?_⟩
  rintro (hkind | ⟨-, hname⟩)
  · cases hkind
  · exact absurd hname (by decide)

end Little
