import Little.Proofs.Parsing.Exact
import Little.Proofs.Scope.Order

/-!
# What the scope pass makes of a program

`analyze_eq_outline` gives the table of a program without diagnostics that declares no name twice in
one body: it is the closed form `Outline.scopes`, read off the derivation tree. `analyze_halts_iff`
says when the pass halts instead and at which name. The two come from one walk through the program
(`ProgramParts.analyze_eq`).
-/

namespace Little

namespace Region

/-- The scope that a region should have is the one it opens, if that stays. -/
theorem scope_eq (number : Nat) (region : Region) :
    region.scope? number =
      if ((region.opened number).declaring region.items).stays then
        some ((region.opened number).declaring region.items)
      else none := by
  cases region with
  | function => rfl
  | statements => rfl
  | block items => cases items <;> rfl

/-- The number of a region is that of the numbered regions up to it. -/
theorem opened_count (before : List Region) (region : Region) :
    region.opened (before.countP isNumbered + 1) =
      region.opened ((before ++ [region]).countP isNumbered) := by
  cases region with
  | function => rfl
  | statements | block => rw [List.countP_append]; rfl

theorem next_count (before : List Region) (region : Region) :
    region.next (before.countP isNumbered + 1) =
      (before ++ [region]).countP isNumbered + 1 := by
  cases region with
  | function => rw [List.countP_append]; rfl
  | statements | block => rw [List.countP_append]; rfl

/-- The scopes that stay are those that the regions should have. -/
theorem filter_scopes_from (before regions : List Region) :
    (scopesFrom (before.countP isNumbered + 1) regions).filter Scope.stays =
      (regions.zipIdx before.length).filterMap fun (region, index) =>
        region.scope? (((before ++ regions).take (index + 1)).countP isNumbered) := by
  induction regions generalizing before with
  | nil => rfl
  | cons region regions ih =>
      -- the regions before count towards the number, so they grow along with the induction
      have hih := ih (before ++ [region])
      have htake : (before ++ region :: regions).take (before.length + 1) = before ++ [region] := by
        rw [List.append_cons]
        exact List.take_left' (by simp)
      rw [List.length_append, List.length_singleton, ← List.append_cons] at hih
      rw [scopesFrom, List.filter_cons, List.zipIdx_cons, List.filterMap_cons]
      dsimp only
      rw [htake, scope_eq, opened_count, next_count, hih]
      split <;> rfl

end Region

namespace Builder

/-- The builder that has declared globals and nothing else. -/
theorem exists_of_declare_globals (items : List Item) :
    (firstRepeat [] items = none → ∃ notices,
      start.declareAll (items.map (some ·.declaration)) =
        .done { start with
          table := ⟨[⟨globalName, .global, items.map Item.symbol⟩], [0]⟩
          notices := notices }) ∧
    ∀ item, firstRepeat [] items = some item → ∃ next,
      start.declareAll (items.map (some ·.declaration)) = ⟨next, some item.halt⟩ :=
  @declare_all_last start [] ⟨globalName, .global, []⟩ rfl rfl items

/-- What is listed in the end is the global scope and what the regions should have. -/
theorem Extends.listed_eq {builder next : Builder} {globals : Scope} {regions : List Region}
    (h : builder.Extends next regions) (htable : builder.table = ⟨[globals], [0]⟩)
    (hnumber : builder.nextBlock = 1) :
    next.table.listed = globals :: regions.zipIdx.filterMap fun (region, index) =>
      region.scope? ((regions.take (index + 1)).countP Region.isNumbered) := by
  have hscopes := Region.filter_scopes_from [] regions
  have hstaying := filter_map_staying [globals] (Region.scopesFrom 1 regions)
  have hnext := h.scopes
  have horder := h.order
  rw [htable, hnumber] at hnext horder
  unfold SymbolTable.listed SymbolTable.scope?
  rw [horder, hnext, List.filterMap_append]
  exact congrArg (globals :: ·) (hstaying.trans hscopes)

end Builder

/-- The scope pass gives a program the scopes of its outline, or halts at its first clash. -/
theorem ProgramParts.analyze_eq (parts : ProgramParts) :
    (parts.tree.outline.firstClash = none →
      ∃ table, analyze parts.tree = .ok table ∧ table.listed = parts.tree.outline.scopes) ∧
    ∀ item, parts.tree.outline.firstClash = some item →
      analyze parts.tree = .error item.halt := by
  obtain ⟨hnone, hsome⟩ := Builder.exists_of_declare_globals parts.tree.globals
  have hclash := parts.tree.outline.first_clash_eq
  change _ = (firstRepeat [] parts.tree.globals).or (Region.clash parts.tree.regions) at hclash
  unfold analyze
  rw [parts.walk_eq, hclash, parts.regions_eq]
  cases hrepeat : firstRepeat [] parts.tree.globals with
  | some item =>
      obtain ⟨next, hnext⟩ := hsome item hrepeat
      rw [hnext, Option.some_or]
      refine ⟨fun h => absurd h (Option.some_ne_none item), fun found hfound => ?_⟩
      rw [← Option.some.inj hfound]
      rfl
  | none =>
      -- the regions are walked through from a table that holds the globals only
      obtain ⟨notices, hnext⟩ := hnone hrepeat
      let declared : Builder := { Builder.start with
        table := ⟨[⟨globalName, .global, parts.tree.globals.map Item.symbol⟩], [0]⟩
        notices := notices }
      have hlisted : declared.Listed := by
        simp [Builder.Listed, declared]
      have hmeets := parts.hfunctions.walks_functions
        (show [Rule.programBody, .program].any Rule.isControl = false from rfl) declared hlisted
      rw [hnext, Option.none_or, Outcome.done_and_then]
      generalize declared.walk (parts.functions.walk [.programBody, .program]) = outcome
        at hmeets ⊢
      cases hmeets with
      | @done last hclear hextends =>
          refine ⟨fun _ => ⟨last.table, rfl, ?_⟩, fun item hitem => ?_⟩
          · rw [hextends.listed_eq rfl rfl, ← parts.regions_eq]
            rfl
          · exact absurd (hclear.symm.trans hitem) (Option.some_ne_none item).symm
      | halted next hfound =>
          refine ⟨fun hclear => ?_, fun item hitem => ?_⟩
          · exact absurd (hfound.symm.trans hclear) (Option.some_ne_none _)
          · rw [← Option.some.inj (hfound.symm.trans hitem)]

section Sources

variable {source : String}

/-- A text without diagnostics has the tree of a program. -/
theorem exists_program_parts (h : (Parse.ofSource .program source).diagnostics = []) :
    ∃ parts : ProgramParts, (Parse.ofSource .program source).tree = parts.tree :=
  ProgramParts.exists_of_tree (program_derives h).2.is_tree_of

/-- What the outline of a text names stands in the text in this order. -/
theorem outline_idents_sublist (h : (Parse.ofSource .program source).diagnostics = []) :
    (Parse.ofSource .program source).tree.outline.idents.Sublist
      ((Lexing.ofSource source).tokens ++ [(Lexing.ofSource source).eof]) := by
  have hleaves := (program_derives h).2.leaves_eq
  obtain ⟨parts, hparts⟩ := exists_program_parts h
  have hstand := parts.in_order
  rw [← hparts] at hstand
  unfold StandIn at hstand
  rw [Tree.leavesAll, Tree.leavesAll, List.append_nil, hleaves] at hstand
  simpa [List.filterMap_map, Function.comp_def, Tree.token?] using hstand.filterMap Tree.token?

end Sources

/-- Without diagnostics and without a name declared twice in one body, the scope pass succeeds, and
the scopes in its table are those of the outline of the program: the global one, and in source order
one for each function and for each block with declarations, under the number of the block. -/
theorem analyze_eq_outline (source : String)
    (hparse : (Parse.ofSource .program source).diagnostics = [])
    (hnames : ∀ body ∈ (Parse.ofSource .program source).tree.outline.bodies,
      (body.map Item.name).Nodup) :
    (∃ table, analyze (Parse.ofSource .program source).tree = .ok table ∧
      table.listed = (Parse.ofSource .program source).tree.outline.scopes) ∧
    (Parse.ofSource .program source).tree.outline.idents.Sublist
      ((Lexing.ofSource source).tokens ++ [(Lexing.ofSource source).eof]) := by
  refine ⟨?_, outline_idents_sublist hparse⟩
  have hclear := Outline.first_clash_eq_none_iff.2 hnames
  obtain ⟨parts, hparts⟩ := exists_program_parts hparse
  rw [hparts] at hclear ⊢
  exact parts.analyze_eq.1 hclear

/-- One name in four scopes. The statements of the function are number 1 and the `ELSE` is
number 3. -/
theorem analyze_nested_blocks : ∃ table,
    analyze (Parse.ofSource .program ("PROGRAM p BEGIN INT a; FUNCTION VOID f (INT x) BEGIN " ++
      "IF (x < a) INT a; ELSE WHILE (x > a) STRING a := \"u\"; ENDWHILE ENDIF END END")).tree =
        .ok table ∧
    table.listed = [⟨"GLOBAL", .global, [⟨"a", "INT", none⟩]⟩,
      ⟨"f", .function, [⟨"x", "INT", none⟩]⟩, ⟨"BLOCK 2", .block, [⟨"a", "INT", none⟩]⟩,
      ⟨"BLOCK 4", .block, [⟨"a", "STRING", some "\"u\""⟩]⟩] := by
  obtain ⟨⟨table, htable, hlisted⟩, -⟩ := analyze_eq_outline
    ("PROGRAM p BEGIN INT a; FUNCTION VOID f (INT x) BEGIN " ++
      "IF (x < a) INT a; ELSE WHILE (x > a) STRING a := \"u\"; ENDWHILE ENDIF END END")
    (by decide +kernel) (by decide +kernel)
  exact ⟨table, htable, hlisted.trans (by decide +kernel)⟩

/-- Without diagnostics the scope pass halts exactly if one body declares a name twice. It halts at
the first declared identifier in source order whose name was declared before in the same body, and
for no other reason. -/
theorem analyze_halts_iff (source : String)
    (hparse : (Parse.ofSource .program source).diagnostics = []) :
    ((∃ name place, analyze (Parse.ofSource .program source).tree =
        .error (.semantic (.duplicate name place))) ↔
      ∃ body ∈ (Parse.ofSource .program source).tree.outline.bodies,
        ¬(body.map Item.name).Nodup) ∧
    (∀ halt, analyze (Parse.ofSource .program source).tree = .error halt →
      ∃ front index item back,
        (Parse.ofSource .program source).tree.outline.declared =
          front ++ (index, item) :: back ∧
        (index, item.name) ∈ front.map Outline.key ∧ (front.map Outline.key).Nodup ∧
        halt = .semantic (.duplicate item.name item.place) ∧
        (SemanticError.duplicate item.name item.place).message =
          "DECLARATION ERROR " ++ item.name) ∧
    ((Parse.ofSource .program source).tree.outline.declared.map (·.2.ident)).Sublist
      ((Lexing.ofSource source).tokens ++ [(Lexing.ofSource source).eof]) := by
  obtain ⟨parts, hparts⟩ := exists_program_parts hparse
  have horder := (Outline.declared_sublist _).trans (outline_idents_sublist hparse)
  rw [hparts] at horder ⊢
  obtain ⟨hok, herror⟩ := parts.analyze_eq
  cases hclash : parts.tree.outline.firstClash with
  | none =>
      obtain ⟨table, htable, -⟩ := hok hclash
      have hnodup := Outline.first_clash_eq_none_iff.1 hclash
      rw [htable]
      refine ⟨⟨nofun, ?_⟩, nofun, horder⟩
      rintro ⟨body, hbody, hclashes⟩
      exact absurd (hnodup body hbody) hclashes
  | some item =>
      obtain ⟨front, index, back, hdeclared, hrepeats, hfirst⟩ :=
        Outline.exists_of_first_clash hclash
      rw [herror item hclash]
      refine ⟨⟨fun _ => ?_, fun _ => ⟨_, _, rfl⟩⟩, ?_, horder⟩
      · by_contra hnone
        push Not at hnone
        rw [Outline.first_clash_eq_none_iff.2 hnone] at hclash
        exact Option.some_ne_none item hclash.symm
      · rintro _ ⟨⟩
        exact ⟨front, index, item, back, hdeclared, hrepeats, hfirst, rfl, rfl⟩

/-- A parameter and a variable of the same function have one name, whatever their types. -/
theorem analyze_halts_at_parameter : ∃ name place,
    analyze (Parse.ofSource .program
      "PROGRAM p BEGIN FUNCTION VOID f (INT x) BEGIN FLOAT y, x; END END").tree =
        .error (.semantic (.duplicate name place)) :=
  (analyze_halts_iff "PROGRAM p BEGIN FUNCTION VOID f (INT x) BEGIN FLOAT y, x; END END"
    (by decide +kernel)).1.2 (by decide +kernel)

end Little
