import Little.Proofs.Grammar.Nodes
import Little.Proofs.Lexing.Spelling
import Little.Proofs.Parsing.Parts
import Little.Proofs.Scope.Meaning

/-!
# What the scopes of a program look like

Names, types and values in a table are texts of tokens, so they are spelled as the lexical rules
ask: `Symbol.Proper` and `Scope.Proper` say how. `proper_of_listed` says it of every scope in the
table of a program without diagnostics.
-/

namespace Little

/-- A symbol as a declaration writes it. -/
structure Symbol.Proper (symbol : Symbol) : Prop where
  name : ∀ c ∈ symbol.name.toList, c.isAlphanum = true
  /-- Only strings have a value, which is quoted. -/
  form : (symbol.type = "INT" ∨ symbol.type = "FLOAT") ∧ symbol.value = none ∨
    symbol.type = "STRING" ∧
      ∃ body, '"' ∉ body ∧ symbol.value = some (String.ofList ('"' :: body ++ ['"']))

/-- A scope as a program opens it: the global one, a function or a block. -/
structure Scope.Proper (scope : Scope) : Prop where
  kind : scope.kind = .global ∨ scope.kind = .function ∨ scope.kind = .block
  global : scope.kind = .global → scope.name = globalName
  function : scope.kind = .function → ∀ c ∈ scope.name.toList, c.isAlphanum = true
  block : scope.kind = .block → ∃ number, scope.name = blockName number
  symbols : ∀ symbol ∈ scope.symbols, symbol.Proper

namespace Tree

/-- Every token at a leaf, but for the mark at the end, is spelled as its kind asks. -/
def IsSpelled (tree : Tree) : Prop :=
  ∀ token, .leaf token ∈ tree.leaves → token.kind ≠ .eof → token.Spelled

section Spelled

variable {tree : Tree} {trees : List Tree} {name : Rule}

theorem leaves_subset (h : tree ∈ trees) : tree.leaves ⊆ leavesAll trees := by
  induction trees with
  | nil => exact absurd h List.not_mem_nil
  | cons other trees ih =>
      rw [leavesAll]
      rcases List.mem_cons.1 h with rfl | h
      · exact List.subset_append_left _ _
      · exact List.subset_append_of_subset_right _ (ih h)

theorem IsSpelled.child {start : Token} {stop : Option Token}
    (h : (Tree.node name start stop trees).IsSpelled) (hmem : tree ∈ trees) : tree.IsSpelled :=
  fun token hleaf => h token (leaves_subset hmem hleaf)

/-- A rule that stands for a single token is a node over a token as the rule asks. -/
theorem IsTreeOf.exists_spelled (h : tree.IsTreeOf name) (hspelled : tree.IsSpelled)
    (hname : name = .ident ∨ name = .varType ∨ name = .stringValue) :
    ∃ start stop token, tree = .node name start stop [.leaf token] ∧
      token.kind ∈ name.body.terminals ∧ token.Spelled := by
  obtain ⟨start, stop, children, rfl, hbody⟩ := is_tree_of_iff.1 h
  obtain ⟨token, rfl, hkind⟩ : ∃ token, children = [.leaf token] ∧
      token.kind ∈ name.body.terminals := by
    rcases hname with rfl | rfl | rfl
    · obtain ⟨token, hkind, hchildren⟩ := spells_token_iff.1 hbody
      exact ⟨token, hchildren, List.mem_singleton.2 hkind⟩
    · obtain ⟨token, hkind, hchildren⟩ := spells_one_of_iff.1 hbody
      exact ⟨token, hchildren, hkind⟩
    · obtain ⟨token, hkind, hchildren⟩ := spells_token_iff.1 hbody
      exact ⟨token, hchildren, List.mem_singleton.2 hkind⟩
  refine ⟨start, stop, token, rfl, hkind, hspelled token (List.mem_singleton_self _) fun heof => ?_⟩
  rw [heof] at hkind
  rcases hname with rfl | rfl | rfl <;> exact absurd hkind (by decide)

/-- The token of an identifier is made of letters and digits. -/
theorem IsTreeOf.identifier_proper (h : tree.IsTreeOf .ident) (hspelled : tree.IsSpelled)
    {token : Token} (htoken : tree.identifier? = some token) :
    ∀ c ∈ token.text.toList, c.isAlphanum = true := by
  obtain ⟨start, stop, other, rfl, hkind, hother⟩ := h.exists_spelled hspelled (.inl rfl)
  obtain rfl : other = token := Option.some.inj htoken
  exact hother.identifier (List.mem_singleton.1 hkind)

/-- The type of variables and parameters is one of two. -/
theorem IsTreeOf.exists_type (h : tree.IsTreeOf .varType) (hspelled : tree.IsSpelled) :
    ∃ start stop token, tree = .node .varType start stop [.leaf token] ∧
      (token.text = "INT" ∨ token.text = "FLOAT") := by
  obtain ⟨start, stop, token, rfl, hkind, htoken⟩ := h.exists_spelled hspelled (.inr (.inl rfl))
  refine ⟨start, stop, token, rfl, ?_⟩
  have hkinds : token.kind = .kwFloat ∨ token.kind = .kwInt := by
    simpa [Rule.body, Phrase.terminals] using hkind
  rcases hkinds with hkind | hkind
  · exact .inr (htoken.text_eq (by rw [hkind]; rfl))
  · exact .inl (htoken.text_eq (by rw [hkind]; rfl))

/-- What single declarations and parameters declare is as it should be. -/
theorem IsTreeOf.own_items_proper (h : tree.IsTreeOf name) (hspelled : tree.IsSpelled)
    (hname : name = .varDecl ∨ name = .stringDecl ∨ name = .param) :
    ∀ item ∈ tree.ownItems, item.symbol.Proper := by
  obtain ⟨start, stop, children, rfl, hbody⟩ := is_tree_of_iff.1 h
  rcases hname with rfl | rfl | rfl
  · obtain ⟨type, _, rfl, htype, hbody⟩ := spells_rule_seq_iff.1 hbody
    obtain ⟨list, _, rfl, hlist, hbody⟩ := spells_rule_seq_iff.1 hbody
    obtain ⟨semicolon, -, rfl⟩ := spells_token_iff.1 hbody
    obtain ⟨_, _, keyword, rfl, hkeyword⟩ := htype.exists_type (hspelled.child List.mem_cons_self)
    obtain ⟨_, _, idents, rfl, hidents⟩ := is_tree_of_iff.1 hlist
    have hlist := hspelled.child (List.mem_cons_of_mem _ List.mem_cons_self)
    have hparts : PartsOf (· = .ident) idents := hidents.parts_of (by decide)
    intro item hitem
    obtain ⟨ident, hmem, hmap⟩ := List.mem_filterMap.1 hitem
    obtain ⟨token, htoken, rfl⟩ := Option.map_eq_some_iff.1 hmap
    rcases hparts.leaf_or_tree_of ident hmem with ⟨leaf, rfl⟩ | hident
    · cases htoken
    · exact ⟨hident.identifier_proper (hlist.child hmem) htoken, .inl ⟨hkeyword, rfl⟩⟩
  · obtain ⟨keyword, _, rfl, -, hbody⟩ := spells_token_seq_iff.1 hbody
    obtain ⟨ident, _, rfl, hident, hbody⟩ := spells_rule_seq_iff.1 hbody
    obtain ⟨assign, _, rfl, -, hbody⟩ := spells_token_seq_iff.1 hbody
    obtain ⟨value, _, rfl, hvalue, hbody⟩ := spells_rule_seq_iff.1 hbody
    obtain ⟨semicolon, -, rfl⟩ := spells_token_iff.1 hbody
    obtain ⟨_, _, literal, rfl, hkind, hliteral⟩ :=
      hvalue.exists_spelled (hspelled.child (by simp)) (.inr (.inr rfl))
    obtain ⟨body, hbody, htext⟩ := hliteral.string_literal (List.mem_singleton.1 hkind)
    intro item hitem
    obtain ⟨token, htoken, rfl⟩ := Option.map_eq_some_iff.1 (Option.mem_toList.1 hitem)
    refine ⟨hident.identifier_proper (hspelled.child (by simp)) htoken, .inr ⟨rfl, body, hbody, ?_⟩⟩
    rw [← htext, String.ofList_toList]
    rfl
  · obtain ⟨type, _, rfl, htype, hbody⟩ := spells_rule_seq_iff.1 hbody
    obtain ⟨ident, rfl, hident⟩ := spells_rule_iff.1 hbody
    obtain ⟨_, _, keyword, rfl, hkeyword⟩ := htype.exists_type (hspelled.child List.mem_cons_self)
    intro item hitem
    obtain ⟨token, htoken, rfl⟩ := Option.map_eq_some_iff.1 (Option.mem_toList.1 hitem)
    exact ⟨hident.identifier_proper (hspelled.child (by simp)) htoken, .inl ⟨hkeyword, rfl⟩⟩

/-- What declarations and parameters declare is as it should be. -/
theorem IsTreeOf.items_proper (h : tree.IsTreeOf name) (hspelled : tree.IsSpelled)
    (hname : name = .declarations ∨ name = .paramList) :
    ∀ item ∈ tree.items, item.symbol.Proper := by
  obtain ⟨start, stop, children, rfl, hbody⟩ := is_tree_of_iff.1 h
  have hparts : PartsOf (fun part => part = .varDecl || part = .stringDecl || part = .param)
      children := by
    rcases hname with rfl | rfl <;> exact hbody.parts_of (by decide)
  intro item hitem
  obtain ⟨part, hmem, hown⟩ := List.mem_flatMap.1 hitem
  rcases hparts part hmem with ⟨token, rfl⟩ | ⟨rule, hrule, hpart⟩
  · cases hown
  · exact hpart.own_items_proper (hspelled.child hmem) (by simpa [or_assoc] using hrule) item hown

end Spelled

end Tree

/-- A region whose function is named by letters and digits and whose declarations are as they should
be. -/
structure Region.Proper (region : Region) : Prop where
  name : ∀ ident items, region = .function ident items →
    ∀ c ∈ ident.text.toList, c.isAlphanum = true
  items : ∀ item ∈ region.items, item.symbol.Proper

/-- The region of a node is as it should be. -/
theorem Tree.IsTreeOf.region_proper {tree : Tree} {name : Rule} {region : Region}
    (h : tree.IsTreeOf name) (hspelled : tree.IsSpelled) (hregion : tree.region? = some region) :
    region.Proper := by
  by_cases hcontrol : name.isControl = true
  · obtain ⟨start, stop, children, rfl, hbody⟩ := is_tree_of_iff.1 h
    obtain ⟨front, declarations, back, rfl, -, hdeclarations, -, hblock⟩ :=
      Spells.control_parts hcontrol hbody
    obtain rfl := Option.some.inj ((hblock start stop).symm.trans hregion)
    refine ⟨nofun, hdeclarations.items_proper (hspelled.child (by simp)) (.inl rfl)⟩
  · cases name with
    | function =>
        obtain ⟨parts, rfl⟩ := FunctionParts.exists_of_tree h
        obtain ⟨_, _, token, hident⟩ := parts.hident.exists_leaf (.inl rfl)
        have htoken : parts.ident.identifier? = some token := congrArg identifier? hident
        have hfunction : parts.tree.region? = some (.function token parts.items) :=
          congrArg (Option.map fun token => Region.function token parts.items) htoken
        obtain rfl := Option.some.inj (hfunction.symm.trans hregion)
        have hbody : parts.body.tree.IsSpelled := hspelled.child (by simp)
        constructor
        · rintro _ _ ⟨⟩
          exact parts.hident.identifier_proper (hspelled.child (by simp)) htoken
        · intro item hitem
          rcases List.mem_append.1 hitem with hitem | hitem
          · exact parts.hparams.items_proper (hspelled.child (by simp)) (.inr rfl) item hitem
          · exact parts.body.hdeclarations.items_proper (hbody.child List.mem_cons_self) (.inl rfl)
              item hitem
    | functionBody =>
        obtain ⟨_, _, _, rfl, -⟩ := is_tree_of_iff.1 h
        obtain rfl : Region.statements = region := Option.some.inj hregion
        exact ⟨nofun, fun _ hmem => absurd hmem List.not_mem_nil⟩
    | ifStatement | elseBranch | whileStatement => exact absurd rfl hcontrol
    | _ =>
        obtain ⟨_, _, _, rfl, -⟩ := is_tree_of_iff.1 h
        cases hregion

/-- What an outline lists is as it should be if its globals and regions are. -/
theorem Outline.proper_of_scopes {outline : Outline}
    (hglobals : ∀ item ∈ outline.globals, item.symbol.Proper)
    (hregions : ∀ region ∈ outline.regions, region.Proper) :
    ∀ scope ∈ outline.scopes, scope.Proper := by
  have hitems {items : List Item} (h : ∀ item ∈ items, item.symbol.Proper) :
      ∀ symbol ∈ items.map Item.symbol, symbol.Proper := by
    simpa using h
  refine List.forall_mem_cons.2 ⟨⟨.inl rfl, fun _ => rfl, nofun, nofun, hitems hglobals⟩,
    fun scope hscope => ?_⟩
  obtain ⟨⟨region, index⟩, hmem, heq⟩ := List.mem_filterMap.1 hscope
  have hregion := hregions region (List.fst_mem_of_mem_zipIdx hmem)
  cases region with
  | function ident items =>
      obtain rfl := Option.some.inj heq
      exact ⟨.inr (.inl rfl), nofun, fun _ => hregion.name ident items rfl, nofun,
        hitems hregion.items⟩
  | statements => cases heq
  | block items =>
      dsimp only [Region.scope?] at heq
      split at heq
      · cases heq
      · obtain rfl := Option.some.inj heq
        exact ⟨.inr (.inr rfl), nofun, nofun, fun _ => ⟨_, rfl⟩, hitems hregion.items⟩

section Sources

variable {source : String} {table : SymbolTable}

/-- The table of a program has the scopes of its outline. -/
theorem listed_of_analyze (h : (Parse.ofSource .program source).diagnostics = [])
    (htable : analyze (Parse.ofSource .program source).tree = .ok table) :
    table.listed = (Parse.ofSource .program source).tree.outline.scopes := by
  obtain ⟨parts, hparts⟩ := exists_program_parts h
  rw [hparts] at htable ⊢
  obtain ⟨hok, herror⟩ := parts.analyze_eq
  cases hclash : parts.tree.outline.firstClash with
  | none =>
      obtain ⟨other, hother, hlisted⟩ := hok hclash
      cases hother.symm.trans htable
      exact hlisted
  | some item => cases (herror item hclash).symm.trans htable

/-- Every scope in the table of a program is as it should be. -/
theorem proper_of_listed (h : (Parse.ofSource .program source).diagnostics = [])
    (htable : analyze (Parse.ofSource .program source).tree = .ok table) :
    ∀ scope ∈ table.listed, scope.Proper := by
  rw [listed_of_analyze h htable]
  have hderives := (program_derives h).2
  have hspelled : ∀ tokens, tokens ⊆ (Lexing.ofSource source).tokens ++
      [(Lexing.ofSource source).eof] → ∀ (tree : Tree) (name : Rule),
        tree.IsDerivation name tokens → tree.IsSpelled := by
    intro tokens hsubset tree name htree token hleaf heof
    rw [htree.leaves_eq, List.mem_map] at hleaf
    obtain ⟨_, hmem, ⟨⟩⟩ := hleaf
    rcases List.mem_append.1 (hsubset hmem) with htoken | htoken
    · exact Lexing.spelled_of_mem token htoken
    · rw [List.mem_singleton.1 htoken] at heof
      exact absurd (Lexing.kind_eof_of_source source) heof
  refine Outline.proper_of_scopes ?_ fun region hregion => ?_
  · obtain ⟨parts, hparts⟩ := exists_program_parts h
    have hroot := hspelled _ (List.Subset.refl _) _ _ hderives
    rw [hparts] at hroot ⊢
    have hbody : parts.body.IsSpelled := hroot.child (by simp)
    exact parts.hdeclarations.items_proper (hbody.child List.mem_cons_self) (.inl rfl)
  · obtain ⟨node, hmem, hnode⟩ := List.mem_filterMap.1 hregion
    obtain ⟨name, hname⟩ : ∃ name, node.tree.rule? = some name := by
      cases htree : node.tree with
      | node name => exact ⟨name, rfl⟩
      | leaf | skipped | missing =>
          rw [htree] at hnode
          cases hnode
    rw [← Tree.occurrences_all_singleton] at hmem
    obtain ⟨part, hpart, hderives⟩ := hderives.of_node hmem hname
    exact hderives.is_tree_of.region_proper (hspelled part hpart _ _ hderives) hnode

end Sources

end Little
