import Little.Proofs.Lexing.Places
import Little.Proofs.Parsing.Starts
import Little.Proofs.Scope.Meaning
import Little.Proofs.Scope.Safety

/-!
# Which place is named where a name is taken

The place of an item is where the node begins that its name is declared with
(`Tree.exists_ident_of_own_item`), and a node begins at its first leaf (`Tree.location_of_leaves`).
For variables and strings this node is the identifier. For a parameter it is the whole parameter,
which begins with its type. `place_of_duplicate` says what follows for the first name that is
declared twice in a body of a program: the place of a repeated parameter is not that of its
identifier.
-/

namespace Little

namespace Tree

mutual

/-- What stands right below a part of a tree is part of the tree. -/
theorem exists_of_child {above : List Rule} {tree child : Tree} {node : Occurrence}
    (hmem : node ∈ tree.occurrences above)
    (hchild : child ∈ node.tree.children) :
    ∃ other ∈ tree.occurrences above, other.tree = child := by
  cases tree with
  | node rule start stop children =>
      rw [occurrences, List.mem_cons] at hmem
      rcases hmem with rfl | hmem
      · exact ⟨_, List.mem_cons_of_mem _ (mem_occurrences_all (rule :: above) hchild), rfl⟩
      · obtain ⟨other, hother, heq⟩ := exists_of_child_all hmem hchild
        exact ⟨other, List.mem_cons_of_mem _ hother, heq⟩
  | leaf | skipped | missing =>
      obtain rfl := List.mem_singleton.1 hmem
      exact absurd hchild List.not_mem_nil

theorem exists_of_child_all {above : List Rule} {trees : List Tree} {child : Tree}
    {node : Occurrence} (hmem : node ∈ occurrencesAll above trees)
    (hchild : child ∈ node.tree.children) :
    ∃ other ∈ occurrencesAll above trees, other.tree = child := by
  cases trees with
  | nil => exact absurd hmem List.not_mem_nil
  | cons tree trees =>
      rw [occurrencesAll, List.mem_append] at hmem
      rcases hmem with hmem | hmem
      · obtain ⟨other, hother, heq⟩ := exists_of_child hmem hchild
        exact ⟨other, List.mem_append_left _ hother, heq⟩
      · obtain ⟨other, hother, heq⟩ := exists_of_child_all hmem hchild
        exact ⟨other, List.mem_append_right _ hother, heq⟩

end

mutual

/-- The leaves of a part stand together among those of the tree. -/
theorem leaves_inside {above : List Rule} {tree : Tree} {node : Occurrence}
    (hmem : node ∈ tree.occurrences above) : node.tree.leaves <:+: tree.leaves := by
  cases tree with
  | node rule start stop children =>
      rw [occurrences, List.mem_cons] at hmem
      rcases hmem with rfl | hmem
      · exact List.infix_rfl
      · rw [leaves]
        exact leaves_inside_all hmem
  | leaf | skipped | missing =>
      obtain rfl := List.mem_singleton.1 hmem
      exact List.infix_rfl

theorem leaves_inside_all {above : List Rule} {trees : List Tree} {node : Occurrence}
    (hmem : node ∈ occurrencesAll above trees) : node.tree.leaves <:+: leavesAll trees := by
  cases trees with
  | nil => exact absurd hmem List.not_mem_nil
  | cons tree trees =>
      rw [occurrencesAll, List.mem_append] at hmem
      rw [leavesAll]
      rcases hmem with hmem | hmem
      · exact (leaves_inside hmem).trans (List.prefix_append _ _).isInfix
      · exact (leaves_inside_all hmem).trans (List.suffix_append _ _).isInfix

end

variable {tree : Tree} {node : Occurrence}

/-- The items of a region stand in a list below its node. -/
theorem exists_list_of_region {region : Region} {item : Item} (h : tree.region? = some region)
    (hitem : item ∈ region.items) :
    ∃ list, item ∈ list.items ∧
      (list ∈ tree.children ∨ ∃ body ∈ tree.children, list ∈ body.children) := by
  unfold region? at h
  split at h
  · obtain ⟨token, -, rfl⟩ := Option.map_eq_some_iff.1 h
    rcases List.mem_append.1 hitem with hitem | hitem
    · exact ⟨_, hitem, .inl (by simp [children])⟩
    · have hbody (before : List Tree) {body closing : Tree} : body ∈ before ++ [body, closing] := by
        simp
      exact ⟨_, hitem, .inr ⟨_, hbody [_, _, _, _, _, _, _], List.mem_cons_self⟩⟩
  · cases h
    exact absurd hitem List.not_mem_nil
  · cases h
    exact ⟨_, hitem, .inl (by simp [children])⟩
  · cases h
    exact ⟨_, hitem, .inl (by simp [children])⟩
  · cases h
    exact ⟨_, hitem, .inl (by simp [children])⟩
  · cases h

theorem exists_list_of_globals {item : Item} (h : item ∈ tree.globals) :
    ∃ list, item ∈ list.items ∧ ∃ body ∈ tree.children, list ∈ body.children := by
  unfold globals at h
  split at h
  · have hbody (before : List Tree) {body closing eof : Tree} :
        body ∈ before ++ [body, closing, eof] := by
      simp
    exact ⟨_, h, _, hbody [_, _, _], List.mem_cons_self⟩
  · exact absurd h List.not_mem_nil

/-- What a tree declares is declared by one of its parts. -/
theorem exists_declaring {entry : Nat × Item} (h : entry ∈ tree.outline.declared) :
    ∃ node ∈ tree.occurrences [], entry.2 ∈ node.tree.ownItems := by
  have hself : ∃ node ∈ tree.occurrences [], node.tree = tree := by
    cases tree with
    | node => exact ⟨_, List.mem_cons_self, rfl⟩
    | leaf | skipped | missing => exact ⟨_, List.mem_singleton_self _, rfl⟩
  have hlist : ∃ list, entry.2 ∈ list.items ∧ ∃ node ∈ tree.occurrences [], node.tree = list := by
    have hbody : ∃ body ∈ tree.outline.bodies, entry.2 ∈ body := by
      obtain ⟨⟨body, index⟩, hbody, hentry⟩ := List.mem_flatMap.1 h
      obtain ⟨item, hitem, rfl⟩ := List.mem_map.1 hentry
      exact ⟨body, List.fst_mem_of_mem_zipIdx hbody, hitem⟩
    obtain ⟨body, hbody, hitem⟩ := hbody
    rcases List.mem_cons.1 hbody with rfl | hbody
    · obtain ⟨node, hnode, rfl⟩ := hself
      obtain ⟨list, hitem, inner, hinner, hlist⟩ := exists_list_of_globals hitem
      obtain ⟨other, hother, rfl⟩ := exists_of_child hnode hinner
      exact ⟨list, hitem, exists_of_child hother hlist⟩
    · obtain ⟨region, hregion, rfl⟩ := List.mem_map.1 hbody
      obtain ⟨node, hnode, hregion⟩ := List.mem_filterMap.1 hregion
      obtain ⟨list, hitem, hlist | ⟨inner, hinner, hlist⟩⟩ := exists_list_of_region hregion hitem
      · exact ⟨list, hitem, exists_of_child hnode hlist⟩
      · obtain ⟨other, hother, rfl⟩ := exists_of_child hnode hinner
        exact ⟨list, hitem, exists_of_child hother hlist⟩
  obtain ⟨list, hitem, node, hnode, rfl⟩ := hlist
  obtain ⟨child, hchild, hown⟩ := List.mem_flatMap.1 hitem
  obtain ⟨other, hother, rfl⟩ := exists_of_child hnode hchild
  exact ⟨other, hother, hown⟩

theorem eq_of_identifier {token : Token} (h : tree.identifier? = some token) :
    ∃ start stop, tree = .node .ident start stop [.leaf token] := by
  unfold identifier? at h
  split at h
  · cases h
    exact ⟨_, _, rfl⟩
  · cases h

/-- Where no expected token is missing in front, a node stands where its first leaf does. -/
theorem location_of_leaves (hanchored : Anchored [tree]) (hmem : node ∈ tree.occurrences [])
    {name : Rule} (hrule : node.tree.rule? = some name) {first : Token} {leaves : List Tree}
    (h : node.tree.leaves = .leaf first :: leaves) : node.tree.location = .ofToken first := by
  rw [← occurrences_all_singleton] at hmem
  cases hnode : node.tree with
  | node rule start stop children =>
      rw [hnode, Tree.leaves] at h
      obtain rfl := hanchored [] node hmem _ _ _ _ hnode first (by rw [h]; rfl)
      rfl
  | leaf | skipped | missing =>
      rw [hnode] at hrule
      cases hrule

theorem location_of_identifier (hanchored : Anchored [tree]) (hmem : node ∈ tree.occurrences [])
    {token : Token} (h : node.tree.identifier? = some token) :
    node.tree.location = .ofToken token := by
  obtain ⟨start, stop, hnode⟩ := eq_of_identifier h
  exact location_of_leaves hanchored hmem (by rw [hnode]; rfl) (by rw [hnode]; rfl)

/-- An item has an identifier below the node that declares it. Its place is that of the identifier
where a variable or a string is declared, and that of the whole node where it is a parameter. -/
theorem exists_ident_of_own_item (hmem : node ∈ tree.occurrences []) {item : Item}
    (hitem : item ∈ node.tree.ownItems) :
    ∃ part ∈ tree.occurrences [], part.tree.identifier? = some item.ident ∧
      ((node.tree.rule? = some .varDecl ∨ node.tree.rule? = some .stringDecl) ∧
          item.place = part.tree.location ∨
        node.tree.rule? = some .param ∧ item.place = node.tree.location ∧
          ∃ type, node.tree.leaves = [.leaf type, .leaf item.ident]) := by
  have hchild {inner : Tree} := @exists_of_child [] tree inner node hmem
  unfold ownItems at hitem
  split at hitem
  · next hnode =>
    obtain ⟨ident, hident, hmake⟩ := List.mem_filterMap.1 hitem
    obtain ⟨token, htoken, rfl⟩ := Option.map_eq_some_iff.1 hmake
    rw [hnode] at hchild ⊢
    obtain ⟨list, hlist, heq⟩ := hchild (List.mem_cons_of_mem _ List.mem_cons_self)
    obtain ⟨part, hpart, rfl⟩ := exists_of_child hlist (by rw [heq]; exact hident)
    exact ⟨part, hpart, htoken, .inl ⟨.inl rfl, rfl⟩⟩
  · next hnode =>
    obtain ⟨token, htoken, rfl⟩ := Option.map_eq_some_iff.1 (Option.mem_toList.1 hitem)
    rw [hnode] at hchild ⊢
    obtain ⟨part, hpart, rfl⟩ := hchild (List.mem_cons_of_mem _ List.mem_cons_self)
    exact ⟨part, hpart, htoken, .inl ⟨.inr rfl, rfl⟩⟩
  · next type ident hnode =>
    obtain ⟨token, htoken, rfl⟩ := Option.map_eq_some_iff.1 (Option.mem_toList.1 hitem)
    rw [hnode] at hchild ⊢
    obtain ⟨part, hpart, heq⟩ := hchild (List.mem_cons_of_mem _ List.mem_cons_self)
    obtain ⟨_, _, rfl⟩ := eq_of_identifier htoken
    exact ⟨part, hpart, heq ▸ htoken, .inr ⟨rfl, rfl, type, rfl⟩⟩
  · exact absurd hitem List.not_mem_nil

end Tree

section Sources

variable {source : String}

/-- The tokens at the leaves of a part of a program stand together in the text. -/
theorem leaves_inside_marked (h : (Parse.ofSource .program source).diagnostics = [])
    {node : Occurrence} (hmem : node ∈ (Parse.ofSource .program source).tree.occurrences [])
    {tokens : List Token} (hleaves : node.tree.leaves = tokens.map .leaf) :
    tokens <:+: (Lexing.ofSource source).marked := by
  have hinfix := Tree.leaves_inside hmem
  rw [(program_derives h).2.leaves_eq, hleaves] at hinfix
  simpa [List.filterMap_map, Function.comp_def, Tree.token?, Lexing.marked]
    using hinfix.filterMap Tree.token?

/-- The token of an identifier in a program is an identifier in the text. -/
theorem identifier_of_part (h : (Parse.ofSource .program source).diagnostics = [])
    {node : Occurrence} (hmem : node ∈ (Parse.ofSource .program source).tree.occurrences [])
    {token : Token} (htoken : node.tree.identifier? = some token) :
    token ∈ (Lexing.ofSource source).tokens ∧ token.kind = .identifier := by
  obtain ⟨start, stop, hnode⟩ := Tree.eq_of_identifier htoken
  have hrule : node.tree.rule? = some .ident := by rw [hnode]; rfl
  have hleaves : node.tree.leaves = [token].map .leaf := by rw [hnode]; rfl
  have hkind : token.kind = .identifier := by
    obtain ⟨_, _, children, htree, hspells⟩ :=
      Tree.is_tree_of_iff.1 (Parse.is_tree_of_node h hmem hrule)
    obtain ⟨other, hother, rfl⟩ := spells_token_iff.1 hspells
    rw [hnode] at htree
    cases htree
    exact hother
  have hmarked := (leaves_inside_marked h hmem hleaves).subset (List.mem_singleton_self token)
  refine ⟨(List.mem_append.1 hmarked).resolve_right fun heof => ?_, hkind⟩
  rw [List.mem_singleton.1 heof, Lexing.kind_eof_of_source] at hkind
  cases hkind

/-- The second of two tokens that stand together begins at another place. -/
theorem place_ne_of_infix {first second : Token}
    (h : [first, second] <:+: (Lexing.ofSource source).marked) :
    Location.ofToken first ≠ .ofToken second := by
  have hlt := (Lexing.in_order_of_source source).tokens.sublist h.sublist
  rw [List.pairwise_pair] at hlt
  intro heq
  simp only [Location.ofToken, Location.mk.injEq, Option.some.injEq, Int.natCast_inj] at heq
  refine hlt.ne ?_
  rw [Position.place, Position.place, show first.position.line = second.position.line from heq.1,
    show first.position.column = second.position.column from heq.2]

end Sources

/-- A program without diagnostics halts at a name that is taken with the place of the identifier
that repeats it, if a variable or a string is declared. If it is a parameter, the place is that of
the type in front of the identifier, and never that of the identifier. -/
theorem place_of_duplicate {source : String}
    (hparse : (Parse.ofSource .program source).diagnostics = []) {name : String} {place : Location}
    (hhalt : analyze (Parse.ofSource .program source).tree =
      .error (.semantic (.duplicate name place))) :
    ∃ front index item back,
      (Parse.ofSource .program source).tree.outline.declared = front ++ (index, item) :: back ∧
      item.name = name ∧ (index, name) ∈ front.map Outline.key ∧
      (front.map Outline.key).Nodup ∧
      item.ident ∈ (Lexing.ofSource source).tokens ∧ item.ident.kind = .identifier ∧
      ∃ node ∈ (Parse.ofSource .program source).tree.occurrences [],
        item ∈ node.tree.ownItems ∧
        ((node.tree.rule? = some .varDecl ∨ node.tree.rule? = some .stringDecl) ∧
            place = .ofToken item.ident ∨
          node.tree.rule? = some .param ∧
            ∃ type, node.tree.leaves = [.leaf type, .leaf item.ident] ∧
              place = .ofToken type ∧ place ≠ .ofToken item.ident) := by
  have hanchored := Parse.anchored_of_source .program source
  obtain ⟨item, hclash, rfl, rfl⟩ : ∃ item,
      (Parse.ofSource .program source).tree.outline.firstClash = some item ∧
      item.name = name ∧ item.place = place := by
    obtain ⟨parts, hparts⟩ := exists_program_parts hparse
    rw [hparts] at hhalt ⊢
    obtain ⟨hok, herror⟩ := parts.analyze_eq
    cases hclash : parts.tree.outline.firstClash with
    | none =>
        obtain ⟨table, htable, -⟩ := hok hclash
        cases htable.symm.trans hhalt
    | some item =>
        cases (herror item hclash).symm.trans hhalt
        exact ⟨item, rfl, rfl, rfl⟩
  obtain ⟨front, index, back, hdeclared, hrepeats, hfirst⟩ := Outline.exists_of_first_clash hclash
  obtain ⟨node, hnode, hitem⟩ := Tree.exists_declaring
    (show (index, item) ∈ (Parse.ofSource .program source).tree.outline.declared by
      rw [hdeclared]
      exact List.mem_append_right _ List.mem_cons_self)
  obtain ⟨part, hpart, hident, hplace⟩ := Tree.exists_ident_of_own_item hnode hitem
  obtain ⟨htoken, hkind⟩ := identifier_of_part hparse hpart hident
  refine ⟨front, index, item, back, hdeclared, rfl, hrepeats, hfirst, htoken, hkind, node, hnode,
    hitem, ?_⟩
  rcases hplace with ⟨hrule, hplace⟩ | ⟨hrule, hplace, type, hleaves⟩
  · exact .inl ⟨hrule, hplace.trans (Tree.location_of_identifier hanchored hpart hident)⟩
  · have htype := hplace.trans (Tree.location_of_leaves hanchored hnode hrule hleaves)
    have hinfix : [type, item.ident] <:+: (Lexing.ofSource source).marked :=
      leaves_inside_marked hparse hnode hleaves
    exact .inr ⟨hrule, type, hleaves, htype, htype ▸ place_ne_of_infix hinfix⟩

/-- The place of the second of two variables is that of its identifier. -/
theorem place_of_duplicate_variable : ∃ place,
    analyze (Parse.ofSource .program "PROGRAM p BEGIN INT a; FLOAT b, a; END").tree =
      .error (.semantic (.duplicate "a" place)) ∧
    ∃ token ∈ (Lexing.ofSource "PROGRAM p BEGIN INT a; FLOAT b, a; END").tokens,
      token.kind = .identifier ∧ token.text = "a" ∧ place = .ofToken token := by
  have hparse : (Parse.ofSource .program "PROGRAM p BEGIN INT a; FLOAT b, a; END").diagnostics =
      [] := by
    decide +kernel
  have hhalt : analyze (Parse.ofSource .program "PROGRAM p BEGIN INT a; FLOAT b, a; END").tree =
      .error (.semantic (.duplicate "a" ⟨some 1, some 32⟩)) := by
    decide +kernel
  have hparams : ∀ node ∈
      (Parse.ofSource .program "PROGRAM p BEGIN INT a; FLOAT b, a; END").tree.occurrences [],
      node.tree.rule? ≠ some .param := by
    decide +kernel
  obtain ⟨_, _, item, _, -, hname, -, -, htoken, hkind, node, hnode, -, ⟨-, hplace⟩ | ⟨hrule, -⟩⟩ :=
    place_of_duplicate hparse hhalt
  · exact ⟨_, hhalt, item.ident, htoken, hkind, hname, hplace⟩
  · exact absurd hrule (hparams node hnode)

/-- No identifier stands at the place that is named for the second of two parameters. -/
theorem duplicate_parameter_misplaced :
    (Parse.ofSource .program
      "PROGRAM p BEGIN FUNCTION VOID f (INT a, INT a) BEGIN END END").diagnostics = [] ∧
    ∃ place, analyze (Parse.ofSource .program
        "PROGRAM p BEGIN FUNCTION VOID f (INT a, INT a) BEGIN END END").tree =
          .error (.semantic (.duplicate "a" place)) ∧
      ∀ token ∈ (Lexing.ofSource
        "PROGRAM p BEGIN FUNCTION VOID f (INT a, INT a) BEGIN END END").tokens,
          token.kind = .identifier → place ≠ .ofToken token :=
  ⟨by decide +kernel, ⟨some 1, some 40⟩, by decide +kernel, by decide +kernel⟩

end Little
