import Little.Proofs.Scope.Nesting

/-!
# Walking through functions and programs

Derivation trees of functions and programs are taken apart once, into structures that name their
parts (`FunctionParts`, `ProgramParts`). A function does to the builder what its regions do
(`FunctionParts.walks`): the scope that the function opens is closed by its body, and the statements
have a block of their own in between. A program declares its globals and then walks through its
functions (`ProgramParts.walk_eq`).
-/

namespace Little

/-- The body of a function. -/
structure BodyParts where
  start : Token
  stop : Option Token
  declarations : Tree
  statements : Tree
  hdeclarations : declarations.IsTreeOf .declarations
  hstatements : statements.IsTreeOf .statements

/-- A function. -/
structure FunctionParts where
  start : Token
  stop : Option Token
  keyword : Token
  type : Tree
  ident : Tree
  left : Token
  params : Tree
  right : Token
  opening : Token
  body : BodyParts
  closing : Token
  htype : type.IsTreeOf .resultType
  hident : ident.IsTreeOf .ident
  hparams : params.IsTreeOf .paramList

/-- A program. -/
structure ProgramParts where
  start : Token
  stop : Option Token
  keyword : Token
  ident : Tree
  opening : Token
  bodyStart : Token
  bodyStop : Option Token
  declarations : Tree
  functions : Tree
  closing : Token
  eof : Token
  hident : ident.IsTreeOf .ident
  hdeclarations : declarations.IsTreeOf .declarations
  hfunctions : functions.IsTreeOf .functions

namespace BodyParts

def tree (parts : BodyParts) : Tree :=
  .node .functionBody parts.start parts.stop [parts.declarations, parts.statements]

/-- The statements are a region, and the others in a body are within them. -/
theorem regions_eq (parts : BodyParts) :
    parts.tree.regions = .statements :: parts.statements.regions := by
  rw [tree, Tree.regions_node, Tree.regions_all_cons, Tree.regions_all_cons,
    (parts.hdeclarations.walk_declarations [] .start).2, Tree.regions_all_nil, List.append_nil]
  rfl

/-- A body declares, walks through its statements, and closes the function. -/
theorem walk_eq (parts : BodyParts) (above : List Rule) (builder : Builder) :
    builder.walk (parts.tree.walk above) =
      ((builder.declareAll (parts.declarations.items.map (some ·.declaration))).andThen
        (·.walk (parts.statements.walk (.functionBody :: above)))).andThen Builder.close := by
  have hchildren : builder.walk
      (Tree.walkAll (.functionBody :: above) [parts.declarations, parts.statements]) =
        (builder.declareAll (parts.declarations.items.map (some ·.declaration))).andThen
          (·.walk (parts.statements.walk (.functionBody :: above))) := by
    simp only [Tree.walkAll, Builder.walk_append, (parts.hdeclarations.walk_declarations _ _).1,
      Builder.walk, Outcome.and_then_done]
  rw [tree, builder.walk_node]
  exact congrArg (·.andThen Builder.close) hchildren

end BodyParts

/-- The statements of a function do what their region and those inside do. -/
theorem Tree.IsTreeOf.walk_statements {tree : Tree} (h : tree.IsTreeOf .statements)
    {above : List Rule} (habove : above.any Rule.isControl = false) {builder : Builder}
    (hlisted : builder.Listed) :
    builder.Meets (.statements :: tree.regions) (builder.walk (tree.walk above)) := by
  obtain ⟨start, stop, children, rfl, hbody⟩ := is_tree_of_iff.1 h
  have hblock : (Occurrence.mk above (.node .statements start stop children)).hasBlock = true := by
    show (!above.any Rule.isControl) = true
    rw [habove, Bool.not_false]
  have hwalks : ∀ tree ∈ children, tree.Walks (.statements :: above) := by
    intro tree hmem
    have hparts : PartsOf (· = .statement) children := hbody.parts_of (by decide)
    rcases hparts.leaf_or_tree_of tree hmem with ⟨token, rfl⟩ | htree
    · exact walks_leaf _ token
    · exact htree.walks rfl fun hname => absurd hname (by decide)
  rw [builder.walk_node_of_block hblock, regions_node]
  exact (builder.inside_open_block rfl).meets hlisted fun next hinside =>
    walk_all_meets hwalks (hinside.listed hlisted)

namespace FunctionParts

def tree (parts : FunctionParts) : Tree :=
  .node .function parts.start parts.stop [.leaf parts.keyword, parts.type, parts.ident,
    .leaf parts.left, parts.params, .leaf parts.right, .leaf parts.opening, parts.body.tree,
    .leaf parts.closing]

/-- What a function declares itself. -/
def items (parts : FunctionParts) : List Item :=
  parts.params.items ++ parts.body.declarations.items

theorem exists_of_tree {tree : Tree} (h : tree.IsTreeOf .function) :
    ∃ parts : FunctionParts, tree = parts.tree := by
  obtain ⟨start, stop, children, rfl, hbody⟩ := Tree.is_tree_of_iff.1 h
  simp only [Rule.body, Phrase.row] at hbody
  obtain ⟨keyword, _, rfl, -, hbody⟩ := spells_token_seq_iff.1 hbody
  obtain ⟨type, _, rfl, htype, hbody⟩ := spells_rule_seq_iff.1 hbody
  obtain ⟨ident, _, rfl, hident, hbody⟩ := spells_rule_seq_iff.1 hbody
  obtain ⟨left, _, rfl, -, hbody⟩ := spells_token_seq_iff.1 hbody
  obtain ⟨params, _, rfl, hparams, hbody⟩ := spells_rule_seq_iff.1 hbody
  obtain ⟨right, _, rfl, -, hbody⟩ := spells_token_seq_iff.1 hbody
  obtain ⟨opening, _, rfl, -, hbody⟩ := spells_token_seq_iff.1 hbody
  obtain ⟨body, _, rfl, hfunction, hbody⟩ := spells_rule_seq_iff.1 hbody
  obtain ⟨closing, -, rfl⟩ := spells_token_iff.1 hbody
  obtain ⟨first, last, _, rfl, hinner⟩ := Tree.is_tree_of_iff.1 hfunction
  obtain ⟨declarations, _, rfl, hdeclarations, hinner⟩ := spells_rule_seq_iff.1 hinner
  obtain ⟨statements, rfl, hstatements⟩ := spells_rule_iff.1 hinner
  exact ⟨⟨start, stop, keyword, type, ident, left, params, right, opening,
    ⟨first, last, declarations, statements, hdeclarations, hstatements⟩, closing, htype, hident,
    hparams⟩, rfl⟩

variable (parts : FunctionParts)

theorem exists_ident : ∃ token, parts.ident.identifier? = some token ∧
    parts.ident.text = token.text := by
  obtain ⟨start, stop, token, hident⟩ := parts.hident.exists_leaf (.inl rfl)
  rw [hident]
  exact ⟨token, rfl, Tree.text_node_leaf _ _ _ _⟩

/-- A function is a region, and so are its statements. -/
theorem regions_eq {token : Token} (hident : parts.ident.identifier? = some token) :
    parts.tree.regions =
      .function token parts.items :: .statements :: parts.body.statements.regions := by
  have hregion : parts.tree.region? = some (.function token parts.items) :=
    congrArg (Option.map fun token => Region.function token parts.items) hident
  rw [tree, Tree.regions_node]
  show parts.tree.region?.toList ++ _ = _
  simp only [hregion, Tree.regions_all_cons, Tree.regions_leaf,
    (parts.htype.inert rfl [] .start).2, (parts.hident.inert rfl [] .start).2,
    (parts.hparams.walk_params [] .start).2, parts.body.regions_eq, Tree.regions_all_nil,
    List.nil_append, List.append_nil]
  rfl

/-- A function does what its regions do. -/
theorem walks {above : List Rule} (habove : above.any Rule.isControl = false) :
    parts.tree.Walks above := by
  intro builder hlisted
  obtain ⟨token, hident, htext⟩ := parts.exists_ident
  have henter : builder.enter ⟨above, parts.tree⟩ =
      .done (builder.openScope token.text .function) := by
    obtain ⟨_, _, _, htype, -⟩ := Tree.is_tree_of_iff.1 parts.htype
    obtain ⟨_, _, other, hother⟩ := parts.hident.exists_leaf (.inl rfl)
    rw [← htext, tree, htype, hother]
    rfl
  have hchildren (opened : Builder) :
      opened.walk (Tree.walkAll (.function :: above) parts.tree.children) =
        ((opened.declareAll (parts.items.map (some ·.declaration))).andThen
          (·.walk (parts.body.statements.walk (.functionBody :: .function :: above)))).andThen
            Builder.close := by
    simp only [tree, Tree.children, Tree.walkAll, Builder.walk_append, Builder.walk_leaf,
      (parts.htype.inert rfl _ _).1, (parts.hident.inert rfl _ _).1,
      (parts.hparams.walk_params _ _).1, parts.body.walk_eq, Outcome.done_and_then, items,
      List.map_append, Builder.declare_all_append, Outcome.and_then_assoc, Builder.walk,
      Outcome.and_then_done]
  -- the body has closed the scope already, so nothing is due when the function is left
  have hexit : (fun next : Builder => next.exit ⟨above, parts.tree⟩) = Outcome.done := rfl
  have habove' : (Rule.functionBody :: .function :: above).any Rule.isControl = false := habove
  have hwalk := builder.walk_node above .function parts.start parts.stop parts.tree.children
  change builder.walk (parts.tree.walk above) = ((builder.enter ⟨above, parts.tree⟩).andThen
    (·.walk (Tree.walkAll (.function :: above) parts.tree.children))).andThen
      (·.exit ⟨above, parts.tree⟩) at hwalk
  rw [hwalk, henter, Outcome.done_and_then, hchildren, hexit, Outcome.and_then_done,
    parts.regions_eq hident]
  exact (builder.inside_open_function token parts.items).meets hlisted fun next hinside =>
    parts.body.hstatements.walk_statements habove' (hinside.listed hlisted)

end FunctionParts

/-- The functions of a program do what their regions do. -/
theorem Tree.IsTreeOf.walks_functions {tree : Tree} (h : tree.IsTreeOf .functions)
    {above : List Rule} (habove : above.any Rule.isControl = false) : tree.Walks above := by
  obtain ⟨start, stop, children, rfl, hbody⟩ := is_tree_of_iff.1 h
  intro builder hlisted
  have habove' : (Rule.functions :: above).any Rule.isControl = false := habove
  have hparts : PartsOf (· = .function) children := hbody.parts_of (by decide)
  rw [builder.walk_node_of_no_scope rfl (by decide) (by decide), regions_node]
  refine walk_all_meets (fun tree hmem => ?_) hlisted
  rcases hparts.leaf_or_tree_of tree hmem with ⟨token, rfl⟩ | htree
  · exact walks_leaf _ token
  · obtain ⟨parts, rfl⟩ := FunctionParts.exists_of_tree htree
    exact parts.walks habove'

namespace ProgramParts

def body (parts : ProgramParts) : Tree :=
  .node .programBody parts.bodyStart parts.bodyStop [parts.declarations, parts.functions]

def tree (parts : ProgramParts) : Tree :=
  .node .program parts.start parts.stop [.leaf parts.keyword, parts.ident, .leaf parts.opening,
    parts.body, .leaf parts.closing, .leaf parts.eof]

theorem exists_of_tree {tree : Tree} (h : tree.IsTreeOf .program) :
    ∃ parts : ProgramParts, tree = parts.tree := by
  obtain ⟨start, stop, children, rfl, hbody⟩ := Tree.is_tree_of_iff.1 h
  simp only [Rule.body, Phrase.row] at hbody
  obtain ⟨keyword, _, rfl, -, hbody⟩ := spells_token_seq_iff.1 hbody
  obtain ⟨ident, _, rfl, hident, hbody⟩ := spells_rule_seq_iff.1 hbody
  obtain ⟨opening, _, rfl, -, hbody⟩ := spells_token_seq_iff.1 hbody
  obtain ⟨body, _, rfl, hprogram, hbody⟩ := spells_rule_seq_iff.1 hbody
  obtain ⟨closing, _, rfl, -, hbody⟩ := spells_token_seq_iff.1 hbody
  obtain ⟨eof, -, rfl⟩ := spells_token_iff.1 hbody
  obtain ⟨first, last, _, rfl, hinner⟩ := Tree.is_tree_of_iff.1 hprogram
  obtain ⟨declarations, _, rfl, hdeclarations, hinner⟩ := spells_rule_seq_iff.1 hinner
  obtain ⟨functions, rfl, hfunctions⟩ := spells_rule_iff.1 hinner
  exact ⟨⟨start, stop, keyword, ident, opening, first, last, declarations, functions, closing, eof,
    hident, hdeclarations, hfunctions⟩, rfl⟩

variable (parts : ProgramParts)

/-- The regions of a program are those of its functions. -/
theorem regions_eq : parts.tree.regions = parts.functions.regions := by
  simp only [tree, body, Tree.regions_node, Tree.regions_all_cons, Tree.regions_leaf,
    (parts.hident.inert rfl [] .start).2, (parts.hdeclarations.walk_declarations [] .start).2,
    Tree.regions_all_nil, List.append_nil, List.nil_append]
  rfl

/-- A program declares its globals and walks through its functions. -/
theorem walk_eq (builder : Builder) :
    builder.walk parts.tree.events =
      (builder.declareAll (parts.tree.globals.map (some ·.declaration))).andThen
        (·.walk (parts.functions.walk [.programBody, .program])) := by
  have hbody (next : Builder) : next.walk (parts.body.walk [.program]) =
      (next.declareAll (parts.tree.globals.map (some ·.declaration))).andThen
        (·.walk (parts.functions.walk [.programBody, .program])) := by
    rw [body, next.walk_node_of_no_scope rfl (by decide) (by decide)]
    simp only [Tree.walkAll, Builder.walk_append, (parts.hdeclarations.walk_declarations _ _).1,
      Builder.walk, Outcome.and_then_done]
    rfl
  rw [Tree.events, tree, builder.walk_node_of_no_scope rfl (by decide) (by decide), ← tree]
  simp only [Tree.walkAll, Builder.walk_append, Builder.walk_leaf,
    (parts.hident.inert rfl _ _).1, hbody, Outcome.done_and_then, Builder.walk,
    Outcome.and_then_done]
  rfl

end ProgramParts

end Little
