import Little.Proofs.Parsing.Respelling
import Little.Proofs.Scope.Safety

/-!
# What the scope pass does not look at

The scope pass goes by rules and by the texts of identifiers and types. Where a tree keeps these
(`Tree.Keeps`), the table of the respelled tree is the respelled table (`analyze_respell`): values
are spelled anew and nothing else changes, and a halt is the same one in another place.
-/

namespace Little

namespace Tree

/-- Respelling keeps identifiers and types below a node, and spells a value anew as a whole. -/
structure Keeps (spell : String → String) (tree : Tree) : Prop where
  name : ∀ part ∈ tree.children, part.rule? = some .ident ∨ part.rule? = some .varType →
    (part.respell spell).text = part.text
  value : ∀ part ∈ tree.children, part.rule? = some .stringValue →
    (part.respell spell).text = spell part.text

theorem keeps_id (tree : Tree) : tree.Keeps id :=
  ⟨fun part _ _ => part.text_respell_id, fun part _ _ => part.text_respell_id⟩

end Tree

/-- The place at the start of a text. -/
def Location.atStart : Location := ⟨some Position.start.line, some Position.start.column⟩

def Symbol.respell (spell : String → String) (symbol : Symbol) : Symbol :=
  { symbol with value := symbol.value.map spell }

def Declaration.respell (spell : String → String) (declaration : Declaration) : Declaration :=
  ⟨declaration.symbol.respell spell, .atStart⟩

def Scope.respell (spell : String → String) (scope : Scope) : Scope :=
  { scope with symbols := scope.symbols.map (Symbol.respell spell) }

def SymbolTable.respell (spell : String → String) (table : SymbolTable) : SymbolTable :=
  { table with scopes := table.scopes.map (Scope.respell spell) }

def SemanticError.atStart : SemanticError → SemanticError
  | .duplicate name _ => .duplicate name .atStart
  | .other text _ => .other text .atStart

/-- A halt as if it were at the start of the text. -/
def Halt.atStart : Halt → Halt
  | .semantic error => .semantic error.atStart
  | halt => halt

def Notice.respell (spell : String → String) : Notice → Notice
  | .declared scope symbol => .declared scope (symbol.respell spell)
  | notice => notice

def Builder.respell (spell : String → String) (builder : Builder) : Builder :=
  { builder with
    table := builder.table.respell spell
    notices := builder.notices.map (Notice.respell spell) }

def Outcome.respell (spell : String → String) (outcome : Outcome) : Outcome :=
  ⟨outcome.builder.respell spell, outcome.halt.map Halt.atStart⟩

def Occurrence.respell (spell : String → String) (occurrence : Occurrence) : Occurrence :=
  { occurrence with tree := occurrence.tree.respell spell }

def Event.respell (spell : String → String) : Event → Event
  | .enter node => .enter (node.respell spell)
  | .exit node => .exit (node.respell spell)
  | .leaf node => .leaf (node.respell spell)

variable {spell : String → String}

namespace Tree

variable {tree : Tree}

theorem children_of_respell (tree : Tree) (rule : Rule) :
    (tree.respell spell).childrenOf rule = (tree.childrenOf rule).map (respell spell) := by
  rw [childrenOf, childrenOf, children_respell, List.filter_map]
  simp only [Function.comp_def, rule_respell]

theorem child_of_respell (tree : Tree) (rule : Rule) :
    (tree.respell spell).childOf? rule = (tree.childOf? rule).map (respell spell) := by
  rw [child_of_eq_head, child_of_eq_head, children_of_respell, List.head?_map]

/-- What is found as a part is a part, and of that rule. -/
theorem mem_of_child_of {part : Tree} {rule : Rule} (h : tree.childOf? rule = some part) :
    part ∈ tree.children ∧ part.rule? = some rule :=
  ⟨List.mem_of_find?_eq_some h, by simpa using List.find?_some h⟩

theorem mem_of_children_of {part : Tree} {rule : Rule} (h : part ∈ tree.childrenOf rule) :
    part ∈ tree.children ∧ part.rule? = some rule := by
  simpa [childrenOf] using h

/-- Nodes begin where their first tokens do, which is at the start once places are left out. -/
theorem location_respell {rule : Rule} (h : tree.rule? = some rule) :
    (tree.respell spell).location = .atStart := by
  cases tree with
  | node => rfl
  | leaf | skipped | missing => cases h

/-- Only a node has parts. -/
theorem exists_rule {part : Tree} (h : part ∈ tree.children) : ∃ rule, tree.rule? = some rule := by
  cases tree with
  | node rule => exact ⟨rule, rfl⟩
  | leaf | skipped | missing => exact absurd h List.not_mem_nil

theorem Keeps.param_declaration (h : tree.Keeps spell) :
    (tree.respell spell).paramDeclaration =
      tree.paramDeclaration.map (Declaration.respell spell) := by
  unfold paramDeclaration
  rw [child_of_respell, child_of_respell]
  cases hident : tree.childOf? .ident with
  | none => rfl
  | some ident =>
      cases htype : tree.childOf? .varType with
      | none => rfl
      | some type =>
          obtain ⟨hmem, hrule⟩ := mem_of_child_of hident
          obtain ⟨hmem', hrule'⟩ := mem_of_child_of htype
          obtain ⟨rule, hnode⟩ := exists_rule hmem
          show some (Declaration.mk ⟨(ident.respell spell).text, (type.respell spell).text, none⟩
            (tree.respell spell).location) = _
          rw [h.name ident hmem (.inl hrule), h.name type hmem' (.inr hrule'),
            location_respell hnode]
          rfl

theorem Keeps.string_declaration (h : tree.Keeps spell) :
    (tree.respell spell).stringDeclaration =
      tree.stringDeclaration.map (Declaration.respell spell) := by
  unfold stringDeclaration
  rw [child_of_respell, child_of_respell]
  cases hident : tree.childOf? .ident with
  | none => rfl
  | some ident =>
      cases hvalue : tree.childOf? .stringValue with
      | none => rfl
      | some value =>
          obtain ⟨hmem, hrule⟩ := mem_of_child_of hident
          obtain ⟨hmem', hrule'⟩ := mem_of_child_of hvalue
          show some (Declaration.mk
            ⟨(ident.respell spell).text, "STRING", some (value.respell spell).text⟩
            (ident.respell spell).location) = _
          rw [h.name ident hmem (.inl hrule), h.value value hmem' hrule', location_respell hrule]
          rfl

theorem Keeps.var_declarations (h : tree.Keeps spell)
    (hparts : ∀ part ∈ tree.children, part.Keeps spell) :
    (tree.respell spell).varDeclarations =
      tree.varDeclarations.map (List.map (Declaration.respell spell)) := by
  unfold varDeclarations
  rw [child_of_respell, child_of_respell]
  cases htype : tree.childOf? .varType with
  | none => rfl
  | some type =>
      cases hlist : tree.childOf? .identList with
      | none => rfl
      | some list =>
          obtain ⟨hmem, hrule⟩ := mem_of_child_of htype
          show some (((list.respell spell).childrenOf .ident).map _) =
            some (((list.childrenOf .ident).map _).map _)
          rw [children_of_respell, List.map_map, List.map_map]
          refine congrArg some (List.map_congr_left fun ident hident => ?_)
          obtain ⟨hmem', hrule'⟩ := mem_of_children_of hident
          have hkeeps := (hparts list (mem_of_child_of hlist).1).name ident hmem' (.inl hrule')
          show Declaration.mk ⟨(ident.respell spell).text, (type.respell spell).text, none⟩
            (ident.respell spell).location = _
          rw [hkeeps, h.name type hmem (.inr hrule), location_respell hrule']
          rfl

/-- A node whose names are kept declares the same with values spelled anew. -/
theorem Keeps.declarations (h : tree.Keeps spell)
    (hparts : ∀ part ∈ tree.children, part.Keeps spell) :
    (tree.respell spell).declarations =
      tree.declarations.map (Option.map (Declaration.respell spell)) := by
  unfold Tree.declarations
  rw [rule_respell]
  split
  · rw [children_of_respell, List.map_map, List.map_map]
    refine List.map_congr_left fun param hparam => ?_
    exact (hparts param (mem_of_children_of hparam).1).param_declaration
  · rw [h.var_declarations hparts]
    cases tree.varDeclarations with
    | none => rfl
    | some declarations =>
        show (declarations.map _).map some = (declarations.map some).map _
        rw [List.map_map, List.map_map]
        rfl
  · rw [h.string_declaration]
    rfl
  · rfl

end Tree

theorem Scope.define_respell (scope : Scope) (declaration : Declaration) :
    (scope.respell spell).define (declaration.respell spell).symbol .atStart =
      ((scope.define declaration.symbol declaration.place).map (respell spell)).mapError
        SemanticError.atStart := by
  have hlookup (name : String) : (scope.respell spell).lookup name =
      (scope.lookup name).map (Symbol.respell spell) := List.find?_map ..
  unfold define
  rw [hlookup, show (declaration.respell spell).symbol.name = declaration.symbol.name from rfl]
  cases scope.lookup declaration.symbol.name with
  | some symbol => rfl
  | none => simp [Except.map, Except.mapError, respell, Declaration.respell]

namespace SymbolTable

variable (table : SymbolTable)

@[simp] theorem scope_respell (handle : Handle) :
    (table.respell spell).scope? handle = (table.scope? handle).map (Scope.respell spell) :=
  List.getElem?_map

@[simp] theorem name_of_respell (handle : Handle) :
    (table.respell spell).nameOf handle = table.nameOf handle := by
  rw [nameOf, nameOf, scope_respell, Option.map_map]
  rfl

theorem next_handle_respell : (table.respell spell).nextHandle = table.nextHandle :=
  List.length_map ..

theorem add_respell (name : String) (kind : ScopeKind) :
    (table.respell spell).add name kind = (table.add name kind).respell spell := by
  simp [add, respell, Scope.respell, nextHandle]

theorem define_respell (handle : Handle) (declaration : Declaration) :
    (table.respell spell).define handle (declaration.respell spell).symbol .atStart =
      ((table.define handle declaration.symbol declaration.place).map (respell spell)).mapError
        SemanticError.atStart := by
  unfold define
  rw [scope_respell]
  cases table.scope? handle with
  | none => rfl
  | some scope =>
      show ((scope.respell spell).define _ _).map _ = _
      rw [Scope.define_respell]
      dsimp only
      cases scope.define declaration.symbol declaration.place with
      | ok scope => simp [Except.map, Except.mapError, respell]
      | error error => rfl

theorem discard_respell (handle : Handle) :
    (table.respell spell).discard handle = (table.discard handle).map (respell spell) := by
  unfold discard
  show (if table.order.contains handle then _ else _) = _
  split <;> rfl

theorem listed_respell :
    (table.respell spell).listed = table.listed.map (Scope.respell spell) := by
  rw [listed, listed, List.map_filterMap]
  exact List.filterMap_congr fun handle _ => table.scope_respell handle

theorem named_respell (name : String) :
    (table.respell spell).named? name = (table.named? name).map (Scope.respell spell) := by
  rw [named?, named?, listed_respell]
  exact List.find?_map ..

/-- A report picks scopes by their names, which are kept. -/
theorem reported_respell :
    (table.respell spell).reported = table.reported.map (Scope.respell spell) := by
  have hnames : (table.respell spell).sortedNames = table.sortedNames := by
    rw [sortedNames, sortedNames, names, names, listed_respell, List.map_map]
    rfl
  rw [reported, reported, hnames, List.map_append, List.map_filterMap, named_respell,
    Option.toList_map]
  exact congrArg (· ++ _) (List.filterMap_congr fun name _ => table.named_respell name)

end SymbolTable

namespace Outcome

theorem and_then_respell (outcome : Outcome) {next next' : Builder → Outcome}
    (hnext : ∀ builder, next' (builder.respell spell) = (next builder).respell spell) :
    (outcome.respell spell).andThen next' = (outcome.andThen next).respell spell := by
  obtain ⟨builder, _ | halt⟩ := outcome
  · exact hnext builder
  · rfl

end Outcome

namespace Builder

variable (builder : Builder)

theorem declare_respell (declaration : Declaration) :
    (builder.respell spell).declare (declaration.respell spell).symbol .atStart =
      (builder.declare declaration.symbol declaration.place).respell spell := by
  have hname : (builder.respell spell).table.nameOf (builder.respell spell).current =
      builder.table.nameOf builder.current := builder.table.name_of_respell builder.current
  have hdefine : (builder.respell spell).table.define (builder.respell spell).current
      (declaration.respell spell).symbol .atStart = _ :=
    builder.table.define_respell builder.current declaration
  unfold declare
  rw [hname, hdefine]
  cases builder.table.define builder.current declaration.symbol declaration.place <;> rfl

theorem declare_all_respell (declarations : List (Option Declaration)) :
    (builder.respell spell).declareAll (declarations.map (Option.map (Declaration.respell spell))) =
      (builder.declareAll declarations).respell spell := by
  induction declarations generalizing builder with
  | nil => rfl
  | cons declaration declarations ih =>
      cases declaration with
      | none => rfl
      | some declaration =>
          show ((builder.respell spell).declare (declaration.respell spell).symbol
            .atStart).andThen _ = _
          rw [declare_respell]
          exact Outcome.and_then_respell _ ih

theorem open_scope_respell (name : String) (kind : ScopeKind) :
    (builder.respell spell).openScope name kind = (builder.openScope name kind).respell spell := by
  unfold openScope
  simp [respell, note, SymbolTable.add_respell, SymbolTable.next_handle_respell, Notice.respell]

theorem open_block_respell :
    (builder.respell spell).openBlock = builder.openBlock.respell spell :=
  open_scope_respell { builder with nextBlock := builder.nextBlock + 1 } _ _

theorem is_empty_block_respell (handle : Handle) :
    (builder.respell spell).isEmptyBlock handle = builder.isEmptyBlock handle := by
  unfold isEmptyBlock
  show ((builder.table.respell spell).scope? handle).any _ = _
  rw [SymbolTable.scope_respell, Option.any_map]
  refine congrArg (Option.any · _) (funext fun scope => ?_)
  show (decide (scope.kind = .block) && (scope.symbols.map _).isEmpty) = _
  rw [List.isEmpty_map]
  rfl

theorem close_respell : (builder.respell spell).close = builder.close.respell spell := by
  obtain ⟨table, current, nextBlock, opened, notices⟩ := builder
  cases opened with
  | nil => rfl
  | cons handle opened =>
      -- whether a block is dropped depends on whether it has symbols, not on their values
      have hempty := @is_empty_block_respell spell ⟨table, current, nextBlock, opened, notices⟩
        handle
      unfold close
      dsimp only [respell] at hempty ⊢
      rw [hempty, SymbolTable.name_of_respell, SymbolTable.discard_respell]
      split
      · cases table.discard handle <;> rfl
      · rfl

end Builder

/-- Respelling keeps what a node and its parts declare. -/
def Occurrence.Keeps (spell : String → String) (node : Occurrence) : Prop :=
  node.tree.Keeps spell ∧ ∀ part ∈ node.tree.children, part.Keeps spell

namespace Occurrence

@[simp] theorem rule_respell (node : Occurrence) :
    (node.respell spell).tree.rule? = node.tree.rule? := node.tree.rule_respell spell

theorem child_of_respell (node : Occurrence) (rule : Rule) :
    (node.respell spell).tree.childOf? rule =
      (node.tree.childOf? rule).map (Tree.respell spell) := node.tree.child_of_respell rule

theorem has_block_respell (node : Occurrence) :
    (node.respell spell).hasBlock = node.hasBlock := by
  unfold hasBlock
  rw [rule_respell]
  rfl

end Occurrence

namespace Builder

variable (builder : Builder)

theorem enter_respell {node : Occurrence} (h : node.Keeps spell) :
    (builder.respell spell).enter (node.respell spell) = (builder.enter node).respell spell := by
  have hdeclarations := h.1.declarations h.2
  unfold enter
  simp only [Occurrence.has_block_respell, Occurrence.rule_respell, Occurrence.child_of_respell]
  split
  · rw [open_block_respell]
    rfl
  · split
    · cases hident : node.tree.childOf? .ident with
      | none => rfl
      | some ident =>
          obtain ⟨hmem, hrule⟩ := Tree.mem_of_child_of hident
          show Outcome.done ((builder.respell spell).openScope (ident.respell spell).text _) = _
          rw [h.1.name ident hmem (.inl hrule), open_scope_respell]
          rfl
    · rw [show (node.respell spell).tree.declarations = _ from hdeclarations]
      exact declare_all_respell builder _

theorem exit_respell (node : Occurrence) :
    (builder.respell spell).exit (node.respell spell) = (builder.exit node).respell spell := by
  unfold exit
  simp only [Occurrence.has_block_respell, Occurrence.rule_respell, close_respell]
  split <;> rfl

/-- Walking through respelled events leads to the respelled outcome. -/
theorem walk_respell {events : List Event} (h : ∀ node, .enter node ∈ events → node.Keeps spell) :
    (builder.respell spell).walk (events.map (Event.respell spell)) =
      (builder.walk events).respell spell := by
  -- each event leaves another builder, so the induction is for all of them
  induction events generalizing builder with
  | nil => rfl
  | cons event events ih =>
      have hstep : (builder.respell spell).step (event.respell spell) =
          (builder.step event).respell spell := by
        cases event with
        | enter node => exact builder.enter_respell (h node List.mem_cons_self)
        | exit node => exact builder.exit_respell node
        | leaf node => rfl
      rw [List.map_cons, walk, hstep]
      exact Outcome.and_then_respell _ fun builder =>
        ih builder fun node hmem => h node (List.mem_cons_of_mem _ hmem)

end Builder

namespace Tree

mutual

theorem walk_respell (above : List Rule) (tree : Tree) :
    (tree.respell spell).walk above = (tree.walk above).map (Event.respell spell) := by
  cases tree with
  | node rule start stop children =>
      simp only [respell, walk, walk_all_respell (rule :: above) children, List.map_append,
        List.map_cons]
      rfl
  | leaf | skipped | missing => rfl

theorem walk_all_respell (above : List Rule) (trees : List Tree) :
    walkAll above (respellAll spell trees) =
      (walkAll above trees).map (Event.respell spell) := by
  cases trees with
  | nil => rfl
  | cons tree trees =>
      rw [respellAll, walkAll, walk_respell, walk_all_respell, ← List.map_append, walkAll]

end

end Tree

/-- The table of a respelled tree is the respelled table. -/
theorem analyze_respell {tree : Tree} (h : ∀ node, .enter node ∈ tree.events → node.Keeps spell) :
    analyze (tree.respell spell) =
      ((analyze tree).map (SymbolTable.respell spell)).mapError Halt.atStart := by
  have hwalk := Builder.start.walk_respell h
  rw [Tree.events, ← Tree.walk_respell] at hwalk
  unfold analyze
  rw [Tree.events, show Builder.start.walk _ = _ from hwalk, ← Tree.events]
  generalize Builder.start.walk tree.events = outcome
  obtain ⟨builder, _ | halt⟩ := outcome <;> rfl

@[simp] theorem SymbolTable.respell_id (table : SymbolTable) : table.respell id = table := by
  have hsymbol : Symbol.respell id = id := by
    funext symbol
    simp [Symbol.respell]
  have hscope : Scope.respell id = id := by
    funext scope
    simp [Scope.respell, hsymbol]
  rw [respell, hscope, List.map_id]

/-- A tree that is spelled like a respelled one has the respelled table, or halts alike. -/
theorem analyze_of_respell {tree other : Tree} (hother : other.respell id = tree.respell spell)
    (h : ∀ node, .enter node ∈ tree.events → node.Keeps spell) :
    (analyze other).mapError Halt.atStart =
      ((analyze tree).map (SymbolTable.respell spell)).mapError Halt.atStart := by
  have hanalyze := @analyze_respell id other fun node _ =>
    ⟨node.tree.keeps_id, fun part _ => part.keeps_id⟩
  rw [hother, analyze_respell h, show SymbolTable.respell id = id from
    funext SymbolTable.respell_id] at hanalyze
  rw [hanalyze]
  exact congrArg (Except.mapError Halt.atStart) (id_map (analyze other)).symm

/-- Trees that differ in places only have the same table, or halt alike. -/
theorem analyze_eq_of_respell {tree other : Tree} (h : other.respell id = tree.respell id) :
    (analyze other).mapError Halt.atStart = (analyze tree).mapError Halt.atStart := by
  rw [analyze_of_respell h fun node _ => ⟨node.tree.keeps_id, fun part _ => part.keeps_id⟩,
    show SymbolTable.respell id = id from funext SymbolTable.respell_id]
  exact congrArg (Except.mapError Halt.atStart) (id_map (analyze tree))

namespace Tree

variable {tree : Tree} {name : Rule}

theorem text_respell_node_leaf (rule : Rule) (start : Token) (stop : Option Token)
    (token : Token) :
    ((Tree.node rule start stop [.leaf token]).respell spell).text =
      (token.respell spell).text := by
  rw [respell, respell_all_eq_map]
  exact text_node_leaf _ _ _ _

/-- The parts of a derivation tree are derivation trees and leaves. -/
theorem IsTreeOf.part (h : tree.IsTreeOf name) {part : Tree} {rule : Rule}
    (hmem : part ∈ tree.children) (hrule : part.rule? = some rule) : part.IsTreeOf rule := by
  obtain ⟨_, _, children, rfl, hbody⟩ := is_tree_of_iff.1 h
  have hparts : PartsOf (fun _ => true) children := hbody.parts_of (by cases name <;> decide)
  rcases hparts part hmem with ⟨token, rfl⟩ | ⟨other, -, hpart⟩
  · cases hrule
  · obtain ⟨_, _, _, rfl, -⟩ := is_tree_of_iff.1 hpart
    obtain rfl := Option.some.inj hrule
    exact hpart

/-- A derivation tree is kept: only its string literals are spelled anew. -/
theorem IsTreeOf.keeps (h : tree.IsTreeOf name) : tree.Keeps spell := by
  refine ⟨fun part hmem hrule => ?_, fun part hmem hrule => ?_⟩
  · rcases hrule with hrule | hrule
    · obtain ⟨_, _, _, rfl, hbody⟩ := is_tree_of_iff.1 (h.part hmem hrule)
      obtain ⟨token, hkind, rfl⟩ := spells_token_iff.1 hbody
      rw [text_respell_node_leaf, text_node_leaf]
      exact if_neg (by rw [hkind]; decide)
    · obtain ⟨_, _, _, rfl, hbody⟩ := is_tree_of_iff.1 (h.part hmem hrule)
      obtain ⟨token, hkind, rfl⟩ := spells_one_of_iff.1 hbody
      rw [text_respell_node_leaf, text_node_leaf]
      exact if_neg fun heq => absurd (heq ▸ hkind) (by decide)
  · obtain ⟨_, _, _, rfl, hbody⟩ := is_tree_of_iff.1 (h.part hmem hrule)
    obtain ⟨token, hkind, rfl⟩ := spells_token_iff.1 hbody
    rw [text_respell_node_leaf, text_node_leaf]
    exact if_pos hkind

theorem keeps_of_leaf (h : tree.rule? = none) : tree.Keeps spell := by
  cases tree with
  | node => cases h
  | leaf | skipped | missing =>
      exact ⟨fun _ hmem => absurd hmem List.not_mem_nil,
        fun _ hmem => absurd hmem List.not_mem_nil⟩

end Tree

/-- Without diagnostics all nodes are kept. -/
theorem keeps_of_enter {entry : Rule} {source : String}
    (h : (Parse.ofSource entry source).diagnostics = []) (node : Occurrence)
    (hmem : .enter node ∈ (Parse.ofSource entry source).tree.events) : node.Keeps spell := by
  cases hrule : node.tree.rule? with
  | none =>
      refine ⟨Tree.keeps_of_leaf hrule, fun part hpart => ?_⟩
      obtain ⟨rule, hnode⟩ := Tree.exists_rule hpart
      rw [hrule] at hnode
      cases hnode
  | some rule =>
      have htree := Parse.is_tree_of_node h (Tree.mem_of_enter hmem) hrule
      refine ⟨htree.keeps, fun part hpart => ?_⟩
      cases hrule : part.rule? with
      | none => exact Tree.keeps_of_leaf hrule
      | some rule => exact (htree.part hpart hrule).keeps

end Little
