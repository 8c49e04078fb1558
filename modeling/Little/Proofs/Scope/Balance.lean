import Little.Proofs.Parsing.Parts
import Little.Proofs.Scope.Consistency

/-!
# Which scopes a walk leaves open

The scope of a function is opened by one node and closed by another, its body, which a broken tree
may lack. `Builder.Pops` describes a walk through parts of a tree without functions: blocks are
closed where they were opened, and every body closes one scope more (`Builder.pops_trees`).
`Builder.Opens` describes a walk with functions: the scopes of those that lack their body stay open
(`Attempt.opens`). Neither ever closes a scope where none is open.
-/

namespace Little

namespace SymbolTable

/-- Name and handle of the scope of every function, in the order in which they were opened. -/
def functions (table : SymbolTable) : List (String × Handle) :=
  table.labels.zipIdx.filterMap fun ((name, kind), handle) =>
    if kind = .function then some (name, handle) else none

variable {table next : SymbolTable}

theorem functions_of_labels (h : next.labels = table.labels) :
    next.functions = table.functions := by
  unfold functions
  rw [h]

theorem length_labels (table : SymbolTable) : table.labels.length = table.nextHandle :=
  List.length_map _

@[simp] theorem functions_add_function (table : SymbolTable) (name : String) :
    (table.add name .function).functions = table.functions ++ [(name, table.nextHandle)] := by
  simp [functions, List.zipIdx_append, length_labels]

@[simp] theorem functions_add_block (table : SymbolTable) (name : String) :
    (table.add name .block).functions = table.functions := by
  simp [functions, List.zipIdx_append]

end SymbolTable

namespace Builder

/-- `builder.Pops count outcome` says that as many of the innermost scopes were closed and that no
function was met. -/
structure Pops (builder : Builder) (count : Nat) (outcome : Outcome) : Prop where
  halt : count ≤ builder.opened.length → outcome.halt ≠ some .noOpenScope
  opened : outcome.halt = none → outcome.builder.opened = builder.opened.drop count
  functions : outcome.builder.table.functions = builder.table.functions

namespace Pops

variable {builder : Builder} {count more : Nat} {outcome : Outcome}

theorem done (builder : Builder) : builder.Pops 0 (.done builder) :=
  ⟨fun _ => nofun, fun _ => rfl, rfl⟩

theorem and_then (h : builder.Pops count outcome) {step : Builder → Outcome}
    (hstep : ∀ next : Builder, next.Pops more (step next)) :
    builder.Pops (count + more) (outcome.andThen step) := by
  unfold Outcome.andThen
  cases hhalt : outcome.halt with
  | some halt =>
      refine ⟨fun hle => h.halt (by omega), fun hdone => ?_, h.functions⟩
      exact absurd (hhalt.symm.trans hdone) (Option.some_ne_none halt)
  | none =>
      have hopened := h.opened hhalt
      have hnext := hstep outcome.builder
      refine ⟨fun hle => hnext.halt ?_, fun hdone => ?_, hnext.functions.trans h.functions⟩
      · rw [hopened, List.length_drop]
        omega
      · rw [hnext.opened hdone, hopened, List.drop_drop]

/-- Closing a scope closes one scope. -/
theorem close (builder : Builder) : builder.Pops 1 builder.close := by
  have hcloses := builder.closes
  generalize builder.close = outcome at hcloses ⊢
  cases hcloses with
  | noOpenScope hopened =>
      refine ⟨fun hle => ?_, nofun, rfl⟩
      rw [hopened, List.length_nil] at hle
      omega
  | kept hopened | dropped hopened =>
      exact ⟨fun _ => nofun, fun _ => by rw [hopened]; rfl, rfl⟩
  | unlisted => exact ⟨fun _ => nofun, nofun, rfl⟩

/-- A block is closed where it was opened. -/
theorem block (h : builder.openBlock.Pops count outcome) :
    builder.Pops count (outcome.andThen Builder.close) := by
  have hclose := h.and_then close
  refine ⟨fun hle => hclose.halt (Nat.succ_le_succ hle), hclose.opened, ?_⟩
  rw [hclose.functions]
  exact SymbolTable.functions_add_block _ _

theorem declare_all (builder : Builder) (declarations : List (Option Declaration)) :
    builder.Pops 0 (builder.declareAll declarations) := by
  induction declarations generalizing builder with
  | nil => exact done builder
  | cons declaration rest ih =>
      cases declaration with
      | none => exact ⟨fun _ => nofun, nofun, rfl⟩
      | some declaration =>
          have hdeclare : builder.Pops 0
              (builder.declare declaration.symbol declaration.place) := by
            have hdeclares := builder.declares declaration.symbol declaration.place
            generalize builder.declare declaration.symbol declaration.place = outcome
              at hdeclares ⊢
            cases hdeclares with
            | declared htable =>
                exact ⟨fun _ => nofun, fun _ => rfl, SymbolTable.functions_of_labels htable.labels⟩
            | taken => exact ⟨fun _ => nofun, nofun, rfl⟩
          exact hdeclare.and_then ih

end Pops

theorem walk_leaves (builder : Builder) {leaves : List Tree}
    (h : ∀ leaf ∈ leaves, leaf.isNode = false) (above : List Rule) :
    builder.walk (Tree.walkAll above leaves) = .done builder := by
  induction leaves with
  | nil => rfl
  | cons leaf leaves ih =>
      rw [List.forall_mem_cons] at h
      rw [Tree.walkAll, Tree.walk_of_leaf h.1]
      exact ih h.2

theorem walk_passed (builder : Builder) {passed : List Tree}
    (h : ∀ leaf ∈ passed, leaf.isNode = false) (above : List Rule) (trees : List Tree) :
    builder.walk (Tree.walkAll above (trees ++ passed)) =
      builder.walk (Tree.walkAll above trees) := by
  have hpassed : (fun next : Builder => next.walk (Tree.walkAll above passed)) = .done :=
    funext fun next => next.walk_leaves h above
  rw [Tree.walk_all_append, walk_append, hpassed, Outcome.and_then_done]

/-- A body has no block of its own and closes a scope. -/
theorem walk_node_of_body (builder : Builder) (above : List Rule) (start : Token)
    (stop : Option Token) (children : List Tree) :
    builder.walk ((Tree.node .functionBody start stop children).walk above) =
      (builder.walk (Tree.walkAll (.functionBody :: above) children)).andThen Builder.close := by
  rw [walk_node]
  rfl

mutual

/-- A walk through a tree without functions closes as many scopes as there are bodies. -/
theorem pops_tree (builder : Builder) (above : List Rule) (tree : Tree)
    (h : Tree.nodesOf .function above [tree] = []) :
    builder.Pops (Tree.nodesOf .functionBody above [tree]).length
      (builder.walk (tree.walk above)) := by
  cases tree with
  | node name start stop children =>
      rw [Tree.nodes_of_node] at h ⊢
      split at h
      · cases h
      · next hfunction =>
        have hchildren (next : Builder) := next.pops_trees (name :: above) children h
        by_cases hblock : (Occurrence.mk above (.node name start stop children)).hasBlock = true
        · have hname : name ≠ .functionBody := by
            rintro rfl
            exact absurd hblock Bool.false_ne_true
          rw [if_neg hname, walk_node_of_block builder hblock]
          exact (hchildren builder.openBlock).block
        · rw [Bool.not_eq_true] at hblock
          by_cases hname : name = .functionBody
          · subst hname
            rw [if_pos rfl, walk_node_of_body]
            exact (hchildren builder).and_then .close
          · have hdeclared := (Pops.declare_all builder
              (Tree.node name start stop children).declarations).and_then hchildren
            rw [if_neg hname, walk_node_of_no_scope builder hblock hfunction hname]
            rwa [Nat.zero_add] at hdeclared
  | leaf | skipped | missing => exact .done builder

theorem pops_trees (builder : Builder) (above : List Rule) (trees : List Tree)
    (h : Tree.nodesOf .function above trees = []) :
    builder.Pops (Tree.nodesOf .functionBody above trees).length
      (builder.walk (Tree.walkAll above trees)) := by
  cases trees with
  | nil => exact .done builder
  | cons tree trees =>
      rw [Tree.nodes_of_cons, List.append_eq_nil_iff] at h
      rw [Tree.nodes_of_cons, List.length_append, Tree.walkAll, walk_append]
      exact (builder.pops_tree above tree h.1).and_then fun next => next.pops_trees above trees h.2

end

end Builder

/-- The scopes of those functions that lack their body, where the scopes of all are given in
order. -/
def unclosed (nodes : List Occurrence) (scopes : List (String × Handle)) : List Handle :=
  ((nodes.zip scopes).filter fun (node, _) => (node.tree.childOf? .functionBody).isNone).map
    fun (_, _, handle) => handle

theorem unclosed_append {nodes : List Occurrence} {scopes : List (String × Handle)}
    (h : nodes.length = scopes.length) (more : List Occurrence) (others : List (String × Handle)) :
    unclosed (nodes ++ more) (scopes ++ others) =
      unclosed nodes scopes ++ unclosed more others := by
  rw [unclosed, List.zip_append h, List.filter_append, List.map_append]
  rfl

theorem unclosed_singleton (node : Occurrence) (name : String) (handle : Handle) :
    unclosed [node] [(name, handle)] =
      if (node.tree.childOf? .functionBody).isNone then [handle] else [] := by
  rw [unclosed, List.zip_cons_cons, List.zip_nil_right, List.filter_cons]
  dsimp only
  split <;> rfl

namespace Builder

/-- `builder.Opens nodes outcome` says that the functions at the nodes were met, in this order, and
that of their scopes those are left open that no body has closed. -/
structure Opens (builder : Builder) (nodes : List Occurrence) (outcome : Outcome) : Prop where
  halt : outcome.halt ≠ some .noOpenScope
  done : outcome.halt = none → ∃ scopes : List (String × Handle),
    outcome.builder.table.functions = builder.table.functions ++ scopes ∧
    scopes.map (some ·.1) = nodes.map (fun node => (node.tree.childOf? .ident).map Tree.text) ∧
    outcome.builder.opened.reverse = builder.opened.reverse ++ unclosed nodes scopes

namespace Opens

variable {builder : Builder} {nodes more : List Occurrence} {outcome : Outcome}

theorem of_pops (h : builder.Pops 0 outcome) : builder.Opens [] outcome where
  halt := h.halt (Nat.zero_le _)
  done hdone := by
    refine ⟨[], by rw [h.functions, List.append_nil], rfl, ?_⟩
    rw [h.opened hdone]
    exact (List.append_nil _).symm

theorem and_then (h : builder.Opens nodes outcome) {step : Builder → Outcome}
    (hstep : ∀ next : Builder, next.Opens more (step next)) :
    builder.Opens (nodes ++ more) (outcome.andThen step) := by
  unfold Outcome.andThen
  cases hhalt : outcome.halt with
  | some halt =>
      refine ⟨h.halt, fun hdone => ?_⟩
      exact absurd (hhalt.symm.trans hdone) (Option.some_ne_none halt)
  | none =>
      refine ⟨(hstep outcome.builder).halt, fun hdone => ?_⟩
      obtain ⟨scopes, hfunctions, hnames, hopened⟩ := h.done hhalt
      obtain ⟨others, hfunctions', hnames', hopened'⟩ := (hstep outcome.builder).done hdone
      have hlength : nodes.length = scopes.length := by
        simpa using (congrArg List.length hnames).symm
      refine ⟨scopes ++ others, ?_, ?_, ?_⟩
      · rw [hfunctions', hfunctions, List.append_assoc]
      · rw [List.map_append, List.map_append, hnames, hnames']
      · rw [hopened', hopened, List.append_assoc, unclosed_append hlength]

/-- The scope of a function is opened, and it is closed if there is a body. -/
theorem function {above : List Rule} {start : Token} {stop : Option Token} {children : List Tree}
    (builder : Builder) (hflat : Tree.nodesOf .function (.function :: above) children = [])
    (hbodies : Tree.nodesOf .functionBody (.function :: above) children =
      (children.filter (·.rule? == some .functionBody)).map (Occurrence.mk (.function :: above)))
    (hfew : (Tree.nodesOf .functionBody (.function :: above) children).length ≤ 1) :
    builder.Opens [⟨above, .node .function start stop children⟩]
      (builder.walk ((Tree.node .function start stop children).walk above)) := by
  let node : Occurrence := ⟨above, .node .function start stop children⟩
  have hwalk : builder.walk (node.tree.walk above) =
      (builder.enter node).andThen (·.walk (Tree.walkAll (.function :: above) children)) := by
    rw [walk_node]
    exact Outcome.and_then_done _
  have hblock : ¬ node.hasBlock = true := Bool.false_ne_true
  have hrule : node.tree.rule? = some .function := rfl
  show builder.Opens [node] (builder.walk (node.tree.walk above))
  rw [hwalk, enter, if_neg hblock, if_pos hrule]
  cases hident : node.tree.childOf? .ident with
  | none =>
      constructor
      · show some Halt.missingPart ≠ some Halt.noOpenScope
        decide
      · intro hdone
        cases hdone
  | some ident =>
      show builder.Opens [node] ((builder.openScope ident.text .function).walk
        (Tree.walkAll (.function :: above) children))
      have hpops := (builder.openScope ident.text .function).pops_trees _ children hflat
      refine ⟨hpops.halt (Nat.le_trans hfew (Nat.succ_le_succ (Nat.zero_le _))), fun hdone => ?_⟩
      refine ⟨[(ident.text, builder.table.nextHandle)], ?_, ?_, ?_⟩
      · rw [hpops.functions]
        exact SymbolTable.functions_add_function _ _
      · rw [List.map_singleton, List.map_singleton, hident]
        rfl
      · have hchild : node.tree.childOf? .functionBody =
            (children.filter (·.rule? == some .functionBody)).head? := Tree.child_of_eq_head _ _
        rw [hbodies, List.length_map] at hfew
        rw [hpops.opened hdone, hbodies, List.length_map, unclosed_singleton, hchild]
        cases hparts : children.filter (·.rule? == some .functionBody) with
        | nil => exact List.reverse_cons
        | cons body rest =>
            -- there is room for one body only
            obtain rfl : rest = [] := by
              rw [hparts] at hfew
              exact List.length_eq_zero_iff.1 (Nat.le_zero.1 (Nat.le_of_succ_le_succ hfew))
            exact (List.append_nil _).symm

end Opens

end Builder

namespace Rule

/-- Whether no function can stand in a rule. -/
def isInner : Rule → Bool
  | .program | .programBody | .functions | .function => false
  | _ => true

/-- Bodies of functions stand in functions only. -/
theorem inner_body {rule : Rule} (h : rule.isInner = true) :
    rule.body.mentionsOnly isInner = true ∧
      rule.body.occurrences (· = .rule .functionBody) = 0 := by
  revert h
  cases rule <;> decide

theorem inner_function {rule : Rule} (h : rule.isInner = true) :
    rule.body.mentionsOnly isInner = true ∧ rule.body.occurrences (· = .rule .function) = 0 := by
  revert h
  cases rule <;> decide

end Rule

section Attempts

variable {certain whole : Bool} {phrase : Phrase} {trees : List Tree}

/-- What is read of a phrase without functions has none. -/
theorem Attempt.nodes_function_eq_nil (h : Attempt certain phrase whole trees)
    (hinner : phrase.mentionsOnly Rule.isInner = true)
    (hnone : phrase.occurrences (· = .rule .function) = 0) (above : List Rule) :
    Tree.nodesOf .function above trees = [] := by
  have hle := h.length_nodes_le (fun _ => Rule.inner_function) hinner (by omega) above
  rwa [hnone, Nat.le_zero, List.length_eq_zero_iff] at hle

/-- What is read of a phrase without functions and without bodies leaves the open scopes alone. -/
theorem Attempt.pops (h : Attempt certain phrase whole trees)
    (hinner : phrase.mentionsOnly Rule.isInner = true)
    (hnone : phrase.occurrences (· = .rule .function) = 0)
    (hbodies : phrase.occurrences (· = .rule .functionBody) = 0) (above : List Rule)
    (builder : Builder) : builder.Pops 0 (builder.walk (Tree.walkAll above trees)) := by
  have hle := h.length_nodes_le (fun _ => Rule.inner_body) hinner (by omega) above
  rw [hbodies, Nat.le_zero] at hle
  exact hle ▸ builder.pops_trees above trees (h.nodes_function_eq_nil hinner hnone above)

/-- What a function was read from opens its scope, and closes it if there is a body. -/
theorem Attempt.opens_function {children passed : List Tree}
    (h : Attempt certain Rule.function.body whole children)
    (hpassed : ∀ tree ∈ passed, tree.isNode = false) (above : List Rule) (start : Token)
    (stop : Option Token) (builder : Builder) :
    builder.Opens [⟨above, .node .function start stop (children ++ passed)⟩]
      (builder.walk ((Tree.node .function start stop (children ++ passed)).walk above)) := by
  have hinner : Rule.function.body.mentionsOnly Rule.isInner = true := by decide
  have hnone : passed.filter (·.rule? == some .functionBody) = [] := by
    rw [List.filter_eq_nil_iff]
    intro leaf hmem
    rw [Tree.rule_of_leaf (hpassed leaf hmem)]
    exact Bool.false_ne_true
  refine .function builder ?_ ?_ ?_
  · rw [Tree.nodes_of_passed hpassed, h.nodes_function_eq_nil hinner (by decide)]
  · rw [Tree.nodes_of_passed hpassed, h.nodes_eq (fun _ => Rule.inner_body) hinner,
      List.filter_append, hnone, List.append_nil]
  · rw [Tree.nodes_of_passed hpassed]
    exact h.length_nodes_le (fun _ => Rule.inner_body) hinner (by decide) _

/-- What a rule without functions was read from opens none, unless it is a body. -/
theorem Attempt.opens_inner {name : Rule} {children passed : List Tree}
    (h : Attempt certain name.body whole children)
    (hpassed : ∀ tree ∈ passed, tree.isNode = false) (hinner : name.isInner = true)
    (hname : name ≠ .functionBody) (above : List Rule) (start : Token) (stop : Option Token)
    (builder : Builder) :
    builder.Opens (Tree.nodesOf .function above [.node name start stop (children ++ passed)])
      (builder.walk (Tree.walkAll above [.node name start stop (children ++ passed)])) := by
  have hnode : Attempt certain (.rule name) true [.node name start stop (children ++ passed)] :=
    .rule start stop h hpassed
  have hfunction : name ≠ .function := by
    rintro rfl
    exact Bool.false_ne_true hinner
  have hnone : (Phrase.rule name).occurrences (· = .rule .function) = 0 := by
    simp [Phrase.occurrences, hfunction]
  have hbodies : (Phrase.rule name).occurrences (· = .rule .functionBody) = 0 := by
    simp [Phrase.occurrences, hname]
  rw [hnode.nodes_function_eq_nil hinner hnone]
  exact .of_pops (hnode.pops hinner hnone hbodies above builder)

/-- A walk of what was read leaves open the scopes of those functions that lack their body. -/
theorem Attempt.opens (h : Attempt certain phrase whole trees)
    (hphrase : phrase.mentionsOnly (· != .functionBody) = true) (above : List Rule)
    (builder : Builder) :
    builder.Opens (Tree.nodesOf .function above trees)
      (builder.walk (Tree.walkAll above trees)) := by
  induction h generalizing above builder with
  | empty | absent | starNil => exact .of_pops (.done builder)
  | leaf => exact .of_pops (.done builder)
  | @extra _ _ _ tree trees hleaf _ ih =>
      rw [Tree.nodes_of_cons, Tree.nodes_of_leaf hleaf, Tree.walkAll, Tree.walk_of_leaf hleaf]
      exact ih hphrase above builder
  | @rule certain _ name children passed start stop hbody hpassed ih =>
      by_cases hinner : name.isInner = true
      · exact hbody.opens_inner hpassed hinner (bne_iff_ne.1 hphrase) above start stop builder
      · -- functions stand in programs only, which do nothing but pass on to their parts
        rw [Tree.walkAll, Tree.walkAll, List.append_nil, Tree.nodes_of_node]
        cases name with
        | function =>
            have hflat := hbody.nodes_function_eq_nil (by decide) (by decide) (.function :: above)
            rw [if_pos rfl, Tree.nodes_of_passed hpassed, hflat]
            exact hbody.opens_function hpassed above start stop builder
        | program | programBody | functions =>
            rw [if_neg (by decide), Tree.nodes_of_passed hpassed,
              builder.walk_node_of_no_scope rfl (by decide) (by decide)]
            show builder.Opens _ (builder.walk (Tree.walkAll _ (children ++ passed)))
            rw [builder.walk_passed hpassed]
            exact ih (by decide) _ builder
        | _ => exact absurd rfl hinner
  | seq _ _ ih ih' =>
      rw [Phrase.mentionsOnly, Bool.and_eq_true] at hphrase
      rw [Tree.nodes_of_append, Tree.walk_all_append, Builder.walk_append]
      exact (ih hphrase.1 above builder).and_then fun next => ih' hphrase.2 above next
  | seqStuck _ ih =>
      rw [Phrase.mentionsOnly, Bool.and_eq_true] at hphrase
      exact ih hphrase.1 above builder
  | branch hmem _ ih => exact ih (Phrase.mentions_only_of_branch hmem hphrase) above builder
  | starCons _ _ ih ih' =>
      rw [Tree.nodes_of_append, Tree.walk_all_append, Builder.walk_append]
      exact (ih hphrase above builder).and_then fun next => ih' hphrase above next
  | starStuck _ ih => exact ih hphrase above builder

end Attempts

end Little
