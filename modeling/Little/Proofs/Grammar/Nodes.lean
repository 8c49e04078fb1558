import Little.Proofs.Grammar.Spells
import Little.Tree.Occurrence

/-!
# The nodes of a tree

`Tree.nodesOf` lists the nodes of one rule in a row of trees, however deep they lie, in the order in
which a walk enters them. A walk meets nothing but parts of the tree (`Tree.mem_of_meets`), and the
nodes of a derivation tree are derivation trees themselves (`Derives.of_node`).
-/

namespace Little

/-- Whether an event enters or leaves a node. -/
def Event.Meets (event : Event) (node : Occurrence) : Prop :=
  event = .enter node ∨ event = .exit node

namespace Tree

@[simp] theorem occurrences_all_append (above : List Rule) (front back : List Tree) :
    occurrencesAll above (front ++ back) =
      occurrencesAll above front ++ occurrencesAll above back := by
  induction front with
  | nil => rfl
  | cons tree front ih => simp only [List.cons_append, occurrencesAll, ih, List.append_assoc]

theorem occurrences_all_singleton (above : List Rule) (tree : Tree) :
    occurrencesAll above [tree] = tree.occurrences above := List.append_nil _

theorem occurrences_of_leaf {above : List Rule} {tree : Tree} (h : tree.isNode = false) :
    tree.occurrences above = [⟨above, tree⟩] := by
  cases tree with
  | node => exact absurd h.symm Bool.false_ne_true
  | _ => rfl

theorem rule_of_leaf {tree : Tree} (h : tree.isNode = false) : tree.rule? = none := by
  cases tree with
  | node => exact absurd h.symm Bool.false_ne_true
  | _ => rfl

/-- What stands in a row of trees is part of it. -/
theorem mem_occurrences_all (above : List Rule) {tree : Tree} {trees : List Tree}
    (h : tree ∈ trees) : ⟨above, tree⟩ ∈ occurrencesAll above trees := by
  induction trees with
  | nil => exact absurd h List.not_mem_nil
  | cons other trees ih =>
      rw [occurrencesAll, List.mem_append]
      rcases List.mem_cons.1 h with rfl | h
      · left
        cases tree with
        | node => exact List.mem_cons_self
        | leaf | skipped | missing => exact List.mem_singleton_self _
      · exact .inr (ih h)

mutual

/-- A walk enters and leaves nothing but parts of the tree. -/
theorem mem_of_meets {above : List Rule} {tree : Tree} {event : Event} {node : Occurrence}
    (h : event ∈ tree.walk above) (hmeets : event.Meets node) :
    node ∈ tree.occurrences above := by
  cases tree with
  | node rule start stop children =>
      simp only [walk, List.cons_append, List.mem_cons, List.mem_append, List.not_mem_nil,
        or_false] at h
      rw [occurrences, List.mem_cons]
      rcases h with rfl | h | rfl
      · exact .inl (by simpa [Event.Meets, eq_comm] using hmeets)
      · exact .inr (mem_of_meets_all h hmeets)
      · exact .inl (by simpa [Event.Meets, eq_comm] using hmeets)
  | leaf | skipped | missing =>
      obtain rfl := List.mem_singleton.1 h
      simp [Event.Meets] at hmeets

theorem mem_of_meets_all {above : List Rule} {trees : List Tree} {event : Event}
    {node : Occurrence} (h : event ∈ walkAll above trees) (hmeets : event.Meets node) :
    node ∈ occurrencesAll above trees := by
  cases trees with
  | nil => exact absurd h List.not_mem_nil
  | cons tree trees =>
      rw [walkAll, List.mem_append] at h
      rw [occurrencesAll, List.mem_append]
      exact h.imp (mem_of_meets · hmeets) (mem_of_meets_all · hmeets)

end

theorem mem_of_enter {above : List Rule} {tree : Tree} {node : Occurrence}
    (h : Event.enter node ∈ tree.walk above) : node ∈ tree.occurrences above :=
  mem_of_meets h (.inl rfl)

/-- The nodes of a rule in a row of trees, each before those inside it. -/
def nodesOf (rule : Rule) (above : List Rule) (trees : List Tree) : List Occurrence :=
  (occurrencesAll above trees).filter (·.tree.rule? == some rule)

section Nodes

variable {rule name : Rule} {above : List Rule} {tree : Tree} {trees : List Tree}

@[simp] theorem nodes_of_append (rule : Rule) (above : List Rule) (front back : List Tree) :
    nodesOf rule above (front ++ back) = nodesOf rule above front ++ nodesOf rule above back := by
  rw [nodesOf, occurrences_all_append, List.filter_append]
  rfl

theorem nodes_of_cons (rule : Rule) (above : List Rule) (tree : Tree) (trees : List Tree) :
    nodesOf rule above (tree :: trees) = nodesOf rule above [tree] ++ nodesOf rule above trees :=
  nodes_of_append rule above [tree] trees

theorem nodes_of_leaf (h : tree.isNode = false) : nodesOf rule above [tree] = [] := by
  rw [nodesOf, occurrencesAll, occurrencesAll, List.append_nil, occurrences_of_leaf h]
  simp [rule_of_leaf h]

theorem nodes_of_leaves (h : ∀ tree ∈ trees, tree.isNode = false) :
    nodesOf rule above trees = [] := by
  induction trees with
  | nil => rfl
  | cons tree trees ih =>
      rw [List.forall_mem_cons] at h
      rw [nodes_of_cons, nodes_of_leaf h.1, ih h.2, List.append_nil]

/-- No part of a leaf is a node. -/
theorem rule_of_leaves {node : Occurrence} (h : ∀ tree ∈ trees, tree.isNode = false)
    (hmem : node ∈ occurrencesAll above trees) : node.tree.rule? = none := by
  rw [Option.eq_none_iff_forall_ne_some]
  intro name hrule
  have hnodes : node ∈ nodesOf name above trees :=
    List.mem_filter.2 ⟨hmem, by rw [hrule]; exact beq_self_eq_true _⟩
  rw [nodes_of_leaves h] at hnodes
  exact absurd hnodes List.not_mem_nil

/-- Leaves that are passed behind some trees add no nodes. -/
theorem nodes_of_passed {passed : List Tree} (h : ∀ leaf ∈ passed, leaf.isNode = false) :
    nodesOf rule above (trees ++ passed) = nodesOf rule above trees := by
  rw [nodes_of_append, nodes_of_leaves h, List.append_nil]

/-- The nodes of a rule in a node are that node, if it is one of them, and those inside. -/
theorem nodes_of_node (rule name : Rule) (above : List Rule) (start : Token) (stop : Option Token)
    (children : List Tree) :
    nodesOf rule above [.node name start stop children] =
      if name = rule then
        ⟨above, .node name start stop children⟩ :: nodesOf rule (name :: above) children
      else nodesOf rule (name :: above) children := by
  rw [nodesOf, occurrencesAll, occurrencesAll, List.append_nil, occurrences, List.filter_cons]
  simp only [rule?, beq_iff_eq, Option.some.injEq]
  rfl

end Nodes

end Tree

/-- Every node of a derivation tree derives some of its tokens from its own rule. -/
theorem Derives.of_node {phrase : Phrase} {tokens : List Token} {trees : List Tree}
    (h : Derives phrase tokens trees) {above : List Rule} {node : Occurrence} {name : Rule}
    (hmem : node ∈ Tree.occurrencesAll above trees) (hname : node.tree.rule? = some name) :
    ∃ part, part ⊆ tokens ∧ node.tree.IsDerivation name part := by
  induction h generalizing above with
  | empty | optNone | starNil => exact absurd hmem List.not_mem_nil
  | token | oneOf =>
      obtain rfl := List.mem_singleton.1 hmem
      exact absurd hname.symm (Option.some_ne_none _)
  | @rule rule tokens _ start stop hbody ih =>
      simp only [Tree.occurrencesAll, Tree.occurrences, List.append_nil, List.mem_cons] at hmem
      rcases hmem with rfl | hmem
      · obtain rfl : rule = name := Option.some.inj hname
        exact ⟨tokens, List.Subset.refl _, .rule start stop hbody⟩
      · exact ih hmem
  | seq _ _ ih ih' | starCons _ _ ih ih' =>
      rw [Tree.occurrences_all_append, List.mem_append] at hmem
      rcases hmem with hmem | hmem
      · obtain ⟨part, hpart, hnode⟩ := ih hmem
        exact ⟨part, List.subset_append_of_subset_left _ hpart, hnode⟩
      · obtain ⟨part, hpart, hnode⟩ := ih' hmem
        exact ⟨part, List.subset_append_of_subset_right _ hpart, hnode⟩
  | altLeft _ ih | altRight _ ih | optSome _ ih | forkLeft _ ih | forkRight _ ih => exact ih hmem

end Little
