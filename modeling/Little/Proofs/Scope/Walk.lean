import Little.Scope.Builder

/-!
# Walks in parts

A walk through a row of trees is a walk through the first of them and then through the rest, for
the events (`Tree.walk_all_append`) and for what the builder makes of them (`Builder.walk_append`).
A node without a scope of its own makes its declarations and passes on to its parts
(`Builder.walk_node_of_no_scope`), a node with a block opens and closes it around them
(`Builder.walk_node_of_block`), and leaves are met without any effect.
-/

namespace Little

namespace Tree

theorem walk_all_append (above : List Rule) (trees more : List Tree) :
    walkAll above (trees ++ more) = walkAll above trees ++ walkAll above more := by
  induction trees with
  | nil => rfl
  | cons tree trees ih => simp [walkAll, ih]

theorem walk_of_leaf {above : List Rule} {tree : Tree} (h : tree.isNode = false) :
    tree.walk above = [.leaf ⟨above, tree⟩] := by
  cases tree with
  | node => exact absurd h.symm Bool.false_ne_true
  | _ => rfl

end Tree

namespace Outcome

@[simp] theorem done_and_then (builder : Builder) (next : Builder → Outcome) :
    (done builder).andThen next = next builder := rfl

theorem and_then_assoc (outcome : Outcome) (next further : Builder → Outcome) :
    (outcome.andThen next).andThen further =
      outcome.andThen fun builder => (next builder).andThen further := by
  cases hhalt : outcome.halt <;> simp [andThen, hhalt]

theorem and_then_done (outcome : Outcome) : outcome.andThen done = outcome := by
  obtain ⟨builder, _ | halt⟩ := outcome <;> rfl

end Outcome

namespace Builder

theorem walk_append (builder : Builder) (events more : List Event) :
    builder.walk (events ++ more) = (builder.walk events).andThen (·.walk more) := by
  induction events generalizing builder with
  | nil => rfl
  | cons event events ih =>
      simp only [List.cons_append, walk, Outcome.and_then_assoc]
      exact congrArg _ (funext ih)

theorem walk_leaf (builder : Builder) (above : List Rule) (token : Token) :
    builder.walk ((Tree.leaf token).walk above) = .done builder := rfl

/-- A node is entered, its parts are walked through, and it is left. -/
theorem walk_node (builder : Builder) (above : List Rule) (name : Rule) (start : Token)
    (stop : Option Token) (children : List Tree) :
    builder.walk ((Tree.node name start stop children).walk above) =
      ((builder.enter ⟨above, .node name start stop children⟩).andThen
        (·.walk (Tree.walkAll (name :: above) children))).andThen
          (·.exit ⟨above, .node name start stop children⟩) := by
  have hexit (next : Builder) : next.walk [.exit ⟨above, .node name start stop children⟩] =
      next.exit ⟨above, .node name start stop children⟩ := Outcome.and_then_done _
  simp only [Tree.walk, List.cons_append, walk, step, walk_append, Outcome.and_then_assoc]
  exact congrArg _ (funext fun next => congrArg _ (funext hexit))

/-- A node without a scope of its own makes its declarations, and its parts are walked through. -/
theorem walk_node_of_no_scope (builder : Builder) {above : List Rule} {name : Rule}
    {start : Token} {stop : Option Token} {children : List Tree}
    (hblock : (Occurrence.mk above (.node name start stop children)).hasBlock = false)
    (hfunction : name ≠ .function) (hbody : name ≠ .functionBody) :
    builder.walk ((Tree.node name start stop children).walk above) =
      (builder.declareAll (Tree.node name start stop children).declarations).andThen
        (·.walk (Tree.walkAll (name :: above) children)) := by
  have henter : builder.enter ⟨above, .node name start stop children⟩ =
      builder.declareAll (Tree.node name start stop children).declarations := by
    rw [enter, if_neg (ne_true_of_eq_false hblock),
      if_neg (by simpa [Tree.rule?] using hfunction)]
  have hexit : (fun next : Builder => next.exit ⟨above, .node name start stop children⟩) =
      Outcome.done := by
    funext next
    rw [exit, hblock, Bool.false_or, if_neg (by simpa [Tree.rule?] using hbody)]
  rw [walk_node, henter, hexit, Outcome.and_then_done]

/-- A node with a block of its own opens it, its parts are walked through, and it is closed. -/
theorem walk_node_of_block (builder : Builder) {above : List Rule} {name : Rule} {start : Token}
    {stop : Option Token} {children : List Tree}
    (hblock : (Occurrence.mk above (.node name start stop children)).hasBlock = true) :
    builder.walk ((Tree.node name start stop children).walk above) =
      (builder.openBlock.walk (Tree.walkAll (name :: above) children)).andThen Builder.close := by
  have henter : builder.enter ⟨above, .node name start stop children⟩ =
      .done builder.openBlock := by
    rw [enter, if_pos hblock]
  have hexit : (fun next : Builder => next.exit ⟨above, .node name start stop children⟩) =
      Builder.close := by
    funext next
    rw [exit, hblock, Bool.true_or, if_pos rfl]
  rw [walk_node, henter, hexit, Outcome.done_and_then]

end Builder

end Little
