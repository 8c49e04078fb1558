import Little.Proofs.Grammar.Nodes
import Little.Proofs.Scope.Walk

/-!
# What is underway in a walk

A node is pending if a walk has entered it and not left it since. Wherever a walk meets a node, the
pending nodes are those that the node stands in, and a count of the pending ones that open a block
needs no look at them: it goes up and down as such nodes are entered and left. `Underway` says both
at once, and `Tree.underway` that it holds at every event of every walk.
-/

namespace Little

/-- Whether a node is an `IF`, an `ELSE` or a `WHILE`. -/
def Occurrence.isControl (node : Occurrence) : Bool := node.tree.rule?.any Rule.isControl

namespace Event

/-- The rules that are underway where an event is met, the innermost first. -/
def rules : Event → List Rule
  | .enter node => node.above
  | .exit node => node.tree.rule?.toList ++ node.above
  | .leaf part => part.above

/-- How many `IF`s, `ELSE`s and `WHILE`s are underway after an event, if so many were before. -/
def depth (depth : Nat) : Event → Nat
  | .enter node => if node.isControl then depth + 1 else depth
  | .exit node => if node.isControl then depth - 1 else depth
  | .leaf _ => depth

theorem depth_enter (count : Nat) (node : Occurrence) :
    depth count (.enter node) = if node.isControl then count + 1 else count := rfl

theorem depth_exit (count : Nat) (node : Occurrence) :
    depth count (.exit node) = if node.isControl then count - 1 else count := rfl

end Event

/-- A node was entered and not left since. -/
def Pending (events : List Event) (node : Occurrence) : Prop :=
  ∃ earlier later, events = earlier ++ .enter node :: later ∧ Event.exit node ∉ later

/-- What was not entered is not pending. -/
theorem not_pending_of_not_mem {events : List Event} {node : Occurrence}
    (h : Event.enter node ∉ events) : ¬ Pending events node := by
  rintro ⟨earlier, later, rfl, -⟩
  exact h (List.mem_append_right _ List.mem_cons_self)

/-- An event of two rows of events is one of the first or one of the second. -/
theorem exists_of_append_eq {front back before after : List Event} {event : Event}
    (h : front ++ back = before ++ event :: after) :
    (∃ rest, front = before ++ event :: rest) ∨
      ∃ rest, before = front ++ rest ∧ back = rest ++ event :: after := by
  rcases List.append_eq_append_iff.1 h with ⟨middle, hbefore, hback⟩ | ⟨middle, hfront, hmiddle⟩
  · exact .inr ⟨middle, hbefore, hback⟩
  · cases middle with
    | nil => exact .inr ⟨[], by simpa using hfront.symm, hmiddle.symm⟩
    | cons other middle =>
        obtain ⟨rfl, -⟩ := List.cons.inj hmiddle
        exact .inl ⟨middle, hfront⟩

theorem pending_append {front back : List Event} {node : Occurrence} :
    Pending (front ++ back) node ↔
      Pending back node ∨ Pending front node ∧ Event.exit node ∉ back := by
  constructor
  · rintro ⟨earlier, later, h, hexit⟩
    rcases exists_of_append_eq h with ⟨rest, rfl⟩ | ⟨rest, rfl, rfl⟩
    · have hlater : later = rest ++ back := by simpa using h.symm
      rw [hlater, List.mem_append, not_or] at hexit
      exact .inr ⟨⟨earlier, rest, rfl, hexit.1⟩, hexit.2⟩
    · exact .inl ⟨rest, later, rfl, hexit⟩
  · rintro (⟨earlier, later, rfl, hexit⟩ | ⟨⟨earlier, later, rfl, hexit⟩, hback⟩)
    · exact ⟨front ++ earlier, later, by simp, hexit⟩
    · exact ⟨earlier, later ++ back, by simp, by simp [hexit, hback]⟩

theorem pending_enter {node other : Occurrence} {events : List Event} :
    Pending (.enter other :: events) node ↔
      Pending events node ∨ node = other ∧ Event.exit node ∉ events := by
  have hfirst : Pending [.enter other] node ↔ node = other := by
    constructor
    · rintro ⟨earlier, later, h, -⟩
      cases earlier with
      | nil => exact (Event.enter.inj (List.cons.inj h).1).symm
      | cons event earlier => simp at h
    · rintro rfl
      exact ⟨[], [], rfl, List.not_mem_nil⟩
  rw [← List.singleton_append, pending_append, hfirst]

/-- Events that leave nothing pending and whatever was counted before as it was. -/
structure Balanced (events : List Event) : Prop where
  settled : ∀ node, ¬ Pending events node
  depth : ∀ depth, events.foldl Event.depth depth = depth

namespace Balanced

variable {events more : List Event}

theorem nil : Balanced [] := ⟨fun _ => not_pending_of_not_mem List.not_mem_nil, fun _ => rfl⟩

theorem leaf (leaf : Occurrence) : Balanced [.leaf leaf] where
  settled _ := not_pending_of_not_mem (by simp)
  depth _ := rfl

theorem append (h : Balanced events) (hmore : Balanced more) : Balanced (events ++ more) where
  settled := by
    intro node hnode
    rcases pending_append.1 hnode with hnode | ⟨hnode, -⟩
    · exact hmore.settled node hnode
    · exact h.settled node hnode
  depth depth := by rw [List.foldl_append, h.depth, hmore.depth]

/-- A node that is entered and left around balanced events leaves nothing behind. -/
theorem node (h : Balanced events) (node : Occurrence) :
    Balanced (.enter node :: events ++ [.exit node]) where
  settled := by
    intro other hother
    rcases pending_append.1 hother with hother | ⟨hother, hexit⟩
    · exact not_pending_of_not_mem (by simp) hother
    · rcases pending_enter.1 hother with hother | ⟨rfl, -⟩
      · exact h.settled other hother
      · exact hexit (List.mem_singleton_self _)
  depth depth := by
    rw [List.cons_append, List.foldl_cons, List.foldl_append, h.depth, List.foldl_cons,
      List.foldl_nil, Event.depth_exit, Event.depth_enter]
    split
    · exact Nat.add_sub_cancel depth 1
    · rfl

end Balanced

namespace Tree

mutual

/-- A walk enters and leaves every node of the tree. -/
theorem met_of_mem {above : List Rule} {tree : Tree} {node : Occurrence}
    (h : node ∈ tree.occurrences above) (hnode : node.tree.isNode = true) :
    .enter node ∈ tree.walk above ∧ .exit node ∈ tree.walk above := by
  cases tree with
  | node rule start stop children =>
      simp only [walk, List.cons_append, List.mem_cons, List.mem_append, List.not_mem_nil,
        or_false, reduceCtorEq, false_or, Event.enter.injEq, Event.exit.injEq]
      rcases List.mem_cons.1 h with rfl | h
      · exact ⟨.inl rfl, .inr rfl⟩
      · exact (met_of_mem_all h hnode).imp .inr .inl
  | leaf | skipped | missing =>
      obtain rfl := List.mem_singleton.1 h
      exact absurd hnode Bool.false_ne_true

theorem met_of_mem_all {above : List Rule} {trees : List Tree} {node : Occurrence}
    (h : node ∈ occurrencesAll above trees) (hnode : node.tree.isNode = true) :
    .enter node ∈ walkAll above trees ∧ .exit node ∈ walkAll above trees := by
  cases trees with
  | nil => exact absurd h List.not_mem_nil
  | cons tree trees =>
      rw [occurrencesAll, List.mem_append] at h
      simp only [walkAll, List.mem_append]
      rcases h with h | h
      · exact (met_of_mem h hnode).imp .inl .inl
      · exact (met_of_mem_all h hnode).imp .inr .inr

end

mutual

/-- What is left in a walk stands where the walk began, or inside. -/
theorem above_of_exit {above : List Rule} {tree : Tree} {node : Occurrence}
    (h : Event.exit node ∈ tree.walk above) : above <:+ node.above := by
  cases tree with
  | node rule start stop children =>
      simp only [walk, List.cons_append, List.mem_cons, List.mem_append, List.not_mem_nil,
        or_false, reduceCtorEq, false_or, Event.exit.injEq] at h
      rcases h with h | rfl
      · exact (List.suffix_cons rule above).trans (above_of_exit_all h)
      · exact List.suffix_refl above
  | leaf | skipped | missing => exact absurd (List.mem_singleton.1 h) nofun

theorem above_of_exit_all {above : List Rule} {trees : List Tree} {node : Occurrence}
    (h : Event.exit node ∈ walkAll above trees) : above <:+ node.above := by
  cases trees with
  | nil => exact absurd h List.not_mem_nil
  | cons tree trees =>
      rw [walkAll, List.mem_append] at h
      rcases h with h | h
      · exact above_of_exit h
      · exact above_of_exit_all h

end

mutual

theorem balanced_walk (above : List Rule) (tree : Tree) : Balanced (tree.walk above) := by
  cases tree with
  | node rule start stop children => exact (balanced_walk_all (rule :: above) children).node _
  | leaf | skipped | missing => exact .leaf _

theorem balanced_walk_all (above : List Rule) (trees : List Tree) :
    Balanced (walkAll above trees) := by
  cases trees with
  | nil => exact .nil
  | cons tree trees => exact (balanced_walk above tree).append (balanced_walk_all above trees)

end

/-- A node is not left while its parts are walked through. -/
theorem exit_not_mem_walk_all (above : List Rule) (rule : Rule) (trees : List Tree) (tree : Tree) :
    Event.exit ⟨above, tree⟩ ∉ walkAll (rule :: above) trees := by
  intro h
  have hlength := (above_of_exit_all h).length_le
  exact absurd hlength (Nat.not_succ_le_self above.length)

end Tree

/-- `Underway above before event` says what is known at an event behind others, in a walk that began
under some rules. The rules entered since then are those of the pending nodes, and the count of
those that open a block has gone up by as many as there are among them. -/
def Underway (above : List Rule) (before : List Event) (event : Event) : Prop :=
  ∃ inner, event.rules = inner ++ above ∧
    (∀ rule, rule ∈ inner ↔ ∃ node, Pending before node ∧ node.tree.rule? = some rule) ∧
    ∀ depth, before.foldl Event.depth depth = depth + inner.countP Rule.isControl

namespace Underway

variable {above : List Rule} {before events : List Event} {event : Event}

theorem here (h : event.rules = above) : Underway above [] event := by
  refine ⟨[], h, fun rule => ?_, fun _ => rfl⟩
  exact iff_of_false List.not_mem_nil fun ⟨_, hnode, _⟩ =>
    not_pending_of_not_mem List.not_mem_nil hnode

/-- Balanced events in front change nothing. -/
theorem behind (h : Underway above before event) (hevents : Balanced events) :
    Underway above (events ++ before) event := by
  obtain ⟨inner, hrules, hpending, hdepth⟩ := h
  refine ⟨inner, hrules, fun rule => ?_, fun depth => ?_⟩
  · simp only [hpending, pending_append, hevents.settled, false_and, or_false]
  · rw [List.foldl_append, hevents.depth, hdepth]

/-- What is underway inside a node is underway around it, together with the node itself. -/
theorem inside {rule : Rule} {start : Token} {stop : Option Token} {children : List Tree}
    (h : Underway (rule :: above) before event)
    (hexit : Event.exit ⟨above, .node rule start stop children⟩ ∉ before) :
    Underway above (.enter ⟨above, .node rule start stop children⟩ :: before) event := by
  obtain ⟨inner, hrules, hpending, hdepth⟩ := h
  refine ⟨inner ++ [rule], by simp [hrules], fun other => ?_, fun depth => ?_⟩
  · rw [List.mem_append, hpending, List.mem_singleton]
    constructor
    · rintro (⟨node, hnode, hrule⟩ | rfl)
      · exact ⟨node, pending_enter.2 (.inl hnode), hrule⟩
      · exact ⟨_, pending_enter.2 (.inr ⟨rfl, hexit⟩), rfl⟩
    · rintro ⟨node, hnode, hrule⟩
      rcases pending_enter.1 hnode with hnode | ⟨rfl, -⟩
      · exact .inl ⟨node, hnode, hrule⟩
      · exact .inr (Option.some.inj hrule).symm
  · have hself : (Occurrence.mk above (.node rule start stop children)).isControl =
        rule.isControl := rfl
    rw [List.foldl_cons, hdepth, List.countP_append, List.countP_singleton, Event.depth_enter,
      hself]
    split
    · rw [Nat.add_assoc, Nat.add_comm 1]
    · rfl

end Underway

namespace Tree

mutual

/-- At every event of a walk the pending nodes are those around it. -/
theorem underway {above : List Rule} {tree : Tree} {before after : List Event} {event : Event}
    (h : tree.walk above = before ++ event :: after) : Underway above before event := by
  cases tree with
  | node rule start stop children =>
      rw [walk, List.cons_append] at h
      cases before with
      | nil =>
          obtain ⟨rfl, -⟩ := List.cons.inj h
          exact .here rfl
      | cons first before =>
          obtain ⟨rfl, hrest⟩ := List.cons.inj h
          rcases exists_of_append_eq hrest with ⟨rest, hparts⟩ | ⟨rest, rfl, hlast⟩
          · refine (underway_all hparts).inside fun hexit => ?_
            refine exit_not_mem_walk_all above rule children (.node rule start stop children) ?_
            rw [hparts]
            exact List.mem_append_left _ hexit
          · -- the parts have been walked through, and the node is left
            cases rest with
            | nil =>
                obtain ⟨rfl, -⟩ := List.cons.inj hlast
                have hparts : Underway (rule :: above) (walkAll (rule :: above) children ++ [])
                    (.exit ⟨above, .node rule start stop children⟩) :=
                  (Underway.here rfl).behind (balanced_walk_all (rule :: above) children)
                rw [List.append_nil] at hparts ⊢
                exact hparts.inside (exit_not_mem_walk_all above rule children _)
            | cons other rest => simp at hlast
  | leaf | skipped | missing =>
      cases before with
      | nil =>
          obtain ⟨rfl, -⟩ := List.cons.inj h
          exact .here rfl
      | cons first before => simp [walk] at h

theorem underway_all {above : List Rule} {trees : List Tree} {before after : List Event}
    {event : Event} (h : walkAll above trees = before ++ event :: after) :
    Underway above before event := by
  cases trees with
  | nil => simp [walkAll] at h
  | cons tree trees =>
      rw [walkAll] at h
      rcases exists_of_append_eq h with ⟨rest, htree⟩ | ⟨rest, rfl, htrees⟩
      · exact underway htree
      · exact (underway_all htrees).behind (balanced_walk above tree)

end

end Tree

end Little
