import Little.Tree

/-!
# Walking a tree

An `Occurrence` is a part of a tree together with the rules above it, the nearest first. A walk
meets every node twice, before and after its parts, and every leaf once (`Tree.walk`).
-/

namespace Little

/-- A tree and the rules it stands under, the nearest first. -/
structure Occurrence where
  above : List Rule
  tree : Tree
deriving Repr, Inhabited

/-- What a walk comes by. -/
inductive Event where
  /-- A node, before its parts. -/
  | enter (node : Occurrence)
  /-- A node, after its parts. -/
  | exit (node : Occurrence)
  /-- A leaf. -/
  | leaf (leaf : Occurrence)
deriving Repr

namespace Occurrence

/-- Whether one of the rules above opens a block of its own. -/
def inControl (occurrence : Occurrence) : Bool := occurrence.above.any Rule.isControl

end Occurrence

namespace Tree

mutual

/-- A tree and all its parts, each before its own parts. -/
def occurrences (above : List Rule) : Tree → List Occurrence
  | .node rule start stop children =>
    ⟨above, .node rule start stop children⟩ :: occurrencesAll (rule :: above) children
  | .leaf token => [⟨above, .leaf token⟩]
  | .skipped token => [⟨above, .skipped token⟩]
  | .missing kind line column => [⟨above, .missing kind line column⟩]

/-- The parts of a row of trees. -/
def occurrencesAll (above : List Rule) : List Tree → List Occurrence
  | [] => []
  | tree :: trees => tree.occurrences above ++ occurrencesAll above trees

end

mutual

/-- The events of a walk through a tree. -/
def walk (above : List Rule) : Tree → List Event
  | .node rule start stop children =>
    .enter ⟨above, .node rule start stop children⟩ ::
      walkAll (rule :: above) children ++ [.exit ⟨above, .node rule start stop children⟩]
  | .leaf token => [.leaf ⟨above, .leaf token⟩]
  | .skipped token => [.leaf ⟨above, .skipped token⟩]
  | .missing kind line column => [.leaf ⟨above, .missing kind line column⟩]

/-- The events of a walk through a row of trees. -/
def walkAll (above : List Rule) : List Tree → List Event
  | [] => []
  | tree :: trees => tree.walk above ++ walkAll above trees

end

/-- The events of a walk through a whole tree. -/
def events (tree : Tree) : List Event := tree.walk []

/-- The `n`-th node of a rule, counted from 0 in the order in which a walk enters them. -/
def nthNode? (tree : Tree) (rule : Rule) (n : Nat) : Option Occurrence :=
  ((tree.occurrences []).filter (·.tree.rule? == some rule))[n]?

/-- The `n`-th leaf. -/
def nthLeaf? (tree : Tree) (n : Nat) : Option Occurrence :=
  ((tree.occurrences []).filter (!·.tree.isNode))[n]?

end Tree

namespace Occurrence

/-- The events of a walk through the part alone. -/
def events (occurrence : Occurrence) : List Event := occurrence.tree.walk occurrence.above

end Occurrence

end Little
