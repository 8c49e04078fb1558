import Little.Scope.Builder

/-!
# Following a walk step by step

A trace notes after each event at a node what the builder looks like, where it looks different from
the last time it was noted.
-/

namespace Little

/-- What can be seen of a builder. -/
structure Snapshot where
  /-- The name of the current scope. -/
  current : String
  nextBlock : Nat
  /-- The names of the open scopes, the outermost first. -/
  opened : List String
  /-- Name, kind and number of symbols of each scope in the table. -/
  table : List (String × ScopeKind × Nat)
deriving DecidableEq, Repr

/-- What can be seen of a builder. -/
def Builder.snapshot (builder : Builder) : Snapshot where
  current := builder.table.nameOf builder.current
  nextBlock := builder.nextBlock
  opened := (builder.opened.map builder.table.nameOf).reverse
  table := builder.table.listed.map fun scope => (scope.name, scope.kind, scope.symbols.length)

/-- A node that was entered or left. -/
structure TraceStep where
  entered : Bool
  rule : Rule
  inControl : Bool
  /-- What the builder looks like, if it does not look as before. -/
  snapshot : Option Snapshot
deriving DecidableEq, Repr

/-- The steps of a walk and what it leads to. -/
structure Trace where
  steps : List TraceStep
  outcome : Outcome
deriving Repr

namespace Trace

/-- The node of an event, and whether it is entered. -/
def nodeOf? : Event → Option (Bool × Occurrence)
  | .enter node => some (true, node)
  | .exit node => some (false, node)
  | .leaf _ => none

/-- Follows events, where `last` is what was noted last. -/
def follow (last : Option Snapshot) (builder : Builder) : List Event → Trace
  | [] => ⟨[], .done builder⟩
  | event :: events =>
    let outcome := builder.step event
    match outcome.halt with
    | some _ => ⟨[], outcome⟩
    | none =>
      match nodeOf? event with
      | none => follow last outcome.builder events
      | some (entered, node) =>
        let snapshot := outcome.builder.snapshot
        let rest := follow (some snapshot) outcome.builder events
        let shown := if last = some snapshot then none else some snapshot
        match node.tree.rule? with
        | some rule => { rest with steps := ⟨entered, rule, node.inControl, shown⟩ :: rest.steps }
        | none => rest

/-- The trace of a whole tree. -/
def ofTree (tree : Tree) : Trace := follow none .start tree.events

end Trace

end Little
