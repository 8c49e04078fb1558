import Little.Scope.Declaration
import Little.Scope.Report
import Little.Tree.Occurrence

/-!
# Building the table

A `Builder` turns the events of a walk into a symbol table. A function opens a scope of its name,
which its body closes. An `IF`, an `ELSE` and a `WHILE` open a block and close it, and so does a
list of statements that stands in none of these. Blocks are numbered from 1 in the order in which
they are opened, over the whole program. A block that is closed without a symbol leaves the table.
When a scope is closed, declarations go to the global scope again.

An event that cannot be carried out halts the walk and leaves what was done before (`Outcome`).
-/

namespace Little

/-- Something the builder did, for those who want to follow it. -/
inductive Notice where
  | opened (scope : String)
  | closed (scope : String)
  /-- A block was closed without a symbol. -/
  | dropped (scope : String)
  | declared (scope : String) (symbol : Symbol)
  | duplicate (scope : String) (name : String)
deriving DecidableEq, Repr

def Notice.message : Notice → String
  | .opened scope => "abre alcance " ++ scope
  | .closed scope => "cierra alcance " ++ scope
  | .dropped scope => "descarta bloque vacío " ++ scope
  | .declared scope symbol => scope ++ ": " ++ symbol.render
  | .duplicate scope name => "declaración duplicada de " ++ name ++ " en " ++ scope

/-- Why an event cannot be carried out. -/
inductive Halt where
  | semantic (error : SemanticError)
  /-- The tree lacks a part that is needed. -/
  | missingPart
  /-- No scope is open that could be closed. -/
  | noOpenScope
  /-- The scope to be dropped is not in the table. -/
  | unlistedScope
deriving DecidableEq, Repr

/-- The state of the scope pass. -/
structure Builder where
  table : SymbolTable
  /-- The scope that declarations go to. -/
  current : Handle
  /-- The number of the next block. -/
  nextBlock : Nat
  /-- The open scopes, the innermost first. -/
  opened : List Handle
  /-- What was done, the latest first. -/
  notices : List Notice
deriving DecidableEq, Repr

/-- What an event leads to. -/
structure Outcome where
  builder : Builder
  halt : Option Halt
deriving DecidableEq, Repr

namespace Outcome

/-- All went well. -/
def done (builder : Builder) : Outcome := ⟨builder, none⟩

/-- Goes on unless halted. -/
def andThen (outcome : Outcome) (next : Builder → Outcome) : Outcome :=
  match outcome.halt with
  | some _ => outcome
  | none => next outcome.builder

end Outcome

namespace Builder

/-- The handle of the global scope. -/
def globalScope : Handle := 0

/-- A builder that has done nothing but make the global scope. -/
def start : Builder where
  table := SymbolTable.empty.add globalName .global
  current := globalScope
  nextBlock := 1
  opened := []
  notices := []

def note (builder : Builder) (notice : Notice) : Builder :=
  { builder with notices := notice :: builder.notices }

/-- Declares a symbol in the current scope. -/
def declare (builder : Builder) (symbol : Symbol) (place : Location) : Outcome :=
  let scope := builder.table.nameOf builder.current
  match builder.table.define builder.current symbol place with
  | .ok table => .done ({ builder with table := table }.note (.declared scope symbol))
  | .error error => ⟨builder.note (.duplicate scope symbol.name), some (.semantic error)⟩

/-- Declares one symbol after the other, up to the first that is unusable or taken. -/
def declareAll (builder : Builder) : List (Option Declaration) → Outcome
  | [] => .done builder
  | none :: _ => ⟨builder, some .missingPart⟩
  | some declaration :: rest =>
    (builder.declare declaration.symbol declaration.place).andThen (·.declareAll rest)

/-- Opens a scope, which becomes the innermost and the current one. -/
def openScope (builder : Builder) (name : String) (kind : ScopeKind) : Builder :=
  let handle := builder.table.nextHandle
  { builder with
    table := builder.table.add name kind
    current := handle
    opened := handle :: builder.opened }.note (.opened name)

/-- Opens the next block. -/
def openBlock (builder : Builder) : Builder :=
  { builder with nextBlock := builder.nextBlock + 1 }.openScope (blockName builder.nextBlock)
    .block

/-- Whether a scope is a block without symbols. -/
def isEmptyBlock (builder : Builder) (handle : Handle) : Bool :=
  (builder.table.scope? handle).any fun scope => scope.kind = .block && scope.isEmpty

/-- Closes the innermost scope. -/
def close (builder : Builder) : Outcome :=
  match builder.opened with
  | [] => ⟨builder, some .noOpenScope⟩
  | handle :: opened =>
    let name := builder.table.nameOf handle
    let builder := { builder with opened := opened }
    if builder.isEmptyBlock handle then
      match builder.table.discard handle with
      | some table =>
        .done ({ builder with table := table, current := globalScope }.note (.dropped name))
      | none => ⟨builder, some .unlistedScope⟩
    else .done ({ builder with current := globalScope }.note (.closed name))

end Builder

/-- Whether a node has a block of its own: an `IF`, an `ELSE`, a `WHILE`, or a list of statements
that stands in none of these. -/
def Occurrence.hasBlock (node : Occurrence) : Bool :=
  match node.tree.rule? with
  | some .statements => !node.inControl
  | some rule => rule.isControl
  | none => false

namespace Builder

/-- Carries out what is due before the parts of a node. -/
def enter (builder : Builder) (node : Occurrence) : Outcome :=
  if node.hasBlock then .done builder.openBlock
  else if node.tree.rule? = some .function then
    match node.tree.childOf? .ident with
    | some ident => .done (builder.openScope ident.text .function)
    | none => ⟨builder, some .missingPart⟩
  else builder.declareAll node.tree.declarations

/-- Carries out what is due after the parts of a node. -/
def exit (builder : Builder) (node : Occurrence) : Outcome :=
  if node.hasBlock || node.tree.rule? = some .functionBody then builder.close
  else .done builder

/-- Carries out an event. -/
def step (builder : Builder) : Event → Outcome
  | .enter node => builder.enter node
  | .exit node => builder.exit node
  | .leaf _ => .done builder

/-- Carries out events up to the first that halts. -/
def walk (builder : Builder) : List Event → Outcome
  | [] => .done builder
  | event :: events => (builder.step event).andThen (·.walk events)

end Builder

/-- The symbol table of a tree. -/
def analyze (tree : Tree) : Except Halt SymbolTable :=
  let outcome := Builder.start.walk tree.events
  match outcome.halt with
  | none => .ok outcome.builder.table
  | some halt => .error halt

end Little
