import Little.Scope.Symbol

/-!
# The symbol table

A table holds scopes in the order in which they were added. Scopes are told apart by their handles,
not by their names: several may have one name, and a scope that was discarded can still be used by
its handle. `scopes` keeps every scope ever added, at the position its handle gives; `order` lists
the handles of those that are still in the table.
-/

namespace Little

/-- What a scope belongs to. -/
inductive ScopeKind where
  | global
  | function
  | block
  | other (label : String)
deriving DecidableEq, Repr

namespace ScopeKind

def label : ScopeKind → String
  | .global => "GLOBAL"
  | .function => "FUNCTION"
  | .block => "BLOCK"
  | .other label => label

/-- The kind of that label. -/
def ofLabel : String → ScopeKind
  | "GLOBAL" => .global
  | "FUNCTION" => .function
  | "BLOCK" => .block
  | label => .other label

end ScopeKind

/-- A scope with its symbols in the order in which they were declared. -/
structure Scope where
  name : String
  kind : ScopeKind
  symbols : List Symbol
deriving DecidableEq, Repr

namespace Scope

/-- The symbol of that name. -/
def lookup (scope : Scope) (name : String) : Option Symbol :=
  scope.symbols.find? (·.name == name)

/-- Adds a symbol behind the others, unless its name is taken. -/
def define (scope : Scope) (symbol : Symbol) (place : Location) : Except SemanticError Scope :=
  match scope.lookup symbol.name with
  | some _ => .error (.duplicate symbol.name place)
  | none => .ok { scope with symbols := scope.symbols ++ [symbol] }

def isEmpty (scope : Scope) : Bool := scope.symbols.isEmpty

end Scope

/-- How a scope is known, whatever its name. -/
abbrev Handle := Nat

/-- A symbol table. -/
structure SymbolTable where
  /-- Every scope ever added. -/
  scopes : List Scope
  /-- The scopes that are in the table, in the order in which they were added. -/
  order : List Handle
deriving DecidableEq, Repr

namespace SymbolTable

def empty : SymbolTable := ⟨[], []⟩

/-- The handle that the next scope will have. -/
def nextHandle (table : SymbolTable) : Handle := table.scopes.length

/-- Adds a scope without symbols. Its handle is `table.nextHandle`. -/
def add (table : SymbolTable) (name : String) (kind : ScopeKind) : SymbolTable :=
  ⟨table.scopes ++ [⟨name, kind, []⟩], table.order ++ [table.nextHandle]⟩

/-- The scope of a handle, discarded or not. -/
def scope? (table : SymbolTable) (handle : Handle) : Option Scope := table.scopes[handle]?

/-- The name of the scope of a handle. -/
def nameOf (table : SymbolTable) (handle : Handle) : String :=
  ((table.scope? handle).map (·.name)).getD ""

/-- Adds a symbol to the scope of a handle. -/
def define (table : SymbolTable) (handle : Handle) (symbol : Symbol) (place : Location) :
    Except SemanticError SymbolTable :=
  match table.scope? handle with
  | none => .ok table
  | some scope =>
    (scope.define symbol place).map fun scope =>
      { table with scopes := table.scopes.set handle scope }

/-- Takes a scope out of the table; fails if it is not in it. -/
def discard (table : SymbolTable) (handle : Handle) : Option SymbolTable :=
  if table.order.contains handle then
    some { table with order := table.order.erase handle }
  else none

/-- The scopes in the table. -/
def listed (table : SymbolTable) : List Scope := table.order.filterMap table.scope?

/-- The handle of the first scope of that name. -/
def get? (table : SymbolTable) (name : String) : Option Handle :=
  table.order.find? fun handle => (table.scope? handle).any (·.name == name)

/-- The first scope of that name. -/
def named? (table : SymbolTable) (name : String) : Option Scope :=
  table.listed.find? (·.name == name)

/-- Whether some scope has that name. -/
def contains (table : SymbolTable) (name : String) : Bool := (table.get? name).isSome

/-- The names of the scopes in the table. -/
def names (table : SymbolTable) : List String := table.listed.map (·.name)

end SymbolTable

end Little
