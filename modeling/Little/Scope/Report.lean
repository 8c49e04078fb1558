import Little.Scope.Table

/-!
# The report

The report has a section for every scope whose name begins as the names of blocks do, by name in
the order of characters, and one for the first scope named `main` at the end. Where several scopes
have one name each of their sections shows the first of them.
-/

namespace Little

/-- The name of the scope that holds the global declarations. -/
def globalName : String := "GLOBAL"

/-- The name of the function whose scope is reported. -/
def mainName : String := "main"

/-- What the names of all blocks begin with. -/
def blockPrefix : String := "BLOCK"

/-- The name of the block of that number. -/
def blockName (number : Nat) : String := blockPrefix ++ " " ++ toString number

/-- Whether a name begins as the names of blocks do. -/
def isBlockLike (name : String) : Bool := blockPrefix.toList.isPrefixOf name.toList

namespace Scope

/-- The section that a scope has in a report: its name, a line for each symbol, and an empty line. -/
def render (scope : Scope) : String :=
  "Symbol table " ++ scope.name ++ "\n" ++
    String.join (scope.symbols.map fun symbol => symbol.render ++ "\n") ++ "\n"

end Scope

/-- Puts a name into a sorted list of names. -/
def insertName (name : String) : List String → List String
  | [] => [name]
  | other :: names =>
    if name ≤ other then name :: other :: names else other :: insertName name names

namespace SymbolTable

/-- The names in the table in the order of characters, each as often as it occurs. -/
def sortedNames (table : SymbolTable) : List String := table.names.foldr insertName []

/-- The scopes that have a section in the report, in order. -/
def reported (table : SymbolTable) : List Scope :=
  (table.sortedNames.filter isBlockLike).filterMap table.named? ++
    (table.named? mainName).toList

/-- The report on a table. -/
def report (table : SymbolTable) : String := String.join (table.reported.map Scope.render)

end SymbolTable

end Little
