import Little.Scope.Symbol
import Little.Tree

/-!
# What a node declares

A variable declaration gives one type to all its identifiers, a string declaration gives one
identifier its literal, and a parameter list declares each of its parameters. A part that a broken
tree lacks makes the declaration unusable, which is written `none`.
-/

namespace Little

/-- A symbol and the place that is named if its name is taken. -/
structure Declaration where
  symbol : Symbol
  place : Location
deriving DecidableEq, Repr

namespace Tree

/-- Where a node begins. Leaves have no place of their own here. -/
def location (tree : Tree) : Location :=
  match tree.start? with
  | some token => .ofToken token
  | none => .unknown

/-- The declaration that a parameter makes. -/
def paramDeclaration (param : Tree) : Option Declaration := do
  let ident ← param.childOf? .ident
  let type ← param.childOf? .varType
  return ⟨⟨ident.text, type.text, none⟩, param.location⟩

/-- The declarations that the list of identifiers of a variable declaration makes. -/
def varDeclarations (decl : Tree) : Option (List Declaration) := do
  let type ← decl.childOf? .varType
  let list ← decl.childOf? .identList
  return (list.childrenOf .ident).map fun ident =>
    ⟨⟨ident.text, type.text, none⟩, ident.location⟩

/-- The declaration that a string declaration makes. -/
def stringDeclaration (decl : Tree) : Option Declaration := do
  let ident ← decl.childOf? .ident
  let value ← decl.childOf? .stringValue
  return ⟨⟨ident.text, "STRING", some value.text⟩, ident.location⟩

/-- The declarations a node makes itself, in order, with `none` where a part of one is not
there. -/
def declarations (tree : Tree) : List (Option Declaration) :=
  match tree.rule? with
  | some .paramList => (tree.childrenOf .param).map paramDeclaration
  | some .varDecl =>
    match tree.varDeclarations with
    | some declarations => declarations.map some
    | none => [none]
  | some .stringDecl => [tree.stringDeclaration]
  | _ => []

end Tree

end Little
