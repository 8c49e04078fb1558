import Little.Scope.Declaration
import Little.Scope.Report
import Little.Tree.Occurrence

/-!
# The outline of a program

What the symbol table of a program should be can be read off its derivation tree, without running
anything. An `Outline` lists the identifiers declared at the top and, in source order, the regions
of the program: each function with its parameters and own declarations, where its statements begin,
and each `IF`, `ELSE` and `WHILE` with its own declarations. All regions but the functions are
numbered from 1, and `Outline.scopes` is the table in closed form.

A body is what one scope declares. `Outline.declared` lists all declared identifiers with the number
of their body, and `Outline.firstClash` is the first that repeats a name of its own body.
-/

namespace Little

/-- A declared identifier. -/
structure Item where
  ident : Token
  /-- The type as it is written in the source. -/
  type : String
  /-- The literal of a `STRING` declaration, quotes included. -/
  value : Option String
  /-- The place that is named if the name is taken. -/
  place : Location
deriving DecidableEq, Repr

namespace Item

def name (item : Item) : String := item.ident.text

/-- The symbol that is declared. -/
def symbol (item : Item) : Symbol := ⟨item.name, item.type, item.value⟩

end Item

/-- A part of a program that opens a scope or takes a number. -/
inductive Region where
  /-- A function, with its parameters and own declarations. -/
  | function (ident : Token) (items : List Item)
  /-- The statements of a function. -/
  | statements
  /-- An `IF`, an `ELSE` or a `WHILE`, with its own declarations. -/
  | block (items : List Item)
deriving DecidableEq, Repr

namespace Region

/-- What is declared in a region itself. -/
def items : Region → List Item
  | .function _ items | .block items => items
  | .statements => []

/-- Whether a region takes a number. -/
def isNumbered : Region → Bool
  | .function .. => false
  | .statements | .block _ => true

/-- The identifiers that a region names, in order. -/
def idents : Region → List Token
  | .function ident items => ident :: items.map Item.ident
  | .statements => []
  | .block items => items.map Item.ident

/-- The scope of a region, if the table has one for it. -/
def scope? (number : Nat) : Region → Option Scope
  | .function ident items => some ⟨ident.text, .function, items.map Item.symbol⟩
  | .statements => none
  | .block items =>
    if items = [] then none else some ⟨blockName number, .block, items.map Item.symbol⟩

end Region

/-- What a program declares and where. -/
structure Outline where
  globals : List Item
  /-- The regions in source order. -/
  regions : List Region
deriving DecidableEq, Repr

/-- The first item whose name is among those seen or that of an earlier item. -/
def firstRepeat (seen : List String) : List Item → Option Item
  | [] => none
  | item :: rest =>
    if item.name ∈ seen then some item else firstRepeat (seen ++ [item.name]) rest

namespace Outline

/-- The number of a numbered region. -/
def number (outline : Outline) (index : Nat) : Nat :=
  (outline.regions.take (index + 1)).countP Region.isNumbered

/-- The scopes that the table should have. -/
def scopes (outline : Outline) : List Scope :=
  ⟨globalName, .global, outline.globals.map Item.symbol⟩ ::
    outline.regions.zipIdx.filterMap fun (region, index) => region.scope? (outline.number index)

/-- What each scope declares, in source order. -/
def bodies (outline : Outline) : List (List Item) :=
  outline.globals :: outline.regions.map Region.items

/-- All declared identifiers, each with the number of its body. -/
def declared (outline : Outline) : List (Nat × Item) :=
  outline.bodies.zipIdx.flatMap fun (body, index) => body.map fun item => (index, item)

/-- All identifiers that are named, in order: those declared and those of the functions. -/
def idents (outline : Outline) : List Token :=
  outline.globals.map Item.ident ++ outline.regions.flatMap Region.idents

/-- The first item that repeats a name of its own body. -/
def firstClash (outline : Outline) : Option Item := outline.bodies.findSome? (firstRepeat [])

end Outline

namespace Tree

/-- The token of an identifier. -/
def identifier? : Tree → Option Token
  | .node .ident _ _ [.leaf token] => some token
  | _ => none

/-- The items of a single declaration or parameter. -/
def ownItems : Tree → List Item
  | .node .varDecl _ _ [.node .varType _ _ [.leaf type], .node .identList _ _ idents, _] =>
    idents.filterMap fun ident =>
      ident.identifier?.map fun token => ⟨token, type.text, none, ident.location⟩
  | .node .stringDecl _ _ [_, ident, _, .node .stringValue _ _ [.leaf value], _] =>
    (ident.identifier?.map fun token =>
      ⟨token, "STRING", some value.text, ident.location⟩).toList
  | .node .param start _ [.node .varType _ _ [.leaf type], ident] =>
    (ident.identifier?.map fun token => ⟨token, type.text, none, .ofToken start⟩).toList
  | _ => []

/-- The items of a list of declarations or parameters. -/
def items (tree : Tree) : List Item := tree.children.flatMap ownItems

/-- The region that a node is. -/
def region? : Tree → Option Region
  | .node .function _ _
      [_, _, ident, _, params, _, _, .node .functionBody _ _ [declarations, _], _] =>
    ident.identifier?.map fun token => .function token (params.items ++ declarations.items)
  | .node .functionBody .. => some .statements
  | .node .ifStatement _ _ (_ :: _ :: _ :: _ :: declarations :: _)
  | .node .elseBranch _ _ (_ :: declarations :: _)
  | .node .whileStatement _ _ (_ :: _ :: _ :: _ :: declarations :: _) =>
    some (.block declarations.items)
  | _ => none

/-- The regions in a tree, in source order. -/
def regions (tree : Tree) : List Region := (tree.occurrences []).filterMap (·.tree.region?)

/-- What is declared at the top of a program. -/
def globals : Tree → List Item
  | .node .program _ _ [_, _, _, .node .programBody _ _ [declarations, _], _, _] =>
    declarations.items
  | _ => []

/-- The outline of a program. -/
def outline (tree : Tree) : Outline := ⟨tree.globals, tree.regions⟩

end Tree

end Little
