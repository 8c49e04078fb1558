import Little.Grammar.Rules
import Little.Tree

/-!
# Asking for parts of a node

A part of a node is asked for by the name of a rule or of a kind of token. Where the grammar lets
such a part stand more than once, all of them are found, and one of them can be picked by number;
else the first is found.
-/

namespace Little

/-- What can be asked for by name. -/
inductive Selector where
  | rule (name : Rule)
  | token (kind : Kind)
deriving DecidableEq, Repr

namespace Selector

/-- What is asked for under that name. -/
def ofName? (name : String) : Option Selector :=
  match Rule.ofEntryName? name with
  | some found => some (.rule found)
  | none => (Kind.ofLabel? name).map .token

/-- Whether a part is what is asked for. -/
def picks : Selector → Tree → Bool
  | .rule name, tree => tree.rule? == some name
  | .token kind, tree => tree.kind? == some kind

/-- Whether the grammar lets such a part stand more than once in a rule. -/
def repeatsIn : Selector → Rule → Bool
  | .rule name, node => node.body.repeatsRule name
  | .token kind, node => node.body.repeatsToken kind

end Selector

/-- What asking for parts leads to. -/
inductive Answer where
  | tree (found : Tree)
  | list (found : List Tree)
deriving Repr

/-- One step of a question. -/
inductive Question where
  /-- Asks for a part, or with a number for one of several. -/
  | part (name : String) (index : Option Int)
  /-- Picks from several. -/
  | pick (index : Int)
deriving DecidableEq, Repr

namespace Answer

/-- The element of that number, if there is one. -/
def nth? (trees : List Tree) (index : Int) : Option Tree :=
  if index < 0 then none else trees[index.toNat]?

/-- Asks a node for a part. -/
def part? (tree : Tree) (selector : Selector) (index : Option Int) : Option Answer := do
  let rule ← tree.rule?
  let parts := tree.children.filter selector.picks
  if selector.repeatsIn rule then
    match index with
    | none => some (.list parts)
    | some index => (nth? parts index).map .tree
  else parts.head?.map .tree

/-- One step of a question. -/
def ask : Answer → Question → Option Answer
  | .tree found, .part name index => do part? found (← Selector.ofName? name) index
  | .list found, .pick index => (nth? found index).map .tree
  | .tree _, .pick _ | .list _, .part .. => none

/-- The answer to a question of several steps. -/
def askAll (tree : Tree) (questions : List Question) : Option Answer :=
  questions.foldlM ask (.tree tree)

end Answer

end Little
