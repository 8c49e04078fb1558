import Little.Grammar.Rule
import Little.Source.Escape
import Little.Token

/-!
# Trees

A tree keeps every token that the parser passed. Tokens it passed without a use for them are
`skipped` leaves, and where it went on as if a token had been there it leaves a `missing` leaf.
-/

namespace Little

/-- A tree over a source text. -/
inductive Tree where
  /-- A token that was expected where it stands. -/
  | leaf (token : Token)
  /-- A token that was passed over. -/
  | skipped (token : Token)
  /-- A token that should have stood at this line and column. -/
  | missing (kind : Kind) (line column : Nat)
  /-- A rule: the token in view when it began, the last token passed when it ended, if any, and
  what it is made of. -/
  | node (rule : Rule) (start : Token) (stop : Option Token) (children : List Tree)
deriving Repr, Inhabited

namespace Tree

/-- The text of a token that is not there. -/
def missingText (kind : Kind) : String := "<missing " ++ kind.display ++ ">"

def isNode : Tree → Bool
  | .node .. => true
  | _ => false

/-- The rule of a node. -/
def rule? : Tree → Option Rule
  | .node rule _ _ _ => some rule
  | _ => none

/-- The trees directly below. -/
def children : Tree → List Tree
  | .node _ _ _ children => children
  | _ => []

/-- The kind of token of a leaf. -/
def kind? : Tree → Option Kind
  | .leaf token | .skipped token => some token.kind
  | .missing kind _ _ => some kind
  | .node .. => none

/-- Whether a leaf is an error: a token passed over, or one that is not there. -/
def isError : Tree → Bool
  | .skipped _ | .missing .. => true
  | _ => false

mutual

/-- The texts of all leaves, one behind the other. -/
def text : Tree → String
  | .leaf token | .skipped token => token.text
  | .missing kind _ _ => missingText kind
  | .node _ _ _ children => textAll children

/-- The texts of all leaves of a row of trees. -/
def textAll : List Tree → String
  | [] => ""
  | tree :: trees => tree.text ++ textAll trees

end

mutual

/-- The tree on one line. A node is its rule's label with its parts behind it, all in parentheses;
a node without parts is the label alone. -/
def render : Tree → String
  | .node rule _ _ [] => rule.label
  | .node rule _ _ (child :: children) =>
    "(" ++ rule.label ++ " " ++ child.render ++ renderAll children ++ ")"
  | .leaf token | .skipped token => visible token.text
  | .missing kind _ _ => visible (missingText kind)

/-- A row of trees, each behind a space. -/
def renderAll : List Tree → String
  | [] => ""
  | tree :: trees => " " ++ tree.render ++ renderAll trees

end

/-- The parts that are nodes of a rule. -/
def childrenOf (tree : Tree) (rule : Rule) : List Tree :=
  tree.children.filter (·.rule? == some rule)

/-- The first part that is a node of a rule. -/
def childOf? (tree : Tree) (rule : Rule) : Option Tree :=
  tree.children.find? (·.rule? == some rule)

/-- The token in view when a node began. -/
def start? : Tree → Option Token
  | .node _ start _ _ => some start
  | _ => none

/-- The line and column where a leaf stands. -/
def place? : Tree → Option (Nat × Nat)
  | .leaf token | .skipped token => some (token.line, token.column)
  | .missing _ line column => some (line, column)
  | .node .. => none

theorem child_of_eq_head (tree : Tree) (rule : Rule) :
    tree.childOf? rule = (tree.childrenOf rule).head? := by
  simp [childOf?, childrenOf, List.head?_filter]

end Tree

end Little
