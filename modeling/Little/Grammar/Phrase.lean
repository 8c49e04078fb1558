import Little.Grammar.Rule
import Little.Lexicon.Kind

/-!
# Right-hand sides

A `Phrase` is what the right-hand side of a rule is made of. A `fork` is a choice that cannot be
made on one token: it names the two tokens that lead to its first branch.
-/

namespace Little

/-- What may stand in the right-hand side of a rule. -/
inductive Phrase where
  | empty
  /-- One token of a kind. -/
  | token (kind : Kind)
  /-- One token of any of several kinds. -/
  | oneOf (kinds : List Kind)
  /-- All that a rule stands for. -/
  | rule (name : Rule)
  | seq (first second : Phrase)
  | alt (left right : Phrase)
  /-- The phrase or nothing. -/
  | opt (body : Phrase)
  /-- The phrase any number of times. -/
  | star (body : Phrase)
  /-- A choice: `left` where the next two tokens are of the kinds given, else `right`. -/
  | fork (kind second : Kind) (left right : Phrase)
deriving DecidableEq, Repr

namespace Phrase

/-- One phrase after the other. -/
def row : List Phrase → Phrase
  | [] => .empty
  | [phrase] => phrase
  | phrase :: rest => .seq phrase (row rest)

/-- One of several phrases. -/
def choice : List Phrase → Phrase
  | [] => .empty
  | [phrase] => phrase
  | phrase :: rest => .alt phrase (choice rest)

/-- The phrase once or more, with separators between. -/
def separated (kind : Kind) (body : Phrase) : Phrase :=
  .seq body (.star (.seq (.token kind) body))

/-- How often a part for which `isPart` holds can stand directly in the phrase, counted up to
two. -/
def occurrences (isPart : Phrase → Bool) : Phrase → Nat
  | .empty => 0
  | .token kind => if isPart (.token kind) then 1 else 0
  | .oneOf kinds => if isPart (.oneOf kinds) then 1 else 0
  | .rule name => if isPart (.rule name) then 1 else 0
  | .seq first second => min 2 (first.occurrences isPart + second.occurrences isPart)
  | .alt left right | .fork _ _ left right =>
    max (left.occurrences isPart) (right.occurrences isPart)
  | .opt body => body.occurrences isPart
  | .star body => min 2 (2 * body.occurrences isPart)

/-- Whether a rule can stand more than once directly in the phrase. -/
def repeatsRule (phrase : Phrase) (rule : Rule) : Bool :=
  phrase.occurrences (· = .rule rule) = 2

/-- Whether a token of a kind can stand more than once directly in the phrase. -/
def repeatsToken (phrase : Phrase) (kind : Kind) : Bool :=
  phrase.occurrences (fun
    | .token other => other = kind
    | .oneOf kinds => kinds.contains kind
    | _ => false) = 2

end Phrase

end Little
