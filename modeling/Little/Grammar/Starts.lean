import Little.Grammar.Rules

/-!
# First tokens

`Rule.firstKinds` and `Rule.isNullable` are tables: the kinds of token that can come first in what
a rule stands for, and whether a rule can stand for nothing. `Phrase.startsWith` and
`Phrase.isNullable` carry them to phrases. The tables are right if they agree with the right-hand
sides, which `starts_with_body` and `is_nullable_body` check.
-/

namespace Little

/-- The kinds of token that can begin a value. -/
def Kind.operands : List Kind := [.leftParen, .identifier, .intLiteral, .floatLiteral]

namespace Rule

/-- The kinds of token that can come first in a rule. -/
def firstKinds : Rule → List Kind
  | .program => [.kwProgram]
  | .ident | .identList | .assignment | .call => [.identifier]
  | .programBody => [.kwString, .kwFloat, .kwInt, .kwFunction]
  | .declarations => [.kwString, .kwFloat, .kwInt]
  | .stringDecl => [.kwString]
  | .stringValue => [.stringLiteral]
  | .varDecl | .varType | .param | .paramList => [.kwFloat, .kwInt]
  | .resultType => [.kwFloat, .kwInt, .kwVoid]
  | .functions | .function => [.kwFunction]
  | .functionBody =>
    [.kwString, .kwFloat, .kwInt, .kwRead, .kwWrite, .kwReturn, .kwIf, .kwWhile, .identifier]
  | .statements | .statement =>
    [.kwRead, .kwWrite, .kwReturn, .kwIf, .kwWhile, .identifier]
  | .simpleStatement => [.kwRead, .kwWrite, .kwReturn, .identifier]
  | .read => [.kwRead]
  | .write => [.kwWrite]
  | .result => [.kwReturn]
  | .expr | .factor | .operand | .primary | .arguments | .condition => Kind.operands
  | .addOp => [.plus, .minus]
  | .mulOp => [.star, .slash]
  | .ifStatement => [.kwIf]
  | .elseBranch => [.kwElse]
  | .compareOp => [.less, .greater, .equal, .notEqual, .lessEqual, .greaterEqual]
  | .whileStatement => [.kwWhile]

/-- Whether a token of the kind can come first in a rule. -/
def startsWith (rule : Rule) (kind : Kind) : Bool := rule.firstKinds.contains kind

/-- Whether a rule can stand for no token at all. -/
def isNullable : Rule → Bool
  | .programBody | .declarations | .paramList | .functions | .functionBody | .statements
  | .arguments => true
  | _ => false

end Rule

namespace Phrase

/-- Whether a phrase can stand for no token at all. -/
def isNullable : Phrase → Bool
  | .empty | .opt _ | .star _ => true
  | .token _ | .oneOf _ => false
  | .rule name => name.isNullable
  | .seq first second => first.isNullable && second.isNullable
  | .alt left right | .fork _ _ left right => left.isNullable || right.isNullable

/-- Whether a token of the kind can come first in a phrase. -/
def startsWith (kind : Kind) : Phrase → Bool
  | .empty => false
  | .token other => other == kind
  | .oneOf kinds => kinds.contains kind
  | .rule name => name.startsWith kind
  | .seq first second =>
    first.startsWith kind || (first.isNullable && second.startsWith kind)
  | .alt left right | .fork _ _ left right => left.startsWith kind || right.startsWith kind
  | .opt body | .star body => body.startsWith kind

/-- The kinds of token that can come first in a phrase, in order. -/
def firstKinds (phrase : Phrase) : List Kind :=
  Kind.all.filter (phrase.startsWith ·)

end Phrase

theorem Rule.is_nullable_body (rule : Rule) : rule.body.isNullable = rule.isNullable := by
  cases rule <;> rfl

theorem Rule.starts_with_body (rule : Rule) (kind : Kind) :
    rule.body.startsWith kind = rule.startsWith kind := by
  revert kind
  have check : ∀ kind ∈ Kind.all, rule.body.startsWith kind = rule.startsWith kind := by
    cases rule <;> decide
  exact fun kind => check kind kind.mem_all

end Little
