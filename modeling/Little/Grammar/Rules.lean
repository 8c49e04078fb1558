import Little.Grammar.Phrase

/-!
# The grammar

`Rule.body` gives each rule its right-hand side. A program is a header, global declarations and
functions; a body is declarations followed by statements; an `ELSE` belongs to the `IF` it stands
in. Every repetition stands at the very end of its rule.
-/

namespace Little

namespace Rule

open Phrase (row choice separated)

/-- The right-hand side of a rule. -/
def body : Rule → Phrase
  | .program =>
    row [.token .kwProgram, .rule .ident, .token .kwBegin, .rule .programBody, .token .kwEnd,
      .token .eof]
  | .ident => .token .identifier
  | .programBody => row [.rule .declarations, .rule .functions]
  | .declarations => .star (choice [.rule .stringDecl, .rule .varDecl])
  | .stringDecl =>
    row [.token .kwString, .rule .ident, .token .assign, .rule .stringValue, .token .semicolon]
  | .stringValue => .token .stringLiteral
  | .varDecl => row [.rule .varType, .rule .identList, .token .semicolon]
  | .varType => .oneOf [.kwFloat, .kwInt]
  | .resultType => choice [.rule .varType, .token .kwVoid]
  | .identList => separated .comma (.rule .ident)
  | .paramList => .opt (separated .comma (.rule .param))
  | .param => row [.rule .varType, .rule .ident]
  | .functions => .star (.rule .function)
  | .function =>
    row [.token .kwFunction, .rule .resultType, .rule .ident, .token .leftParen, .rule .paramList,
      .token .rightParen, .token .kwBegin, .rule .functionBody, .token .kwEnd]
  | .functionBody => row [.rule .declarations, .rule .statements]
  | .statements => .star (.rule .statement)
  | .statement => choice [.rule .simpleStatement, .rule .ifStatement, .rule .whileStatement]
  | .simpleStatement => choice [.rule .assignment, .rule .read, .rule .write, .rule .result]
  | .assignment => row [.rule .ident, .token .assign, .rule .expr, .token .semicolon]
  | .read =>
    row [.token .kwRead, .token .leftParen, .rule .identList, .token .rightParen,
      .token .semicolon]
  | .write =>
    row [.token .kwWrite, .token .leftParen, .rule .identList, .token .rightParen,
      .token .semicolon]
  | .result => row [.token .kwReturn, .rule .expr, .token .semicolon]
  | .expr => .seq (.rule .factor) (.star (.seq (.rule .addOp) (.rule .factor)))
  | .factor => .seq (.rule .operand) (.star (.seq (.rule .mulOp) (.rule .operand)))
  | .operand => .fork .identifier .leftParen (.rule .call) (.rule .primary)
  | .call =>
    row [.rule .ident, .token .leftParen, .rule .arguments, .token .rightParen]
  | .arguments => .opt (separated .comma (.rule .expr))
  | .primary =>
    choice [row [.token .leftParen, .rule .expr, .token .rightParen], .rule .ident,
      .token .intLiteral, .token .floatLiteral]
  | .addOp => .oneOf [.plus, .minus]
  | .mulOp => .oneOf [.star, .slash]
  | .ifStatement =>
    row [.token .kwIf, .token .leftParen, .rule .condition, .token .rightParen,
      .rule .declarations, .rule .statements, .opt (.rule .elseBranch), .token .kwEndif]
  | .elseBranch => row [.token .kwElse, .rule .declarations, .rule .statements]
  | .condition => row [.rule .expr, .rule .compareOp, .rule .expr]
  | .compareOp => .oneOf [.less, .greater, .equal, .notEqual, .lessEqual, .greaterEqual]
  | .whileStatement =>
    row [.token .kwWhile, .token .leftParen, .rule .condition, .token .rightParen,
      .rule .declarations, .rule .statements, .token .kwEndwhile]

end Rule

end Little
