/-!
# Names of the grammar's rules

A rule has a short name here, the label under which the grammar and every printed tree know it, and
the name under which it is asked for as the place to start (`entryName`), which differs from the
label for two rules.
-/

namespace Little

/-- The rules of the grammar. -/
inductive Rule where
  | program | ident | programBody | declarations | stringDecl | stringValue | varDecl | varType
  | resultType | identList | paramList | param | functions | function | functionBody | statements
  | statement | simpleStatement | assignment | read | write | result | expr | factor | operand
  | call | arguments | primary | addOp | mulOp | ifStatement | elseBranch | condition | compareOp
  | whileStatement
deriving DecidableEq, Repr, Inhabited

namespace Rule

/-- Every rule, in the order of the grammar. -/
def all : List Rule :=
  [.program, .ident, .programBody, .declarations, .stringDecl, .stringValue, .varDecl, .varType,
   .resultType, .identList, .paramList, .param, .functions, .function, .functionBody, .statements,
   .statement, .simpleStatement, .assignment, .read, .write, .result, .expr, .factor, .operand,
   .call, .arguments, .primary, .addOp, .mulOp, .ifStatement, .elseBranch, .condition, .compareOp,
   .whileStatement]

/-- The name of a rule in the grammar and in printed trees. -/
def label : Rule → String
  | .program => "program"
  | .ident => "id"
  | .programBody => "pgm_body"
  | .declarations => "decl"
  | .stringDecl => "string_decl"
  | .stringValue => "str"
  | .varDecl => "var_decl"
  | .varType => "var_type"
  | .resultType => "any_type"
  | .identList => "id_list"
  | .paramList => "param_decl_list"
  | .param => "param_decl"
  | .functions => "func_declarations"
  | .function => "func_decl"
  | .functionBody => "func_body"
  | .statements => "stmt_list"
  | .statement => "stmt"
  | .simpleStatement => "base_stmt"
  | .assignment => "assign_stmt"
  | .read => "read_stmt"
  | .write => "write_stmt"
  | .result => "return_stmt"
  | .expr => "expr"
  | .factor => "factor"
  | .operand => "postfix_expr"
  | .call => "call_expr"
  | .arguments => "expr_list"
  | .primary => "primary"
  | .addOp => "addop"
  | .mulOp => "mulop"
  | .ifStatement => "if_stmt"
  | .elseBranch => "else_stmt"
  | .condition => "cond"
  | .compareOp => "compop"
  | .whileStatement => "while_stmt"

/-- The name under which a rule is asked for. -/
def entryName : Rule → String
  | .ident => "id_"
  | .stringValue => "str_"
  | rule => rule.label

/-- The rule with that label. -/
def ofLabel? (name : String) : Option Rule :=
  all.find? (·.label == name)

/-- The rule asked for under that name. -/
def ofEntryName? (name : String) : Option Rule :=
  all.find? (·.entryName == name)

/-- Whether the rule is one of those that open a block of their own: an `IF`, an `ELSE` or a
`WHILE`. -/
def isControl : Rule → Bool
  | .ifStatement | .elseBranch | .whileStatement => true
  | _ => false

end Rule

end Little
