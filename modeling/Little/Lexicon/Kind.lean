/-!
# Kinds of tokens

The kinds stand in a fixed order, the end of the text first and then the order of the lexical
rules. Lists of expected kinds are always given in this order (`Kind.all`).
-/

namespace Little

/-- What a token is. -/
inductive Kind where
  /-- The end of the text. -/
  | eof
  | kwProgram | kwBegin | kwEnd | kwString | assign | semicolon | kwFloat | kwInt | kwVoid
  | comma | kwFunction | leftParen | rightParen | kwRead | kwWrite | kwReturn | plus | minus
  | star | slash | kwIf | kwElse | kwEndif | less | greater | equal | notEqual | lessEqual
  | greaterEqual | kwWhile | kwEndwhile | identifier | intLiteral | floatLiteral | stringLiteral
deriving DecidableEq, Repr, Inhabited

namespace Kind

/-- Every kind, in order. -/
def all : List Kind :=
  [.eof, .kwProgram, .kwBegin, .kwEnd, .kwString, .assign, .semicolon, .kwFloat, .kwInt, .kwVoid,
   .comma, .kwFunction, .leftParen, .rightParen, .kwRead, .kwWrite, .kwReturn, .plus, .minus,
   .star, .slash, .kwIf, .kwElse, .kwEndif, .less, .greater, .equal, .notEqual, .lessEqual,
   .greaterEqual, .kwWhile, .kwEndwhile, .identifier, .intLiteral, .floatLiteral, .stringLiteral]

theorem mem_all (kind : Kind) : kind ∈ all := by
  cases kind <;> decide

/-- The name by which the grammar knows a kind. -/
def label : Kind → String
  | .eof => "EOF"
  | .kwProgram => "PROGRAM"
  | .kwBegin => "BEGIN"
  | .kwEnd => "END"
  | .kwString => "STRING"
  | .assign => "ASSIGN"
  | .semicolon => "SEMI"
  | .kwFloat => "FLOAT"
  | .kwInt => "INT"
  | .kwVoid => "VOID"
  | .comma => "COMMA"
  | .kwFunction => "FUNCTION"
  | .leftParen => "LPAREN"
  | .rightParen => "RPAREN"
  | .kwRead => "READ"
  | .kwWrite => "WRITE"
  | .kwReturn => "RETURN"
  | .plus => "PLUS"
  | .minus => "MINUS"
  | .star => "STAR"
  | .slash => "SLASH"
  | .kwIf => "IF"
  | .kwElse => "ELSE"
  | .kwEndif => "ENDIF"
  | .less => "LT"
  | .greater => "GT"
  | .equal => "EQ"
  | .notEqual => "NE"
  | .lessEqual => "LE"
  | .greaterEqual => "GE"
  | .kwWhile => "WHILE"
  | .kwEndwhile => "ENDWHILE"
  | .identifier => "IDENTIFIER"
  | .intLiteral => "INTLITERAL"
  | .floatLiteral => "FLOATLITERAL"
  | .stringLiteral => "STRINGLITERAL"

/-- The one spelling of a keyword or a symbol. -/
def spelling? : Kind → Option String
  | .kwProgram => some "PROGRAM"
  | .kwBegin => some "BEGIN"
  | .kwEnd => some "END"
  | .kwString => some "STRING"
  | .assign => some ":="
  | .semicolon => some ";"
  | .kwFloat => some "FLOAT"
  | .kwInt => some "INT"
  | .kwVoid => some "VOID"
  | .comma => some ","
  | .kwFunction => some "FUNCTION"
  | .leftParen => some "("
  | .rightParen => some ")"
  | .kwRead => some "READ"
  | .kwWrite => some "WRITE"
  | .kwReturn => some "RETURN"
  | .plus => some "+"
  | .minus => some "-"
  | .star => some "*"
  | .slash => some "/"
  | .kwIf => some "IF"
  | .kwElse => some "ELSE"
  | .kwEndif => some "ENDIF"
  | .less => some "<"
  | .greater => some ">"
  | .equal => some "="
  | .notEqual => some "!="
  | .lessEqual => some "<="
  | .greaterEqual => some ">="
  | .kwWhile => some "WHILE"
  | .kwEndwhile => some "ENDWHILE"
  | .eof | .identifier | .intLiteral | .floatLiteral | .stringLiteral => none

/-- How messages name a kind: by its spelling between quotes if it has one. -/
def display (kind : Kind) : String :=
  match kind.spelling?, kind with
  | some spelling, _ => "'" ++ spelling ++ "'"
  | none, .eof => "<EOF>"
  | none, other => other.label

/-- The kind of that name. -/
def ofLabel? (name : String) : Option Kind :=
  all.find? (·.label == name)

/-- How messages list what was expected: a single kind alone, several between braces. -/
def displayList (kinds : List Kind) : String :=
  match kinds with
  | [kind] => kind.display
  | kinds => "\x7b" ++ ", ".intercalate (kinds.map display) ++ "\x7d"

end Kind

end Little
