import Little.Lexing
import Little.Parsing.Run

/-!
# Parsing a text

`Parse.ofSource` reads a text by a rule. There is always a tree. The diagnostics of both stages
come in the order in which they were found: tokens are looked at only as the parser needs them, so
a lexical error is found when the token behind it is first looked at (`interleave`).
-/

namespace Little

def LexicalError.diagnostic (error : LexicalError) : Diagnostic :=
  ⟨error.position.line, error.position.column, error.text, .unreadable⟩

def Fault.diagnostic (fault : Fault) : Diagnostic :=
  ⟨fault.token.line, fault.token.column, fault.token.text, fault.problem⟩

/-- Lexical errors and faults in the order in which they were found. A lexical error comes before
a fault if the token behind it had been looked at by then. -/
def interleave : List LexicalError → List Fault → List Diagnostic
  | errors, [] => errors.map LexicalError.diagnostic
  | errors, fault :: faults =>
    (errors.takeWhile (·.before < fault.seen)).map LexicalError.diagnostic ++
      fault.diagnostic :: interleave (errors.dropWhile (·.before < fault.seen)) faults

/-- The outcome of parsing. -/
structure Parse where
  tree : Tree
  diagnostics : List Diagnostic
deriving Repr

namespace Parse

/-- Whether nothing is wrong. -/
def ok (parse : Parse) : Bool := parse.diagnostics.isEmpty

/-- Reads tokens by a rule. -/
def ofLexing (entry : Rule) (lexing : Lexing) : Parse :=
  let (tree, state) :=
    entry.parse (depthBound lexing.tokens.length) [] (.start lexing.tokens lexing.eof)
  let errors := lexing.errors.takeWhile (·.before < state.seen)
  ⟨tree, interleave errors state.faults⟩

/-- Reads a text by a rule. -/
def ofSource (entry : Rule) (source : String) : Parse := ofLexing entry (.ofSource source)

end Parse

/-- Why a request to parse is turned down. -/
inductive Refusal where
  /-- There is no rule of that name. -/
  | unknownEntry (name : String)
  /-- There are diagnostics and the request allowed none. -/
  | faulty (diagnostics : List Diagnostic)
deriving Repr

namespace Refusal

def message : Refusal → String
  | .unknownEntry name => "Entry rule '" ++ name ++ "' no existe en LittleParser."
  | .faulty diagnostics => Diagnostic.listing diagnostics

end Refusal

/-- A request to parse. -/
structure Request where
  /-- The name of the rule to start with. -/
  entry : String
  /-- Whether a text with diagnostics is turned down. -/
  strict : Bool
deriving DecidableEq, Repr

/-- Parses a text as requested. -/
def Request.parse (request : Request) (source : String) : Except Refusal Parse :=
  match Rule.ofEntryName? request.entry with
  | none => .error (.unknownEntry request.entry)
  | some entry =>
    let parse := Parse.ofSource entry source
    if request.strict && !parse.ok then .error (.faulty parse.diagnostics) else .ok parse

end Little
