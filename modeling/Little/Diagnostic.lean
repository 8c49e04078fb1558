import Little.Lexicon.Kind
import Little.Source.Escape

/-!
# Diagnostics

What is wrong with a text, and how it is put into words. A `Diagnostic` keeps the cause; the
message is worked out from the cause and the text found.
-/

namespace Little

/-- Which stage found something wrong. -/
inductive Phase where
  | lexical
  | syntactic
deriving DecidableEq, Repr

/-- How messages name a stage. -/
def Phase.label : Phase → String
  | .lexical => "Léxico"
  | .syntactic => "Sintáctico"

/-- What is wrong at a place in a text. Where tokens were expected their kinds are given. -/
inductive Problem where
  /-- No lexical rule can read what stands there. -/
  | unreadable
  /-- A token too many: the one behind it would do. -/
  | extraneous (expected : List Kind)
  /-- A token too few: the one in view may stand behind it. -/
  | missing (expected : List Kind)
  /-- Neither of these. -/
  | mismatched (expected : List Kind)
deriving DecidableEq, Repr

namespace Problem

/-- The stage that finds such a thing. -/
def phase : Problem → Phase
  | .unreadable => .lexical
  | .extraneous _ | .missing _ | .mismatched _ => .syntactic

/-- The message about the problem, where `text` is what was found. -/
def message (text : String) : Problem → String
  | .unreadable => "token recognition error at: '" ++ visible text ++ "'"
  | .extraneous expected =>
    "extraneous input '" ++ visible text ++ "' expecting " ++ Kind.displayList expected
  | .missing expected =>
    "missing " ++ Kind.displayList expected ++ " at '" ++ visible text ++ "'"
  | .mismatched expected =>
    "mismatched input '" ++ visible text ++ "' expecting " ++ Kind.displayList expected

end Problem

/-- One thing that is wrong with a text. -/
structure Diagnostic where
  line : Nat
  column : Nat
  /-- What was found there. -/
  text : String
  problem : Problem
deriving DecidableEq, Repr

namespace Diagnostic

def phase (diagnostic : Diagnostic) : Phase := diagnostic.problem.phase

def message (diagnostic : Diagnostic) : String := diagnostic.problem.message diagnostic.text

/-- The diagnostic as one line of a listing. -/
def render (diagnostic : Diagnostic) : String :=
  "[" ++ diagnostic.phase.label ++ "] línea " ++ toString diagnostic.line ++ ", col " ++
    toString diagnostic.column ++ ": cerca de '" ++ diagnostic.text ++ "' → " ++
    diagnostic.message

/-- Several diagnostics, one to a line. -/
def listing (diagnostics : List Diagnostic) : String :=
  "\n".intercalate (diagnostics.map render)

end Diagnostic

end Little
