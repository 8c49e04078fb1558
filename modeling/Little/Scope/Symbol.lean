import Little.Token

/-!
# Symbols and what can be wrong with them

A symbol is what a declaration introduces. `SemanticError` is what stops the scope pass; its
message does not say where a duplicate stands, since that line is the program's answer.
-/

namespace Little

/-- What a declaration introduces. -/
structure Symbol where
  name : String
  /-- The type as it is written in the source. -/
  type : String
  /-- The literal of a `STRING` declaration, quotes included. -/
  value : Option String
deriving DecidableEq, Repr

/-- The symbol as a line of a report. -/
def Symbol.render (symbol : Symbol) : String :=
  "name " ++ symbol.name ++ " type " ++ symbol.type ++
    match symbol.value with
    | some value => " value " ++ value
    | none => ""

/-- A place as far as it is known. -/
structure Location where
  line : Option Int
  column : Option Int
deriving DecidableEq, Repr

namespace Location

def unknown : Location := ⟨none, none⟩

/-- The place where a token begins. -/
def ofToken (token : Token) : Location := ⟨some token.line, some token.column⟩

end Location

/-- What can be wrong with declarations. -/
inductive SemanticError where
  /-- A name was declared twice in one scope. -/
  | duplicate (name : String) (place : Location)
  | other (text : String) (place : Location)
deriving DecidableEq, Repr

namespace SemanticError

def place : SemanticError → Location
  | .duplicate _ place | .other _ place => place

def message : SemanticError → String
  | .duplicate name _ => "DECLARATION ERROR " ++ name
  | .other text ⟨none, _⟩ => text
  | .other text ⟨some line, column⟩ =>
    text ++ " (línea " ++ toString line ++ ", col " ++
      (match column with
      | some column => toString column
      | none => "None") ++ ")"

end SemanticError

end Little
