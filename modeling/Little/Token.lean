import Little.Lexicon.Kind
import Little.Source.Position

/-!
# Tokens

A token is a piece of the source that means something, with its kind and the place where it
begins. One more token stands behind the last character and marks the end of the text.
-/

namespace Little

/-- A token of a source text. -/
structure Token where
  kind : Kind
  /-- The characters of the token as they stand in the source. -/
  text : String
  /-- Where the token begins. -/
  position : Position
deriving DecidableEq, Repr

namespace Token

/-- The text that stands for the end of a source. -/
def endText : String := "<EOF>"

/-- The token that marks the end of a text. -/
def atEnd (position : Position) : Token := ⟨.eof, endText, position⟩

def line (token : Token) : Nat := token.position.line

def column (token : Token) : Nat := token.position.column

/-- The number of the first character of the token. -/
def first (token : Token) : Nat := token.position.offset

/-- The number of the last character of the token. The end of the text has no character, so its
last one is the one before its first. -/
def last (token : Token) : Int :=
  match token.kind with
  | .eof => (token.first : Int) - 1
  | _ => (token.first : Int) + token.text.length - 1

end Token

end Little
