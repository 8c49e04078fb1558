/-!
# Classes of characters

The classes that the lexical rules are written with. Letters and digits are those of ASCII, and
the blanks are the space, the tab, the carriage return and the line feed.
-/

namespace Little

/-- A class of characters. No class is empty (`contains_sample`). -/
inductive CharSet where
  /-- One character. -/
  | only (c : Char)
  | letter
  | digit
  | letterOrDigit
  | blank
  /-- Everything but the double quote. -/
  | notQuote
  /-- Everything but the two characters that end a line. -/
  | notLineEnd
deriving DecidableEq, Repr

namespace CharSet

/-- Whether a character is of the class. -/
def contains : CharSet → Char → Bool
  | .only d, c => c == d
  | .letter, c => c.isAlpha
  | .digit, c => c.isDigit
  | .letterOrDigit, c => c.isAlphanum
  | .blank, c => c == ' ' || c == '\t' || c == '\r' || c == '\n'
  | .notQuote, c => c != '"'
  | .notLineEnd, c => c != '\r' && c != '\n'

/-- A character of the class. -/
def sample : CharSet → Char
  | .only c => c
  | .digit => '0'
  | .blank => ' '
  | _ => 'a'

@[simp] theorem contains_sample (set : CharSet) : set.contains set.sample = true := by
  cases set with
  | only c => exact beq_self_eq_true c
  | letter | digit | letterOrDigit | blank | notQuote | notLineEnd => decide

end CharSet

end Little
