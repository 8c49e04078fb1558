import Little.Lexicon.Kind
import Little.Lexicon.Pattern

/-!
# The lexical rules

`vocabulary` lists the lexical rules in order of priority: of two rules that read equally far, the
earlier one wins. So keywords and symbols come before identifiers and literals, and what is read
only to be dropped (comments and blanks) comes last.
-/

namespace Little

/-- What a lexical rule produces. -/
inductive Category where
  /-- A token of a kind. -/
  | token (kind : Kind)
  /-- A comment, which is dropped. -/
  | comment
  /-- White space, which is dropped. -/
  | blank
deriving DecidableEq, Repr

/-- A letter, then letters and digits. -/
def Pattern.identifier : Pattern :=
  .seq (.char .letter) (.star (.char .letterOrDigit))

/-- Digits. -/
def Pattern.intLiteral : Pattern := .plus (.char .digit)

/-- A point with digits behind it and, if wanted, before it. -/
def Pattern.floatLiteral : Pattern :=
  .seq (.star (.char .digit)) (.seq (.char (.only '.')) (.plus (.char .digit)))

/-- Anything without a double quote between two of them, line breaks included. -/
def Pattern.stringLiteral : Pattern :=
  .seq (.char (.only '"')) (.seq (.star (.char .notQuote)) (.char (.only '"')))

/-- Two hyphens and the rest of the line. -/
def Pattern.comment : Pattern :=
  .seq (.char (.only '-')) (.seq (.char (.only '-')) (.star (.char .notLineEnd)))

/-- Blanks. -/
def Pattern.blanks : Pattern := .plus (.char .blank)

/-- The rules for the kinds that have one spelling. -/
def spellings : List (Category × Pattern) :=
  Kind.all.filterMap fun kind =>
    kind.spelling?.map fun spelling => (.token kind, .word spelling.toList)

/-- The lexical rules, in order of priority. -/
def vocabulary : List (Category × Pattern) :=
  spellings ++
    [(.token .identifier, .identifier),
     (.token .intLiteral, .intLiteral),
     (.token .floatLiteral, .floatLiteral),
     (.token .stringLiteral, .stringLiteral),
     (.comment, .comment),
     (.blank, .blanks)]

end Little
