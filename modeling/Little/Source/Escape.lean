import Little.Source.Printable

/-!
# Characters that would break a line

`visible` is how a message shows a piece of source: line feeds, carriage returns and tabs are
written as a backslash and a letter, so that a message stays on one line. `quoted` is how a file
name or an argument is shown: between quotes, with everything that does not print written out.
-/

namespace Little

/-- One character as a message shows it. -/
def visibleChar (c : Char) : List Char :=
  if c = '\n' then ['\\', 'n']
  else if c = '\r' then ['\\', 'r']
  else if c = '\t' then ['\\', 't']
  else [c]

/-- A piece of source as a message shows it. -/
def visible (text : String) : String :=
  String.ofList (text.toList.flatMap visibleChar)

/-- A number in base 16 with at least `width` digits. -/
def hexDigits (width : Nat) (n : Nat) : List Char :=
  let digits := Nat.toDigits 16 n
  List.replicate (width - digits.length) '0' ++ digits

/-- One character between the quotes `quote`: the quote itself and the backslash are escaped,
what does not print is given by its code. -/
def quotedChar (quote : Char) (c : Char) : List Char :=
  if c = quote || c = '\\' then ['\\', c]
  else if c = '\n' || c = '\r' || c = '\t' then visibleChar c
  else if isPrintable c then [c]
  else if c.toNat < 0x100 then '\\' :: 'x' :: hexDigits 2 c.toNat
  else if c.toNat < 0x10000 then '\\' :: 'u' :: hexDigits 4 c.toNat
  else '\\' :: 'U' :: hexDigits 8 c.toNat

/-- A text between quotes. Single quotes are used, unless the text holds one and no double one. -/
def quoted (text : String) : String :=
  let chars := text.toList
  let quote := if chars.contains '\'' && !chars.contains '"' then '"' else '\''
  String.ofList (quote :: chars.flatMap (quotedChar quote) ++ [quote])

end Little
