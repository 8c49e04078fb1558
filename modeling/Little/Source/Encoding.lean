/-!
# Bytes as text

`Encoding.decode` reads bytes strictly: it gives no text at all where some byte cannot be read.
UTF-8 refuses overlong forms, surrogates and values above `U+10FFFF`; a byte order mark is a
character like any other.
-/

namespace Little

/-- The encodings in which a source file can be read. -/
inductive Encoding where
  /-- UTF-8. -/
  | utf8
  /-- ISO 8859-1: every byte is the character of that number. -/
  | latin1
  /-- ASCII: only bytes below 128 are characters. -/
  | ascii
deriving DecidableEq, Repr

namespace Encoding

/-- Encodings go by these names. -/
def ofName? : String → Option Encoding
  | "utf-8" => some .utf8
  | "latin-1" => some .latin1
  | "ascii" => some .ascii
  | _ => none

/-- The text that bytes stand for, if all of them can be read. -/
def decode (encoding : Encoding) (bytes : ByteArray) : Option String :=
  match encoding with
  | .utf8 => String.fromUTF8? bytes
  | .latin1 => some (String.ofList (bytes.toList.map fun b => Char.ofNat b.toNat))
  | .ascii =>
    if bytes.toList.all (· < 128) then
      some (String.ofList (bytes.toList.map fun b => Char.ofNat b.toNat))
    else none

end Encoding

end Little
