import Little.Command.Files
import Little.Parsing

/-!
# Parsing files

A source file is read byte by byte as it is: no line break is changed and no byte order mark is
dropped.
-/

namespace Little

/-- Why a source file is not parsed. -/
inductive SourceError where
  | file (error : FileError)
  /-- The bytes are not text in the encoding asked for. -/
  | undecodable
  | refused (refusal : Refusal)
deriving Repr

namespace SourceFile

/-- Parses bytes as requested. -/
def parseBytes (encoding : Encoding) (request : Request) (bytes : ByteArray) :
    Except SourceError Parse :=
  match encoding.decode bytes with
  | none => .error .undecodable
  | some source => (request.parse source).mapError .refused

/-- Parses a file as requested. -/
def parse (files : Files) (path : String) (encoding : Encoding) (request : Request) :
    Except SourceError Parse :=
  match files.read path with
  | .error error => .error (.file error)
  | .ok bytes => parseBytes encoding request bytes

/-- A request for a whole program, which takes it as it is. -/
def wholeProgram : Request := ⟨Rule.program.entryName, false⟩

/-- Parses a program: the file, if the text is the path of one, and else the text itself. -/
def parseFileOrText (files : Files) (text : String) : Except SourceError Parse :=
  match files.regular? (Files.plainPath text) with
  | some bytes => parseBytes .utf8 wholeProgram bytes
  | none => (wholeProgram.parse text).mapError .refused

end SourceFile

end Little
