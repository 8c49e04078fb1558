import Little.Source.Digit
import Little.Source.Escape

/-!
# The arguments of the command

The command takes one optional file and two switches. A switch is given by its short or its long
spelling; a long one may be cut short as long as it fits one switch only, and short ones may be
written together behind one hyphen. Behind `--` everything is a file.

`Arguments.parse` first decides of each argument by itself what it is (`Argument.classify`) and
then goes through them in order.
-/

namespace Little

/-- The switches of the command. -/
inductive Switch where
  | help
  | verbose
deriving DecidableEq, Repr

namespace Switch

def all : List Switch := [.help, .verbose]

def letter : Switch → Char
  | .help => 'h'
  | .verbose => 'v'

def short (switch : Switch) : List Char := ['-', switch.letter]

def long : Switch → List Char
  | .help => "--help".toList
  | .verbose => "--verbose".toList

/-- How messages name a switch. -/
def display (switch : Switch) : String :=
  String.ofList (switch.short ++ '/' :: switch.long)

/-- The switch with that letter. -/
def lettered? (letter : Char) : Option Switch := all.find? (·.letter = letter)

end Switch

/-- What an argument is, taken by itself. -/
inductive Argument where
  /-- The name of a file. -/
  | file
  /-- The mark behind which everything is a file. -/
  | dashes
  /-- A switch, with letters written behind its short spelling. -/
  | short (switch : Switch) (attached : Option (List Char))
  /-- A switch in its long spelling, with a value behind an equals sign. -/
  | long (switch : Switch) (attached : Option (List Char))
  /-- A beginning that several switches share. -/
  | ambiguous (switches : List Switch)
  /-- What looks like a switch but is none. -/
  | unknown
deriving DecidableEq, Repr

namespace Argument

/-- A text up to the first equals sign, and what stands behind that sign. -/
def splitValue (text : List Char) : List Char × Option (List Char) :=
  match text.dropWhile (· ≠ '=') with
  | [] => (text, none)
  | _ :: value => (text.takeWhile (· ≠ '='), some value)

/-- A text without the line feed at its end, if there is one. -/
def dropLineEnd (text : List Char) : List Char :=
  if text.getLast? = some '\n' then text.dropLast else text

/-- Whether a text is a negative number: a hyphen and digits, or a hyphen, digits if wanted, a point
and digits. The digits may be those of any script, and a line feed at the end does not count. -/
def isNegativeNumber (text : List Char) : Bool :=
  match text with
  | '-' :: number =>
    let number := dropLineEnd number
    match number.dropWhile isDecimalDigit with
    | [] => !number.isEmpty
    | '.' :: decimals => !decimals.isEmpty && decimals.all isDecimalDigit
    | _ => false
  | _ => false

/-- What an argument with a leading hyphen is if it spells no switch in full. -/
def classifyOther (text : List Char) : Argument :=
  if isNegativeNumber text || text.contains ' ' then .file else .unknown

/-- What an argument is that begins with two hyphens. -/
def classifyLong (text : List Char) : Argument :=
  let (spelling, value) := splitValue text
  match Switch.all.filter fun switch => spelling.isPrefixOf switch.long with
  | [] => classifyOther text
  | [switch] => .long switch value
  | switches => .ambiguous switches

/-- What an argument is, taken by itself. -/
def classify (text : List Char) : Argument :=
  match text with
  | ['-', '-'] => .dashes
  | '-' :: '-' :: _ => classifyLong text
  | ['-', letter] =>
    match Switch.lettered? letter with
    | some switch => .short switch none
    | none => classifyOther text
  | '-' :: letter :: attached =>
    match Switch.lettered? letter with
    | some switch =>
      match attached with
      | '=' :: value => .short switch (some value)
      | attached => .short switch (some attached)
    | none => classifyOther text
  | _ => .file

/-- What each of several arguments is: behind the mark everything is a file. -/
def classifyAll : List String → List (String × Argument)
  | [] => []
  | text :: rest =>
    match classify text.toList with
    | .dashes => (text, .dashes) :: rest.map fun text => (text, .file)
    | argument => (text, argument) :: classifyAll rest

end Argument

/-- What is wrong with the arguments. -/
inductive UsageError where
  | unrecognized (arguments : List String)
  | ignoredValue (switch : Switch) (value : String)
  | ambiguous (argument : String) (switches : List Switch)
deriving DecidableEq, Repr

def UsageError.message : UsageError → String
  | .unrecognized arguments => "unrecognized arguments: " ++ " ".intercalate arguments
  | .ignoredValue switch value =>
    "argument " ++ switch.display ++ ": ignored explicit argument " ++ quoted value
  | .ambiguous argument switches =>
    "ambiguous option: " ++ argument ++ " could match " ++
      ", ".intercalate (switches.map fun switch => String.ofList switch.long)

/-- What the command is asked to do. -/
inductive Invocation where
  /-- Show how the command is used. -/
  | help
  /-- Read a file, `-` being the standard input, and follow the scope pass if `verbose`. -/
  | analyze (file : String) (verbose : Bool)
deriving DecidableEq, Repr

namespace Arguments

/-- The file that is read if none is given. -/
def defaultFile : String := "-"

/-- The switches that letters written together stand for: the one already read, then one for each
letter, which must be known. -/
def cluster (switch : Switch) : List Char → Except UsageError (List Switch)
  | [] => .ok [switch]
  | letter :: rest =>
    match Switch.lettered? letter with
    | none => .error (.ignoredValue switch (String.ofList (letter :: rest)))
    | some next => (cluster next rest).map (switch :: ·)

/-- The switches an argument stands for. No switch takes a value. -/
def switches : Argument → Except UsageError (List Switch)
  | .short switch none | .long switch none => .ok [switch]
  | .short switch (some []) => .error (.ignoredValue switch "")
  | .short switch (some attached) => cluster switch attached
  | .long switch (some value) => .error (.ignoredValue switch (String.ofList value))
  | .file | .dashes | .ambiguous _ | .unknown => .ok []

/-- What has been made of the arguments so far. -/
structure Reading where
  /-- The file, once it is settled. -/
  file : Option String
  verbose : Bool
  /-- Arguments that there is no use for. -/
  extra : List String
deriving DecidableEq, Repr

namespace Reading

def start : Reading := ⟨none, false, []⟩

/-- What is asked for when all arguments have been read. -/
def finish (reading : Reading) : Except UsageError Invocation :=
  if reading.extra.isEmpty then
    .ok (.analyze (reading.file.getD defaultFile) reading.verbose)
  else .error (.unrecognized reading.extra)

/-- Reads arguments from left to right. The first file is the one read, and takes a mark next to
it along; a call for help ends the reading. -/
def read (reading : Reading) : List (String × Argument) → Except UsageError Invocation
  | [] => reading.finish
  | (text, .file) :: rest =>
    match reading.file, rest with
    | none, (_, .dashes) :: rest => { reading with file := some text }.read rest
    | none, rest => { reading with file := some text }.read rest
    | some _, rest => { reading with extra := reading.extra ++ [text] }.read rest
  | (text, .dashes) :: rest =>
    match reading.file, rest with
    | none, (file, _) :: rest => { reading with file := some file }.read rest
    | none, [] => reading.finish
    | some _, rest => { reading with extra := reading.extra ++ [text] }.read rest
  | (text, .unknown) :: rest => { reading with extra := reading.extra ++ [text] }.read rest
  | (_, argument) :: rest =>
    match switches argument with
    | .error error => .error error
    | .ok found =>
      if found.contains .help then .ok .help
      else { reading with verbose := true }.read rest

end Reading

/-- The first argument that several switches fit. -/
def firstAmbiguous? (arguments : List (String × Argument)) : Option UsageError :=
  arguments.findSome? fun
    | (text, .ambiguous switches) => some (.ambiguous text switches)
    | _ => none

/-- What the arguments ask for. -/
def parse (arguments : List String) : Except UsageError Invocation :=
  let classified := Argument.classifyAll arguments
  match firstAmbiguous? classified with
  | some error => .error error
  | none => Reading.start.read classified

/-- The line that shows how the command is used. -/
def usage : String := "usage: little-scopes [-h] [-v] [file]\n"

/-- The whole help text. -/
def helpText : String :=
  usage ++
    "\nConstruye la tabla de símbolos de un programa Little e imprime sus bloques y\n" ++
    "main.\n" ++
    "\npositional arguments:\n" ++
    "  file           archivo fuente Little; '-' o vacío lee de la entrada estándar\n" ++
    "\noptions:\n" ++
    "  -h, --help     show this help message and exit\n" ++
    "  -v, --verbose  traza de apertura y cierre de alcances en stderr\n"

/-- What is shown if the arguments cannot be used. -/
def complaint (error : UsageError) : String :=
  usage ++ "little-scopes: error: " ++ error.message ++ "\n"

end Arguments

end Little
