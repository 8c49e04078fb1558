import Little.Command.Arguments
import Little.Command.Files
import Little.Parsing
import Little.Scope.Builder
import Little.Source.Newline

/-!
# The command

`Command.run` is the whole command: it reads the arguments, the source, parses it, builds its
symbol table and prints the report. The source is read as UTF-8 with every line break taken for a
line feed. The standard output holds the report or the one line about a duplicate declaration, and
nothing else.
-/

namespace Little

/-- What the command leaves: its status and what it wrote. -/
structure Console where
  status : Nat
  stdout : String
  stderr : String
deriving DecidableEq, Repr

/-- How a run of the command ends. -/
inductive Ending where
  | exit (console : Console)
  /-- The source is not UTF-8. -/
  | undecodable
  /-- The name of the source is a text that no path can be. -/
  | noPath
  /-- The scope pass met something other than a duplicate that it cannot go on from. -/
  | halted (halt : Halt)
deriving DecidableEq, Repr

/-- A line of the log that follows the scope pass. -/
def logLine (logger message : String) : String := "DEBUG " ++ logger ++ ": " ++ message

/-- What the log says about a scope pass. -/
def Outcome.log (outcome : Outcome) : List String :=
  outcome.builder.notices.reverse.map fun notice =>
    logLine "semantic.scope_builder" notice.message

/-- What the log says at last about a pass that a duplicate ended. -/
def SemanticError.lastEntry (error : SemanticError) : String :=
  logLine "cli"
    ("análisis interrumpido en línea " ++
      match error.place.line with
      | some line => toString line
      | none => "None")

namespace Command

/-- What the command does with a source. -/
def analyzeSource (verbose : Bool) (source : String) : Ending :=
  let parse := Parse.ofSource .program source
  if parse.ok then
    let outcome := Builder.start.walk parse.tree.events
    let log := if verbose then outcome.log else []
    match outcome.halt with
    | none => .exit ⟨0, outcome.builder.table.report, endLines log⟩
    | some (.semantic error) =>
      let log := if verbose then log ++ [error.lastEntry] else []
      .exit ⟨1, endLines [error.message], endLines log⟩
    | some halt => .halted halt
  else .exit ⟨2, "", endLines (parse.diagnostics.map Diagnostic.render)⟩

/-- What the command does with the bytes of a source. -/
def analyzeBytes (verbose : Bool) (bytes : ByteArray) : Ending :=
  match Encoding.utf8.decode bytes with
  | some source =>
    analyzeSource verbose (String.ofList (unifyNewlines source.toList))
  | none => .undecodable

/-- The bytes that the command reads. -/
def input (files : Files) (stdin : ByteArray) (file : String) : Except FileError ByteArray :=
  if file = Arguments.defaultFile then .ok stdin else files.read (Files.plainPath file)

/-- What the command does. -/
def run (arguments : List String) (stdin : ByteArray) (files : Files) : Ending :=
  match Arguments.parse arguments with
  | .error error => .exit ⟨2, "", Arguments.complaint error⟩
  | .ok .help => .exit ⟨0, Arguments.helpText, ""⟩
  | .ok (.analyze file verbose) =>
    match input files stdin file with
    | .ok bytes => analyzeBytes verbose bytes
    | .error .nullInPath => .noPath
    | .error error =>
      .exit ⟨2, "", endLines ["No se pudo leer " ++ file ++ ": " ++ error.message]⟩

end Command

end Little
