import Little.Parsing
import Little.Scope.Builder
import Little.Workbench.Sample

/-!
# The workbench

A workbench is an editor with a console. At each step one may choose a sample, edit, clear the
console and run the pass, in this order; what the last run found stays in view until the next one.
A sample is loaded when its name is chosen and it is not the one that was loaded last.
-/

namespace Little

/-- What is done in one step. -/
structure Step where
  /-- The name of the sample chosen. -/
  choice : String
  /-- The text left in the editor, if it was edited. -/
  edit : Option String
  run : Bool
  clear : Bool
  /-- Whether the tree is to be shown. -/
  tree : Bool
deriving DecidableEq, Repr

/-- What is kept from step to step. -/
structure Session where
  /-- The text in the editor. -/
  code : String
  console : String
  /-- How many samples have been loaded, so that the editor is made anew for each. -/
  editorKey : Nat
  /-- What the last run made of its text. -/
  lastParse : Option Parse
  /-- The table of the last run, if it came to one. -/
  table : Option SymbolTable
  /-- The sample loaded last. -/
  loaded : Option String
deriving Repr

/-- A line of the view on the table. -/
structure Row where
  scope : String
  kind : ScopeKind
  name : String
  type : String
  value : String
deriving DecidableEq, Repr

/-- What is seen after a step. -/
structure View where
  code : String
  console : String
  /-- The texts on display: the console or its placeholder, then the tree if it is shown. -/
  shown : List String
  rows : Option (List Row)
  options : List String
  editorKey : Nat
deriving DecidableEq, Repr

/-- A row for every symbol of a table, scope by scope. -/
def SymbolTable.rows (table : SymbolTable) : List Row :=
  table.listed.flatMap fun scope =>
    scope.symbols.map fun symbol =>
      ⟨scope.name, scope.kind, symbol.name, symbol.type, symbol.value.getD ""⟩

namespace Session

/-- The choice that stands for no sample. -/
def noSample : String := "(ninguno)"

/-- What is shown in place of an empty console. -/
def placeholder : String := "// La salida aparecerá aquí..."

/-- The choices offered. -/
def options : List String := noSample :: Sample.all.map (·.1)

def start : Session where
  code := Sample.snippet
  console := ""
  editorKey := 0
  lastParse := none
  table := none
  loaded := none

/-- The line that tells of a loaded sample. -/
def loadLine (name : String) : String := "📦 Ejemplo cargado: " ++ name ++ "\n"

/-- Loads the sample chosen, unless it is the one loaded last. -/
def choose (session : Session) (choice : String) : Session :=
  if choice = noSample || session.loaded = some choice then session
  else
    match Sample.text? choice with
    | none => session
    | some text =>
      { session with
        code := text
        console := session.console ++ loadLine choice
        editorKey := session.editorKey + 1
        loaded := some choice }

/-- Takes over what the editor holds. -/
def edit (session : Session) (text : Option String) : Session :=
  { session with code := text.getD session.code }

/-- Empties the console. -/
def clear (session : Session) : Session := { session with console := "" }

/-- What a run writes about diagnostics. -/
def syntaxOutput (diagnostics : List Diagnostic) : String :=
  "❌ Errores de sintaxis: " ++ toString diagnostics.length ++ "\n" ++
    endLines (diagnostics.map Diagnostic.render)

/-- What a run makes of a text: the table, if it comes to one, and what is written. A pass that
halts for anything but a duplicate writes nothing. -/
def runOutput (parse : Parse) : Option SymbolTable × String :=
  if parse.ok then
    match analyze parse.tree with
    | .ok table => (some table, table.report)
    | .error (.semantic error) => (none, endLines [error.message])
    | .error _ => (none, "")
  else (none, syntaxOutput parse.diagnostics)

/-- Runs the pass on the text in the editor. -/
def run (session : Session) : Session :=
  let parse := Parse.ofSource .program session.code
  let (table, output) := runOutput parse
  { session with
    lastParse := some parse
    table := table
    console := session.console ++ output }

/-- Carries out a step. -/
def step (session : Session) (step : Step) : Session :=
  let session := (session.choose step.choice).edit step.edit
  let session := if step.clear then session.clear else session
  if step.run then session.run else session

/-- What is seen after a step that asked for the tree or did not. -/
def view (session : Session) (tree : Bool) : View where
  code := session.code
  console := session.console
  shown :=
    (if session.console = "" then placeholder else session.console) ::
      if tree then (session.lastParse.map fun parse => parse.tree.render).toList else []
  rows := session.table.map SymbolTable.rows
  options := options
  editorKey := session.editorKey

/-- What is seen after each of several steps. -/
def views (session : Session) : List Step → List View
  | [] => []
  | step :: steps =>
    let session := session.step step
    session.view step.tree :: session.views steps

end Session

end Little
