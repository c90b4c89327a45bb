import JavaAbi.Command.Project
import JavaAbi.Diagnostics.Render
import JavaAbi.Stub.Extract

namespace JavaAbi

/-!
# Running commands

`Invocation.run` does what a command line asks for, and gives the exit code.

* `runStubs` — writes a stub for each top-level type, into files or to the output;
* `runLookup` — prints the stub of one type.

Both end with the diagnostics; `quiet` leaves out all else that goes to the error stream.
-/

/-! ### Results -/

/-- What a command found out: the stubs, and all diagnostics in order. -/
structure Extracted (α : Type) where
  result : α
  diagnostics : Sink
  deriving Inhabited

/-- Runs an extraction after what was reported. -/
def OpenBatch.extract {α : Type} (b : OpenBatch) (x : Extraction α) :
    Except Breach (Extracted α) := do
  let (result, found) ← ((x.run #[]).run b.session).1
  return ⟨result, ({} : Sink).emitAll (b.reported ++ found.toList)⟩

/-- What an extraction gives; a breach is an error of the command. -/
def unbroken {α : Type} (r : Except Breach α) : CommandM α :=
  match r with
  | .ok a => return a
  | .error b => throw (.breach b)

/-- The stubs of all top-level types. -/
def OpenBatch.stubs (b : OpenBatch) :
    Except Breach (Extracted (Except ModelError (List TypeStub))) :=
  b.extract do
    match ← (topLevelTypes.run : SessionM _) with
    | .error e => return .error e
    | .ok ids => return .ok (← ids.mapM (JavaAbi.extract b.files))

/-- The stub of a type and its origin. -/
def OpenBatch.lookup (b : OpenBatch) (name : String) :
    Except Breach (Extracted (Except ModelError (TypeStub × ElementOrigin))) :=
  b.extract do
    match ← ((lookupType name).run : SessionM _) with
    | .error e => return .error e
    | .ok id => return .ok (← JavaAbi.extract b.files id, (← elementAt id).origin)

/-! ### Printing -/

/-- Prints the diagnostics, each with an empty line after it. -/
def printDiagnostics (color : Bool) (files : Batch) (s : Sink) : CommandM Unit :=
  (Diagnostic.renderAll color files s.pending.toList).forM fun text => printError (text ++ "\n")

/-- Prints a line to the error stream, unless asked to be quiet. -/
def printNotice (quiet : Bool) (text : String) : CommandM Unit :=
  if quiet then return else printError (text ++ "\n")

/-- The word for an origin. -/
def ElementOrigin.word : ElementOrigin → String
  | .tree => "Tree"
  | .classpath => "Opaque"
  | .synthetic => "Synthetic"

/-- The line that counts stubs, errors and warnings. -/
def summary (stubs : Nat) (s : Sink) : String :=
  let warnings := s.pending.toList.countP (·.severity = .warning)
  "   Result: " ++ toString stubs ++ " stub(s), " ++ toString s.errors ++ " error(s), "
    ++ toString warnings ++ " warning(s)"

/-! ### Writing stubs -/

/-- The name and the text of the file for a stub. -/
def TypeStub.file (f : StubFormat) (s : TypeStub) : String × String :=
  match f with
  | .json => (s.surface.name ++ ".json", s.toJson.pretty)
  | .text => (s.surface.name ++ ".txt", s.text)

/-- Stubs as one text. -/
def stubsText (f : StubFormat) (stubs : List TypeStub) : String :=
  match f with
  | .json => (Json.array (TypeStub.toJsons stubs)).pretty ++ "\n"
  | .text => String.join (stubs.map TypeStub.text)

/-- Writes stubs into a directory, a file for each. -/
def writeStubs (f : StubFormat) (dir : FilePath) (stubs : List TypeStub) : CommandM Unit := do
  makeDirs dir
  stubs.forM fun s =>
    let (name, text) := s.file f
    writeFile (dir.join name) text

/-! ### Commands -/

/-- Writes the stubs of all top-level types. The exit code tells whether an error was reported. -/
def runStubs (quiet color : Bool) (p : Project) (inputs : Inputs) (out : Option String)
    (format : Option StubFormat) : CommandM Nat := do
  printNotice quiet ("   Resolving " ++ p.config.project.name)
  match ← p.openBatch? inputs with
  | none =>
    printNotice quiet "warning: no Java source files found"
    return 0
  | some b =>
    let ⟨result, diagnostics⟩ ← unbroken b.stubs
    match result with
    | .error e => throw (.model e)
    | .ok stubs =>
      let format := format.getD p.config.output.format
      match out.map FilePath.mk <|> p.config.output.dir.map p.root.join with
      | some dir => writeStubs format dir stubs
      | none => print (stubsText format stubs)
      printDiagnostics color b.files diagnostics
      printNotice quiet (summary stubs.length diagnostics)
      return if diagnostics.hasErrors then 1 else 0

/-- Prints the stub of a type. The exit code tells whether there is such a type. -/
def runLookup (quiet color : Bool) (p : Project) (inputs : Inputs) (name : String) :
    CommandM Nat := do
  match ← p.openBatch? inputs with
  | none =>
    printError "error: no Java source files found\n"
    return 1
  | some b =>
    let ⟨result, diagnostics⟩ ← unbroken (b.lookup name)
    let code ←
      match result with
      | .ok (stub, origin) => do
        print stub.text
        printNotice quiet ("   Origin: " ++ origin.word)
        pure 0
      | .error e => do
        printError ("error: " ++ e.message ++ "\n")
        pure 1
    printDiagnostics color b.files diagnostics
    return code

/-- Does what a command line asks for. `terminal` tells whether a terminal shows the error stream,
    which by default gets colours only then. -/
def Invocation.run (terminal : Bool) (i : Invocation) : CommandM Nat := do
  let color :=
    match i.color with
    | .auto => terminal
    | .always => true
    | .never => false
  let p ← Project.load i.config
  match i.command with
  | .stubs inputs out format => runStubs i.quiet color p inputs out format
  | .lookup inputs name => runLookup i.quiet color p inputs name

end JavaAbi
