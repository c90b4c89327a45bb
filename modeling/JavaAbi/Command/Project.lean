import JavaAbi.Command.Arguments
import JavaAbi.Command.Workspace
import JavaAbi.Config.Reader
import JavaAbi.Model.Query
import JavaAbi.Symbols.Platform
import JavaAbi.Syntax.Parser.Unit

namespace JavaAbi

/-!
# Projects

A command works on a project: a directory with settings. The sources and symbol files come from the
command line and from the settings.

* `Project.load` — the project that the command line names, else the nearest one;
* `sourceFiles` — the source files under some roots;
* `Project.openBatch?` — the session over the sources of a project, with what the parser reports.
-/

/-! ### Settings -/

/-- A directory with settings. Relative paths in the settings are taken from it. -/
structure Project where
  root : FilePath
  config : Config
  deriving Inhabited

namespace Project

/-- The name of a project file. -/
def fileName : String := "jabi.toml"

/-- The settings of a project file. -/
def readConfig (file : FilePath) : CommandM Config := do
  match Config.ofText (← readFile file (.config .unreadable)) with
  | .ok c => return c
  | .error e => throw (.config e)

/-- The nearest directory with a project file, from `dir` upwards; `fuel` bounds the way up. -/
def nearestRoot? : Nat → FilePath → CommandM (Option FilePath)
  | 0, _ => return none
  | fuel + 1, dir => do
    if ← isFile (dir.join fileName) then
      return some dir
    if dir.parent = dir then
      return none
    nearestRoot? fuel dir.parent

/-- The project that `path` names: a project file, or a directory with one. -/
def loadNamed (path : FilePath) : CommandM Project := do
  if ← isDir path then
    return ⟨path, ← readConfig (path.join fileName)⟩
  return ⟨path.parent, ← readConfig path⟩

/-- The project that the command line names, else the nearest one, else the working directory
    with the default settings. -/
def load (named : Option String) : CommandM Project := do
  match named with
  | some path => loadNamed ⟨path⟩
  | none =>
    let cwd ← workingDir
    match ← nearestRoot? cwd.text.length cwd with
    | some root => return ⟨root, ← readConfig (root.join fileName)⟩
    | none => return ⟨cwd, {}⟩

/-- Where sources are: what the command line names, else the source directories. -/
def sourceRoots (p : Project) (inputs : Inputs) : List FilePath :=
  if inputs.paths.isEmpty then p.config.project.sources.map p.root.join
  else inputs.paths.map FilePath.mk

/-- The symbol files, those of the command line first. -/
def symbolFiles (p : Project) (inputs : Inputs) : List FilePath :=
  inputs.symbols.map FilePath.mk ++ p.config.classpath.symbols.map p.root.join

end Project

/-! ### Sources -/

/-- The source files in a directory and those below it; `fuel` bounds the depth. -/
def filesUnder : Nat → FilePath → CommandM (List FilePath)
  | 0, _ => return []
  | fuel + 1, dir => do
    let found ← (← listDir dir).mapM fun name => do
      let path := dir.join name
      if ← isDir path then
        filesUnder fuel path
      else
        return if path.isJavaSource then [path] else []
    return found.flatten

/-- The source files at a root, which may be a directory or a file. Nothing need be there. -/
def filesAt (root : FilePath) : CommandM (List FilePath) := do
  if ← isDir root then
    filesUnder (← get).tree.depth root
  else if root.isJavaSource && (← isFile root) then
    return [root]
  else
    return []

/-- The source files at some roots, in order, each once. -/
def sourceFiles (roots : List FilePath) : CommandM (List FilePath) := do
  return FilePath.sorted (← roots.mapM filesAt).flatten

/-! ### Batches -/

/-- Reads a symbol file. -/
def readSymbols (path : FilePath) : CommandM Layer := do
  match SymbolTable.ofJsonText? (← readFile path) with
  | some table => return table.layer
  | none => throw (.badSymbolFile path)

/-- A session over source files, with the diagnostics of parsing them. -/
structure OpenBatch where
  files : Batch
  session : Session
  reported : List Diagnostic
  deriving Inhabited

namespace Project

/-- What is known of precompiled types: the symbol files, then the platform table. -/
def readProvider (p : Project) (inputs : Inputs) : CommandM Provider := do
  let layers ← (p.symbolFiles inputs).mapM readSymbols
  let platform := p.config.classpath.platform && !inputs.noPlatform
  return Layers.provider (layers ++ if platform then [SymbolTable.platform.layer] else [])

/-- The session over the sources of a project; none without sources. Types that are declared more
    than once are reported after all that the parser reports. -/
def openBatch? (p : Project) (inputs : Inputs) : CommandM (Option OpenBatch) := do
  let paths ← sourceFiles (p.sourceRoots inputs)
  if paths.isEmpty then
    return none
  let provider ← p.readProvider inputs
  let files ← paths.mapM fun path => return (⟨path.text, ← readFile path⟩ : SourceFile)
  let (units, names, errors) := parseBatch files.toArray
  let (duplicates, session) := reportDuplicates.run (Session.start 0 units names provider p.config.model)
  match duplicates with
  | .ok found => return some ⟨files.toArray, session, errors ++ found⟩
  | .error b => throw (.breach b)

end Project

end JavaAbi
