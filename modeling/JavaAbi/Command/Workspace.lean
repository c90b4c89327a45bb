import JavaAbi.Config.Basic
import JavaAbi.Files.Tree
import JavaAbi.Model.Session

namespace JavaAbi

/-!
# Workspaces

A command works in a workspace: a file tree, a working directory in it, and what was printed so far.

* `CommandM` — what a command does to its workspace, until it is done or an error stops it;
* `readFile`, `makeDirs`, `writeFile`, `print`, `printError` — its steps.
-/

/-- Where a command works. -/
structure Workspace where
  tree : FileTree
  cwd : Place := []
  stdout : String := ""
  stderr : String := ""
  deriving Inhabited

/-- Why a command stops. -/
inductive CommandError where
  | config (e : ConfigError)
  | unreadable (path : FilePath)
  | badSymbolFile (path : FilePath)
  | unwritable (path : FilePath)
  | model (e : ModelError)
  | breach (b : Breach)
  deriving Inhabited

/-- The message of an error. -/
def CommandError.message : CommandError → String
  | config e => e.message
  | unreadable path => "failed to read " ++ path.text
  | badSymbolFile path => "failed to parse symbol table " ++ path.text
  | unwritable path => "failed to write " ++ path.text
  | model e => e.message
  | breach _ => "internal error"

/-- What a command does. An error leaves what was done before it. -/
abbrev CommandM := ExceptT CommandError (StateM Workspace)

/-! ### Steps -/

/-- The path of the working directory. -/
def workingDir : CommandM FilePath := return ⟨"/" ++ "/".intercalate (← get).cwd⟩

/-- Whether a path leads to a directory. -/
def isDir (p : FilePath) : CommandM Bool := return (← get).tree.isDir (← get).cwd p

/-- Whether a path leads to a file. -/
def isFile (p : FilePath) : CommandM Bool := return (← get).tree.isFile (← get).cwd p

/-- The names in a directory. -/
def listDir (p : FilePath) : CommandM (List String) := do
  match (← get).tree.list? (← get).cwd p with
  | some names => return names
  | none => throw (.unreadable p)

/-- The text of a file; `error` if there is none. -/
def readFile (p : FilePath) (error : CommandError := .unreadable p) : CommandM String := do
  match (← get).tree.read? (← get).cwd p with
  | some text => return text
  | none => throw error

/-- Makes a directory and those above it. -/
def makeDirs (p : FilePath) : CommandM Unit := do
  match (← get).tree.makeDirs? (← get).cwd p with
  | some tree => modify ({ · with tree })
  | none => throw (.unwritable p)

/-- Puts a text into a file. -/
def writeFile (p : FilePath) (text : String) : CommandM Unit := do
  match (← get).tree.write? (← get).cwd p text with
  | some tree => modify ({ · with tree })
  | none => throw (.unwritable p)

/-- Prints to the output. -/
def print (text : String) : CommandM Unit := modify fun w => { w with stdout := w.stdout ++ text }

/-- Prints to the error stream. -/
def printError (text : String) : CommandM Unit :=
  modify fun w => { w with stderr := w.stderr ++ text }

end JavaAbi
