import JavaAbi.Command.Run

/-!
# The command line

The files that a command may see are those that standard input lists, one path a line. Their texts
are read before the command runs, and what it writes is written after it.
-/

namespace JavaAbi

/-- What is shown instead of running a command. -/
def usage : String :=
  "Usage: jabi [OPTIONS] <stubs [PATHS]... | lookup <NAME> [PATHS]...>\n"

/-- The lines of a stream. -/
partial def readLines (stream : IO.FS.Stream) : IO (List String) := do
  let line ← stream.getLine
  if line.isEmpty then
    return []
  return String.ofList (line.toList.filter (· ≠ '\n')) :: (← readLines stream)

/-- The text of a file, unless it cannot be read. -/
def readText? (path : String) : IO (Option String) := do
  try
    return some (← IO.FS.readFile path)
  catch _ =>
    return none

/-- Writes the files and makes the directories that a workspace has and an earlier tree has not. -/
def store (before : FileTree) (w : Workspace) : IO Unit := do
  for place in w.tree.dirs.drop before.dirs.length do
    IO.FS.createDirAll ("/" ++ "/".intercalate place)
  for (place, text) in before.changes w.tree do
    IO.FS.writeFile ("/" ++ "/".intercalate place) (text.getD "")

/-- Does what a command line asks for. -/
def runHere (i : Invocation) : IO UInt32 := do
  let stdout ← IO.getStdout
  let stderr ← IO.getStderr
  let cwd := (FilePath.mk (toString (← IO.currentDir))).placeFrom []
  let paths ← readLines (← IO.getStdin)
  let files ← paths.mapM fun path =>
    return ((FilePath.mk path).placeFrom cwd, ← readText? path)
  let tree : FileTree := ⟨files, [cwd]⟩
  let terminal := (← stderr.isTty) && (← IO.getEnv "NO_COLOR").isNone
  let (result, w) := (i.run terminal).run.run { tree, cwd }
  store tree w
  stdout.putStr w.stdout
  stderr.putStr w.stderr
  match result with
  | .ok code => return code.toUInt32
  | .error e =>
    stderr.putStrLn ("error: " ++ e.message)
    return 1

end JavaAbi

open JavaAbi

/-- Runs the command that the arguments name, and gives its exit code. -/
def main (arguments : List String) : IO UInt32 := do
  match Invocation.ofArguments arguments with
  | .ok i => runHere i
  | .error .help =>
    IO.print usage
    return Refusal.help.exitCode.toUInt32
  | .error .misuse =>
    IO.eprint usage
    return Refusal.misuse.exitCode.toUInt32
