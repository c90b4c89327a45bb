import JavaAbi.Text.Letters
import JavaAbi.Text.Pieces

namespace JavaAbi

/-!
# Configuration

What a project file `jabi.toml` sets. Every section may be missing, and has then its defaults.

* `Config` — the settings, in one record for each section;
* `Config.check` — the rules that the settings keep, and the error of the first one broken.
-/

/-! ### Choices -/

/-- How stubs are written. -/
inductive StubFormat where
  | json
  | text
  deriving DecidableEq, Inhabited, Repr

/-- The word for a stub format. -/
def StubFormat.word : StubFormat → String
  | json => "json"
  | text => "text"

/-- The stub format of a word. -/
def StubFormat.ofWord? (word : String) : Option StubFormat := [json, text].find? (·.word == word)

/-- How lines of the log are written. -/
inductive LogFormat where
  | text
  | json
  deriving DecidableEq, Inhabited, Repr

/-- The word for a log format. -/
def LogFormat.word : LogFormat → String
  | text => "text"
  | json => "json"

/-- The log format of a word. -/
def LogFormat.ofWord? (word : String) : Option LogFormat := [text, json].find? (·.word == word)

/-- What is logged: each level with all before it. -/
inductive LogLevel where
  | error
  | warn
  | info
  | debug
  | trace
  deriving DecidableEq, Inhabited, Repr

namespace LogLevel

/-- The levels, from the quietest one. -/
def all : List LogLevel := [error, warn, info, debug, trace]

/-- The word for a level. -/
def word : LogLevel → String
  | error => "error"
  | warn => "warn"
  | info => "info"
  | debug => "debug"
  | trace => "trace"

/-- The level of a word. -/
def ofWord? (word : String) : Option LogLevel := all.find? (·.word == word)

/-- The place of a level among all. -/
def rank (l : LogLevel) : Nat := all.idxOf l

/-- The level, or `other` if that logs more. -/
def atLeast (l other : LogLevel) : LogLevel := if l.rank < other.rank then other else l

end LogLevel

/-! ### Sections -/

/-- The project and its source directories. -/
structure ProjectConfig where
  name : String := "jabi"
  sources : List String := ["src"]
  deriving DecidableEq, Inhabited, Repr

/-- What is known of precompiled types: symbol files, and the built-in platform table. -/
structure ClasspathConfig where
  symbols : List String := []
  platform : Bool := true
  deriving DecidableEq, Inhabited, Repr

/-- Names that the model treats specially: the class above all others, and the packages that every
    file imports. -/
structure ModelConfig where
  rootObject : String := "java.lang.Object"
  implicitImports : List String := ["java.lang"]
  deriving DecidableEq, Inhabited, Repr

/-- Where stubs go; without a directory they are printed. -/
structure OutputConfig where
  dir : Option String := none
  format : StubFormat := .json
  deriving DecidableEq, Inhabited, Repr

/-- What is logged. -/
structure LogConfig where
  level : LogLevel := .info
  format : LogFormat := .text
  deriving DecidableEq, Inhabited, Repr

/-- What is logged when the command line asks for quiet, or for at least debug messages, or for a
    format. -/
def LogConfig.override (c : LogConfig) (quiet verbose : Bool) (format : Option LogFormat) :
    LogConfig where
  level := if quiet then .error else if verbose then c.level.atLeast .debug else c.level
  format := format.getD c.format

/-- The settings of a project. -/
structure Config where
  project : ProjectConfig := {}
  classpath : ClasspathConfig := {}
  model : ModelConfig := {}
  output : OutputConfig := {}
  log : LogConfig := {}
  deriving DecidableEq, Inhabited, Repr

/-! ### Checking -/

/-- Why a project file has no settings. -/
inductive ConfigError where
  | unreadable
  | malformed
  | missingName
  | badRootObject (name : String)
  | badImplicitImport (name : String)
  deriving DecidableEq, Inhabited, Repr

/-- The message of an error. -/
def ConfigError.message : ConfigError → String
  | .unreadable => "failed to read configuration"
  | .malformed => "failed to parse configuration"
  | .missingName => "missing required field: project.name"
  | .badRootObject name =>
    "validation error: model.root_object `" ++ name ++ "` is not a qualified class name"
  | .badImplicitImport name =>
    "validation error: model.implicit_imports entry `" ++ name ++ "` is not a package name"

/-- Whether a text is an identifier: a letter of any script, `_` or `$`, and after it also
    numerals. -/
def isIdentifier : List Char → Bool
  | [] => false
  | c :: rest =>
    (isLetter c || c = '_' || c = '$')
      && rest.all fun c => isLetter c || isNumeral c || c = '_' || c = '$'

/-- Whether a text is made of identifiers with dots between them. -/
def isQualifiedName (text : String) : Bool := (pieces '.' text.toList).all isIdentifier

/-- Settings that keep the rules: the project has a name, and the special names of the model are
    qualified names. -/
def Config.check (c : Config) : Except ConfigError Config :=
  if c.project.name = "" then .error .missingName
  else if !isQualifiedName c.model.rootObject then .error (.badRootObject c.model.rootObject)
  else
    match c.model.implicitImports.find? (!isQualifiedName ·) with
    | some name => .error (.badImplicitImport name)
    | none => .ok c

/-! ### Laws -/

theorem StubFormat.ofWord?_word (f : StubFormat) : ofWord? f.word = some f := by
  cases f <;> decide

theorem LogFormat.ofWord?_word (f : LogFormat) : ofWord? f.word = some f := by
  cases f <;> decide

theorem LogLevel.ofWord?_word (l : LogLevel) : ofWord? l.word = some l := by
  cases l <;> decide

theorem LogLevel.rank_atLeast (l other : LogLevel) :
    (l.atLeast other).rank = max l.rank other.rank := by
  cases l <;> cases other <;> decide

end JavaAbi
