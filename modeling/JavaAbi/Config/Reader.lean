import JavaAbi.Config.Basic
import JavaAbi.Toml.Reader

namespace JavaAbi

/-!
# Reading project files

`Config.ofText` reads the settings that a project file sets. Sections and fields of other names are
skipped; a section may also be an array of its fields in order, of which further items are skipped.
-/

namespace Toml

/-- The fields of a record by name, each present or not. A date has none of them. -/
def fields? (names : List String) : Toml → Option (List (Option Toml))
  | .table entries => some (names.map fun name => entries.lookup name)
  | .array items =>
    some ((items.take names.length).map some ++ List.replicate (names.length - items.length) none)
  | .date _ => some (names.map fun _ => none)
  | _ => none

/-- A field with a default for its absence. -/
def optional? {α : Type} (default : α) (read : Toml → Option α) : Option Toml → Option α
  | none => some default
  | some v => read v

/-- An array of texts. -/
def texts? (v : Toml) : Option (List String) := do (← v.items?).mapM text?

end Toml

open Toml

/-- The section `project`, whose name has to be there. -/
def ProjectConfig.ofToml? (v : Toml) : Option ProjectConfig := do
  match ← v.fields? ["name", "sources"] with
  | [some name, sources] =>
    return { name := ← name.text?, sources := ← optional? ({} : ProjectConfig).sources texts? sources }
  | _ => none

/-- The section `classpath`. -/
def ClasspathConfig.ofToml? (v : Toml) : Option ClasspathConfig := do
  let missing : ClasspathConfig := {}
  match ← v.fields? ["symbols", "platform"] with
  | [symbols, platform] =>
    return { symbols := ← optional? missing.symbols texts? symbols
             platform := ← optional? missing.platform boolean? platform }
  | _ => none

/-- The section `model`. -/
def ModelConfig.ofToml? (v : Toml) : Option ModelConfig := do
  let missing : ModelConfig := {}
  match ← v.fields? ["root_object", "implicit_imports"] with
  | [rootObject, implicitImports] =>
    return { rootObject := ← optional? missing.rootObject text? rootObject
             implicitImports := ← optional? missing.implicitImports texts? implicitImports }
  | _ => none

/-- The section `output`. -/
def OutputConfig.ofToml? (v : Toml) : Option OutputConfig := do
  let missing : OutputConfig := {}
  match ← v.fields? ["dir", "format"] with
  | [dir, format] =>
    return { dir := ← optional? missing.dir (fun v => v.text?.map some) dir
             format := ← optional? missing.format (fun v => v.word?.bind StubFormat.ofWord?) format }
  | _ => none

/-- The section `log`. -/
def LogConfig.ofToml? (v : Toml) : Option LogConfig := do
  let missing : LogConfig := {}
  match ← v.fields? ["level", "format"] with
  | [level, format] =>
    return { level := ← optional? missing.level (fun v => v.word?.bind LogLevel.ofWord?) level
             format := ← optional? missing.format (fun v => v.word?.bind LogFormat.ofWord?) format }
  | _ => none

namespace Config

/-- The settings of a document. -/
def ofToml? (v : Toml) : Option Config := do
  match ← v.fields? ["project", "classpath", "model", "output", "log"] with
  | [project, classpath, model, output, log] =>
    return { project := ← optional? {} ProjectConfig.ofToml? project
             classpath := ← optional? {} ClasspathConfig.ofToml? classpath
             model := ← optional? {} ModelConfig.ofToml? model
             output := ← optional? {} OutputConfig.ofToml? output
             log := ← optional? {} LogConfig.ofToml? log }
  | _ => none

/-- The settings of a project file, which keep the rules. -/
def ofText (text : String) : Except ConfigError Config :=
  match Toml.parse? text >>= ofToml? with
  | some c => c.check
  | none => .error .malformed

end Config

end JavaAbi
