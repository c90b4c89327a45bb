import JavaAbi.Diagnostics.Basic

namespace JavaAbi

/-!
# Query errors

Why a query has no answer, and the diagnostics of symbol resolution. Absence is no error: an
interface has no superclass, and a nameless type no qualified name.

* `ModelError.located` — gives an unknown symbol its place, once;
* `ModelError.diagnostic` — the diagnostic of an error.
-/

namespace Code

/-- A construction that depends on itself. -/
def cyclicConstruction : Code := ⟨.error, 301⟩

/-- Model input of inconsistent shape. -/
def malformedModel : Code := ⟨.error, 302⟩

/-- A reference that nothing resolves. -/
def unknownSymbol : Code := ⟨.warning, 301⟩

/-- A type declared twice. -/
def duplicateType : Code := ⟨.warning, 302⟩

end Code

/-- Why a query has no answer. -/
inductive ModelError where
  | unknownSymbol (name : String) (span : Option Span)
  | cyclicConstruction (key : String)
  | malformed (detail : String)
  deriving DecidableEq, Inhabited, Repr

namespace ModelError

/-- A name that nothing knows, its place not yet known. -/
def unknown (name : String) : ModelError := .unknownSymbol name none

/-- A provider answered for one name with the descriptor of another. -/
def misnamed (asked answered : String) : ModelError :=
  .malformed ("delegate answered `" ++ asked ++ "` with `" ++ answered ++ "`")

/-- A type met a session that did not make it. -/
def foreignType : ModelError := .malformed "type used with a session that did not make it"

/-- A supertype could not be parsed. -/
def unparsableSupertype : ModelError := .malformed "unparsable supertype"

/-- An element that no declaration encloses has no scope. -/
def noScope : ModelError := .malformed "element has no source scope"

/-- The body of a constant stands outside an enum. -/
def bodyOutsideEnum : ModelError := .malformed "enum constant body outside an enum"

/-- A key names no declaration or member of the batch. -/
def missingTree (what : String) : ModelError := .malformed (what ++ " is missing")

/-- Whether the error is an unknown symbol. -/
def isUnknownSymbol : ModelError → Bool
  | unknownSymbol .. => true
  | _ => false

/-- The place of an unknown symbol, if it has one. -/
def span? : ModelError → Option Span
  | unknownSymbol _ s => s
  | _ => none

/-- Gives an unknown symbol a place, unless it has one. -/
def located (place : Span) : ModelError → ModelError
  | unknownSymbol n none => unknownSymbol n (some place)
  | e => e

/-- The message of an error. -/
def message : ModelError → String
  | unknownSymbol n _ => "cannot find symbol `" ++ n ++ "`"
  | cyclicConstruction k => "cyclic construction of " ++ k
  | malformed m => "malformed model input: " ++ m

/-- The diagnostic of an error, at `fallback` unless the error has a place of its own. -/
def diagnostic (e : ModelError) (fallback : Span) : Diagnostic :=
  let span := e.span?.getD fallback
  match e with
  | unknownSymbol .. =>
    { severity := .warning, code := .unknownSymbol, message := e.message, span
      notes := ["the stub records the reference unresolved"]
      help := ["pass the dependency's symbol table with `--symbols`"] }
  | cyclicConstruction _ =>
    { severity := .error, code := .cyclicConstruction, message := e.message, span
      notes := ["an element's construction depends on itself"] }
  | malformed _ => { severity := .error, code := .malformedModel, message := e.message, span }

@[simp] theorem located_located (e : ModelError) (s t : Span) :
    (e.located s).located t = e.located s := by
  cases e with
  | unknownSymbol n sp => cases sp <;> rfl
  | _ => rfl

end ModelError

/-- The diagnostic of a type declared at `span` and, before that, at `first`. -/
def duplicateTypeDiagnostic (name : String) (span first : Span) : Diagnostic where
  severity := .warning
  code := .duplicateType
  message := "duplicate type `" ++ name ++ "`"
  span := span
  labels := [⟨.secondary, first, "first declared here"⟩]
  notes := ["lookups by name resolve to the first declaration"]

end JavaAbi
