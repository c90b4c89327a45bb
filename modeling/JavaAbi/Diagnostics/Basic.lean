import JavaAbi.Text.Span

namespace JavaAbi

/-!
# Diagnostics

What the lexer, the parser and the resolver report: a severity, a code, a message, the place, and
further labels and lines. `Sink` collects them and counts the errors.
-/

/-- How grave a diagnostic is. -/
inductive Severity where
  | note
  | warning
  | error
  deriving DecidableEq, Inhabited, Repr

/-- The word that starts a rendered diagnostic. -/
def Severity.word : Severity → String
  | .note => "note"
  | .warning => "warning"
  | .error => "error"

/-- The class of a code, which selects its letter. -/
inductive CodeCategory where
  | error
  | warning
  deriving DecidableEq, Inhabited, Repr

/-- The letter of a code class. -/
def CodeCategory.letter : CodeCategory → Char
  | .error => 'E'
  | .warning => 'W'

/-- A code such as `E101`. -/
structure Code where
  category : CodeCategory
  number : Nat
  deriving DecidableEq, Inhabited, Repr

namespace Code

/-- The letter, then the number with at least three digits. -/
def text (c : Code) : String :=
  let digits := toString c.number
  String.ofList (c.category.letter :: List.replicate (3 - digits.length) '0') ++ digits

/-- Lexical errors. -/
def lexical : Code := ⟨.error, 100⟩

/-- Syntax errors. -/
def syntactic : Code := ⟨.error, 101⟩

end Code

/-- Whether a label marks the place itself or supporting context. -/
inductive LabelStyle where
  | primary
  | secondary
  deriving DecidableEq, Inhabited, Repr

/-- A message attached to a span. -/
structure Label where
  style : LabelStyle
  span : Span
  message : String
  deriving DecidableEq, Inhabited, Repr

/-- One report. -/
structure Diagnostic where
  severity : Severity
  code : Code
  message : String
  span : Span
  labels : List Label := []
  notes : List String := []
  help : List String := []
  deriving DecidableEq, Inhabited, Repr

/-- Whether a diagnostic is an error. -/
def Diagnostic.isError (d : Diagnostic) : Bool := d.severity = .error

/-! ### Collecting -/

/-- Diagnostics not yet taken, and the number of errors ever emitted. -/
structure Sink where
  pending : Array Diagnostic := #[]
  errors : Nat := 0
  deriving Inhabited

namespace Sink

/-- Adds a diagnostic at the end. -/
def emit (s : Sink) (d : Diagnostic) : Sink :=
  { pending := s.pending.push d, errors := s.errors + if d.isError then 1 else 0 }

/-- Adds diagnostics in order. -/
def emitAll (s : Sink) (ds : List Diagnostic) : Sink := ds.foldl emit s

/-- Whether an error was ever emitted. -/
def hasErrors (s : Sink) : Bool := 0 < s.errors

/-- Takes the diagnostics out; the error count stays. -/
def take (s : Sink) : Array Diagnostic × Sink := (s.pending, { s with pending := #[] })

@[simp] theorem pending_emit (s : Sink) (d : Diagnostic) :
    (s.emit d).pending.toList = s.pending.toList ++ [d] := by simp [emit]

@[simp] theorem pending_emitAll (s : Sink) (ds : List Diagnostic) :
    (s.emitAll ds).pending.toList = s.pending.toList ++ ds := by
  induction ds generalizing s with
  | nil => simp [emitAll]
  | cons d ds ih =>
    have := ih (s.emit d)
    simp only [emitAll, List.foldl_cons] at this ⊢
    simp [this]

@[simp] theorem errors_take (s : Sink) : s.take.2.errors = s.errors := rfl

end Sink

end JavaAbi
