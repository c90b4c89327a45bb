import JavaAbi.Model.Query
import JavaAbi.Stub.Basic
import JavaAbi.Text.Fingerprint
import JavaAbi.Text.Source

namespace JavaAbi

/-!
# Extracting stubs

`extract` reads the stub of an element off its session. A reference that does not resolve is
reported, and stands in the stub as it is written.
-/

/-- Work in a session that reports diagnostics. -/
abbrev Extraction := StateT (Array Diagnostic) SessionM

/-- Reports a diagnostic. -/
def report (d : Diagnostic) : Extraction Unit := modify (·.push d)

/-- Reports an error at `place`, and gives the text that stands for what has it. -/
def reportError (place : Span) (e : ModelError) : Extraction String := do
  report (e.diagnostic place)
  return match e with
    | .unknownSymbol name _ => name
    | _ => "<error>"

mutual

/-- Reports every declared type in a type, arguments and bounds included, that does not resolve. -/
def reportUnresolved (place : Span) : ModelType → Extraction Unit
  | .declared origin target args enclosing => do
    match ← (elementOfType (.declared origin target args enclosing)).run with
    | .ok _ => pure ()
    | .error e => report (e.diagnostic place)
    reportUnresolvedIn place args
  | .array component => reportUnresolved place component
  | .wildcard upper lower => do
    reportUnresolvedBound place upper
    reportUnresolvedBound place lower
  | _ => return

/-- Reports what does not resolve in a bound. -/
def reportUnresolvedBound (place : Span) : Option ModelType → Extraction Unit
  | none => return
  | some t => reportUnresolved place t

/-- Reports what does not resolve in a list of types. -/
def reportUnresolvedIn (place : Span) : List ModelType → Extraction Unit
  | [] => return
  | t :: rest => do
    reportUnresolved place t
    reportUnresolvedIn place rest

end

/-- Reports what does not resolve in a type, and gives the text of the type. -/
def reportedText (place : Span) (t : ModelType) : Extraction String := do
  reportUnresolved place t
  displayType t

/-- The superclass of an element as text. -/
def extractSuperclass (place : Span) (id : ElementId) : Extraction (Option String) := do
  match ← (superclassOf id).run with
  | .error e => some <$> reportError place e
  | .ok t =>
    match t with
    | .absent | .void | .package => return none
    | t => some <$> reportedText place t

/-- The interfaces of an element as texts. -/
def extractInterfaces (place : Span) (id : ElementId) : Extraction (List String) := do
  match ← (interfacesOf id).run with
  | .error e => return [← reportError place e]
  | .ok ts => ts.mapM (reportedText place)

/-- Adds a member to a stub: a constant by its name, a variable with its type, a member type by its
    own stub, which `extractType` gives. Private members are left out. -/
def addMember (extractType : ElementId → Extraction TypeStub) (place : Span) :
    TypeStub → ElementId → Extraction TypeStub
  | .mk s nested, member => do
    let m ← elementAt member
    if m.hasModifier .privateAccess then
      return .mk s nested
    match m.kind with
    | .enumConstant =>
      return .mk { s with constants := s.constants ++ [← nameText m.simpleName] } nested
    | .field =>
      let type ← reportedText (m.span.getD place) (← ownType member)
      let field : FieldStub := ⟨← nameText m.simpleName, type, m.modifiers⟩
      return .mk { s with fields := s.fields ++ [field] } nested
    | .package => return .mk s nested
    | _ => return .mk s (nested ++ [← extractType member])

/-- The stub of an element; `fuel` bounds the depth of member types. -/
def extractWithin : Nat → ElementId → Extraction TypeStub
  | 0, _ => return default
  | fuel + 1, id => do
    let e ← elementAt id
    let place := e.span.getD .nowhere
    let superclass ← extractSuperclass place id
    let interfaces ← extractInterfaces place id
    let surface : Surface :=
      { name := ← displayElement id
        kind := e.kind
        modifiers := e.modifiers
        typeParameters := ← e.typeParams.mapM fun n => (nameText n : Extraction String)
        superclass := superclass
        interfaces := interfaces }
    match ← (enclosedOf id).run with
    | .ok members => members.foldlM (addMember (extractWithin fuel) place) (.mk surface [])
    | .error err =>
      report (err.diagnostic place)
      return .mk surface []

/-- The stub of an element, with the file of its declaration. -/
def extract (b : Batch) (id : ElementId) : Extraction TypeStub := do
  let stub ← extractWithin ((← getThe Session).index.size + 2) id
  let file := (← elementAt id).span.bind b.file?
  let source := file.map fun f => (⟨f.path, Fingerprint.ofText f.content⟩ : SourceRef)
  return .mk { stub.surface with source } stub.nested

end JavaAbi
