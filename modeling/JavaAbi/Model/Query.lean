import JavaAbi.Model.Resolve

namespace JavaAbi

/-!
# Queries

What a session answers about its batch. Each answer about an element is kept with the element, so it
does not change.

* `lookupType`, `lookupPackage`, `topLevelTypes` — elements by name, and those of the batch;
* `reportDuplicates` — the diagnostics of types declared twice;
* `ownType`, `superclassOf`, `interfacesOf`, `enclosedOf`, `bodyOf`, `packageOf` — about an element;
* `elementOfType`, `displayType` — about a type.
-/

/-! ### Elements by name -/

/-- The type of a canonical name. -/
def lookupType (name : String) : Query ElementId := do
  if name.isEmpty then
    throw (.unknown name)
  findType (← internName name)

/-- The package of a name; every package exists. -/
def lookupPackage (name : String) : Query ElementId := do
  if name.isEmpty then
    throw (.unknown name)
  canonical (.package (← internName name))

/-- The elements of declarations in order, each once. -/
def distinctElements (seen : List ElementId) : List DeclId → Query (List ElementId)
  | [] => return seen
  | d :: rest => do
    let id ← elementOfDecl d
    distinctElements (if seen.contains id then seen else seen ++ [id]) rest

/-- The top-level types of the batch; one declared twice appears as its first declaration. -/
def topLevelTypes : Query (List ElementId) := do distinctElements [] (← get).index.topLevel

/-- The diagnostics of the types that are declared more than once. -/
def reportDuplicates : SessionM (List Diagnostic) := do
  let found ← (← get).index.duplicates.mapM fun (duplicate, first) => do
    let d ← declAt duplicate
    match d.qualifiedName.name? with
    | none => return none
    | some n =>
      return some (duplicateTypeDiagnostic (← nameText n) d.nameSpan (← declAt first).nameSpan)
  return found.filterMap id

/-! ### Types -/

/-- The element of a declared type; no other type has one. -/
def elementOfType (t : ModelType) : Query (Option ElementId) := resolveType directSupertypes t

/-- Whether it is known, for good or ill, which element a type target names. -/
def isResolved : TypeTarget → SessionM Bool
  | .known _ => return true
  | .written cell _ => return (((← get).cells[cell]?).bind Cell.outcome).isSome

/-- The path that a reference of this session writes. -/
def writtenName? (origin : SessionToken) (target : TypeTarget) : SessionM (Option String) := do
  match target with
  | .written _ r =>
    if origin = (← get).token then
      return some (".".intercalate (← r.path.mapM nameText))
    else
      return none
  | .known _ => return none

mutual

/-- A type as source text. Declared types are resolved for it; one that does not resolve stands as it
    is written. The name of a type variable has to be one of this session. -/
def displayType : ModelType → SessionM String
  | .primitive p => return p.keyword
  | .absent => return "none"
  | .void => return "void"
  | .package => return "package"
  | .error => return "<error>"
  | .typeVariable name _ => nameText name
  | .array component => return (← displayType component) ++ "[]"
  | .wildcard upper lower => do
    let upper ← displayBound " extends " upper
    let lower ← displayBound " super " lower
    return "?" ++ upper ++ lower
  | .declared origin target args enclosing => do
    let head ←
      match ← (elementOfType (.declared origin target args enclosing)).run with
      | .ok (some id) => displayElement id
      | _ => pure ((← writtenName? origin target).getD "<error>")
    let args ← displayTypes args
    return if args.isEmpty then head else head ++ "<" ++ ", ".intercalate args ++ ">"

/-- A bound of a wildcard after its word. -/
def displayBound (word : String) : Option ModelType → SessionM String
  | none => return ""
  | some t => return word ++ (← displayType t)

/-- Types as source text. -/
def displayTypes : List ModelType → SessionM (List String)
  | [] => return []
  | t :: rest => return (← displayType t) :: (← displayTypes rest)

end

/-! ### What an element declares -/

/-- The type that encloses the types of an inner class: the own type of the class, enum or record
    around a class that is not static, if it is parameterized. `ownType` is the own type of the
    enclosing element. -/
def enclosingInstance (e : Element) (ownType : ElementId → SessionM ModelType) :
    SessionM ModelType := do
  match e.enclosing with
  | none => return .absent
  | some outer =>
    -- Only inner classes have an instance around them.
    if e.kind ≠ .classType || e.hasModifier .static then
      return .absent
    match (← elementAt outer).kind with
    | .classType | .enumType | .recordType =>
      let t ← ownType outer
      return if t.isParameterized then t else .absent
    | _ => return .absent

/-- Makes the own type of an element. -/
def computeOwnType (ownType : ElementId → SessionM ModelType) (id : ElementId) (e : Element) :
    SessionM ModelType := do
  match e.source with
  | .package => return .package
  | .field type =>
    match ← (scopeOf id).run with
    | .ok sc => typeOf directSupertypes sc type
    | .error _ => return .error
  | .constant _ =>
    match e.enclosing with
    | some owner => ownType owner
    | none => return .error
  | _ =>
    let args := e.typeParams.map fun n => ModelType.typeVariable n id
    return .declared (← get).token (.known id) args (← enclosingInstance e ownType)

/-- The own type of an element; `fuel` bounds the elements around it. -/
def ownTypeWithin : Nat → ElementId → SessionM ModelType
  | 0, _ => return .error
  | fuel + 1, id => do
    let e ← elementAt id
    match e.ownType with
    | some t => return t
    | none =>
      let t ← computeOwnType (ownTypeWithin fuel) id e
      updateElement id fun e => { e with ownType := some t }
      return t

/-- The type that an element declares or has: for a type, itself with its parameters as arguments;
    for a field, the written type; for an enum constant, the type of its enum. -/
def ownType (id : ElementId) : SessionM ModelType := do ownTypeWithin ((← get).elements.size + 1) id

/-- The type of a canonical name; an unknown one is placed at `place`. -/
def plainTypeOf (place : Span) (n : Name) : Query ModelType := do
  let id ← tryCatch (findType n) fun e => throw (e.located place)
  return .plain (← get).token id

/-- The type that a supertype clause writes, resolved. -/
def resolveSupertype (sc : Scope) (t : TypeRef) : Query ModelType := do
  let type ← typeOf directSupertypes sc t
  match type with
  | .error => throw .unparsableSupertype
  | type =>
    let _ ← elementOfType type
    return type

/-- Makes the superclass of an element. -/
def computeSuperclass (id : ElementId) (e : Element) : Query ModelType := do
  if e.kind = .interfaceType || e.kind = .annotationType || !e.kind.isType then
    return .absent
  let place := e.span.getD .nowhere
  let w := (← get).wellKnown
  match e.source with
  | .tree shape =>
    if shape.isConstantBody then
      match e.enclosing with
      | none => throw .bodyOutsideEnum
      | some constant =>
        match (← elementAt constant).enclosing with
        | none => throw .bodyOutsideEnum
        -- The body extends the enum, which is around the constant.
        | some owner => ownType owner
    else if e.kind = .enumType then
      let base ← tryCatch (findType w.enumBase) fun e => throw (e.located place)
      -- The superclass of an enum has the enum itself as argument.
      let own ← ownType id
      return .declared (← get).token (.known base) [own] .absent
    else if e.kind = .recordType then
      plainTypeOf place w.recordBase
    -- A batch may declare the root type itself.
    else if e.qualifiedName = .named w.rootObject then
      return .absent
    else
      match shape.extended with
      | written :: _ => do resolveSupertype (← headerScopeOf id) written
      | [] => plainTypeOf place w.rootObject
  | .described d =>
    match d.superclass with
    | some name => do plainTypeOf place (← internName name)
    | none => return .absent
  | _ => return .absent

/-- The superclass of an element; interfaces, annotation types, the root type and elements that are
    no types have none. -/
def superclassOf (id : ElementId) : Query ModelType := do
  let e ← elementAt id
  match e.superclass with
  | some r => Query.ofExcept r
  | none =>
    let r ← Query.attempt (computeSuperclass id e)
    updateElement id fun e => { e with superclass := some r }
    Query.ofExcept r

/-- Makes the interfaces of an element. -/
def computeInterfaces (id : ElementId) (e : Element) : Query (List ModelType) := do
  let place := e.span.getD .nowhere
  match e.source with
  | .tree shape =>
    if e.kind = .annotationType then
      return [← plainTypeOf place (← get).wellKnown.annotationBase]
    let written := if e.kind = .interfaceType then shape.extended else shape.implemented
    if written.isEmpty then
      return []
    let sc ← headerScopeOf id
    written.mapM (resolveSupertype sc)
  | .described d => d.interfaces.mapM fun name => do plainTypeOf place (← internName name)
  | _ => return []

/-- The interfaces that an element directly extends or implements, in order. -/
def interfacesOf (id : ElementId) : Query (List ModelType) := do
  let e ← elementAt id
  match e.interfaces with
  | some r => Query.ofExcept r
  | none =>
    let r ← Query.attempt (computeInterfaces id e)
    updateElement id fun e => { e with interfaces := some r }
    Query.ofExcept r

/-! ### What an element encloses -/

/-- Finds what an element encloses. -/
def computeEnclosed (e : Element) : Query (List ElementId) := do
  match e.source with
  | .tree shape => shape.members.mapM canonical
  | .package => do
    let x := (← get).index
    -- Only what the batch declares; the provider is not asked for what else is in the package.
    let inside ← x.topLevel.filterM fun d =>
      return x.package? (← declAt d).unit = e.qualifiedName.name?
    distinctElements [] inside
  | _ => return []

/-- The member types, variables and constants of a type in order; for a package, the top-level types
    of the batch in it. -/
def enclosedOf (id : ElementId) : Query (List ElementId) := do
  let e ← elementAt id
  match e.enclosed with
  | some r => Query.ofExcept r
  | none =>
    let r ← Query.attempt (computeEnclosed e)
    updateElement id fun e => { e with enclosed := some r }
    Query.ofExcept r

/-- The class that the body of an enum constant declares. -/
def bodyOf (id : ElementId) : Query (Option ElementId) := do
  match (← elementAt id).source with
  | .constant (some decl) => some <$> elementOfDecl decl
  | _ => return none

/-- The package around an element; `fuel` bounds the elements around it. -/
def packageWithin : Nat → ElementId → SessionM (Option ElementId)
  | 0, _ => return none
  | fuel + 1, id => do
    let e ← elementAt id
    if e.kind = .package then
      return some id
    match e.enclosing with
    | some outer => packageWithin fuel outer
    | none => return none

/-- The package that an element belongs to, if it is a named one. -/
def packageOf (id : ElementId) : SessionM (Option ElementId) := do
  packageWithin (← get).elements.size id

end JavaAbi
