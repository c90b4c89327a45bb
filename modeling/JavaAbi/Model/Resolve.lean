import JavaAbi.Model.Session

namespace JavaAbi

/-!
# Name resolution

A simple name is looked up in the enclosing declarations first, from the innermost outwards: at each
level among the member types that the declaration declares, then among the ones it inherits. The
header of a declaration does not see its members. After that come

1. single-type imports,
2. the package of the file,
3. imports on demand,
4. the implicit imports.

A qualified name resolves its first segment so and then goes down member by member; when the first
segment is no type, the whole name is canonical. A type parameter is found like a member type, after
those of its level.

Inherited member types are searched breadth first over direct supertypes. The list of a type's
direct supertypes is made once, by resolving what its header names, and is empty while it is being
made; so the definitions up to `typeOf` are given the lists as `supertypesOf`.
-/

/-! ### Scopes -/

/-- The declarations that enclose an element, from the element itself outwards, and the file of the
    innermost one. The walk ends at a package. -/
def scopeChain : Nat → Option ElementId → SessionM (List (DeclId × ElementId) × Option Nat)
  | 0, _ | _, none => return ([], none)
  | fuel + 1, some id => do
    let e ← elementAt id
    match e.source with
    | .package => return ([], none)
    | .tree shape =>
      let (chain, _) ← scopeChain fuel e.enclosing
      return ((shape.decl, id) :: chain, some shape.unit)
    -- Fields, constants and precompiled types are no levels.
    | _ => scopeChain fuel e.enclosing

/-- The scope inside an element. -/
def scopeOf (id : ElementId) : Query Scope := do
  let (chain, unit) ← scopeChain (← get).elements.size (some id)
  match unit with
  | some unit => return { unit, chain }
  | none => throw .noScope

/-- The scope of the supertypes that the header of a type names. -/
def headerScopeOf (id : ElementId) : Query Scope := do
  return { ← scopeOf id with header := true }

/-! ### Member types -/

/-- The member type that a type itself declares under a simple name. -/
def declaredMemberType (owner : ElementId) (simple : Name) : Query (Option ElementId) := do
  let e ← elementAt owner
  match e.source, e.qualifiedName with
  | .tree shape, _ =>
    match ← memberTypeNamed shape.decl simple with
    | some child => some <$> elementOfDecl child
    | none => return none
  | .described _, .named outer => do tryType (← qualifyName (some outer) simple)
  | _, _ => return none

section Members

variable (supertypesOf : ElementId → SessionM (List ElementId))

/-- Searches the types of a queue, and their supertypes after them, for a member type that is not
    private. No type is searched twice; `fuel` bounds the types searched, and the session notes if
    that cuts a search off. -/
def searchMember (simple : Name) :
    Nat → List ElementId → List ElementId → Query (Option ElementId)
  | 0, _, _ => do
    modify fun s => { s with cutOff := true }
    return none
  | fuel + 1, visited, queue =>
    match queue.dropWhile visited.contains with
    | [] => return none
    | current :: rest => do
      let found ← declaredMemberType current simple
      match found with
      | some id =>
        -- A private member type is not inherited; the search goes on behind it.
        if (← elementAt id).hasModifier .privateAccess then
          searchMember simple fuel (current :: visited) (rest ++ (← supertypesOf current))
        else
          return some id
      | none => searchMember simple fuel (current :: visited) (rest ++ (← supertypesOf current))

/-- The number of types that there can be: declarations of the batch and names that the provider
    knows. -/
def Session.typeBound (s : Session) : Nat := s.index.size + s.provider.extent + 1

/-- The member type of a simple name that a type inherits, from the nearest supertype that declares
    one that is not private. -/
def inheritedMemberType (owner : ElementId) (simple : Name) : Query (Option ElementId) := do
  let queue ← supertypesOf owner
  searchMember supertypesOf simple (← get).typeBound [owner] queue

/-- The member type of a type, declared or inherited. -/
def memberOf (owner : ElementId) (simple : Name) : Query ElementId := do
  if let some id ← declaredMemberType owner simple then
    return id
  if let some id ← inheritedMemberType supertypesOf owner simple then
    return id
  -- The error has the name that the member type would have.
  let name ←
    match (← elementAt owner).qualifiedName with
    | .named outer => qualifyName (some outer) simple
    | _ => pure simple
  throw (.unknown (← nameText name))

/-- The member type that a level of a scope shows under a simple name. -/
def memberTypeAt (level : DeclId × ElementId) (simple : Name) : Query (Option ElementId) := do
  match ← memberTypeNamed level.1 simple with
  | some member => some <$> elementOfDecl member
  | none => inheritedMemberType supertypesOf level.2 simple

/-! ### Names -/

/-- The first type that one of the given actions finds. -/
def firstFound : List (Query (Option ElementId)) → Query (Option ElementId)
  | [] => return none
  | q :: rest => do
    match ← q with
    | some id => return some id
    | none => firstFound rest

/-- The levels of a scope whose members it shows. -/
def Scope.levels (sc : Scope) : List (DeclId × ElementId) :=
  if sc.header then sc.chain.drop 1 else sc.chain

/-- The type of a simple name, if anything declares it. -/
def resolveSimple (sc : Scope) (simple : Name) : Query (Option ElementId) := do
  let s ← get
  let imports := s.index.importsOf sc.unit
  let within (outer : Option Name) : Query (Option ElementId) := do
    tryType (← qualifyName outer simple)
  firstFound <|
    sc.levels.map (memberTypeAt supertypesOf · simple)
      ++ (imports.single.filter (·.1 = simple)).map (fun i => tryType i.2)
      ++ [within (s.index.package? sc.unit)]
      ++ imports.onDemand.map (fun o => within (some o))
      ++ s.wellKnown.implicitImports.map fun o => within (some o)

/-- The name of a whole path. -/
def canonicalPath (outer : Option Name) : List Name → SessionM (Option Name)
  | [] => return outer
  | s :: rest => do canonicalPath (some (← qualifyName outer s)) rest

/-- The type of a path. -/
def resolvePath (sc : Scope) (path : List Name) : Query ElementId := do
  match path with
  | [] => throw (.malformed "empty type name")
  | first :: rest =>
    match ← resolveSimple supertypesOf sc first with
    | some id => rest.foldlM (memberOf supertypesOf) id
    | none =>
      -- A name without a dot has been looked up in every way there is.
      if rest.isEmpty then
        throw (.unknown (← nameText first))
      match ← canonicalPath none path with
      | some name => findType name
      | none => throw (.malformed "empty type name")

/-- The type that a reference names; an error of an unknown name is placed at the reference. -/
def resolveReference (r : TypeReference) : Query ElementId :=
  tryCatch (resolvePath supertypesOf r.scope r.path) fun e => throw (e.located r.span)

/-! ### Types -/

/-- A new cell for the outcome of a reference. -/
def newCell (r : TypeReference) : SessionM Nat :=
  modifyGet fun s => (s.cells.size, { s with cells := s.cells.push { reference := r } })

/-- Keeps the outcome of the reference of a cell. -/
def keepOutcome (cell : Nat) (r : Except ModelError ElementId) : SessionM Unit :=
  modify fun s => { s with cells := s.cells.modify cell fun c => { c with outcome := some r } }

/-- The element that a type target names, resolved on first request. -/
def resolveTarget : TypeTarget → Query ElementId
  | .known id => return id
  | .written cell reference => do
    match ((← get).cells[cell]?).bind Cell.outcome with
    | some r => Query.ofExcept r
    | none =>
      let r ← Query.attempt (resolveReference supertypesOf reference)
      keepOutcome cell r
      Query.ofExcept r

/-- The element of a declared type; no other type has one. Only the session that made the type can
    resolve it. -/
def resolveType : ModelType → Query (Option ElementId)
  | .declared origin target _ _ => do
    if origin = (← get).token then
      some <$> resolveTarget supertypesOf target
    else
      throw .foreignType
  | _ => return none

/-- The number of the innermost level whose declaration has a type parameter of a name. -/
def parameterLevel (name : Name) : List (DeclId × ElementId) → SessionM (Option Nat)
  | [] => return none
  | (decl, _) :: rest => do
    if (← declAt decl).typeParams.contains name then
      return some 0
    return (← parameterLevel name rest).map (· + 1)

/-- Whether one of some levels shows a member type under a name. -/
def hidden (name : Name) : List (DeclId × ElementId) → SessionM Bool
  | [] => return false
  | l :: rest => do
    match ← (memberTypeAt supertypesOf l name).run with
    | .ok (some _) => return true
    -- A search that ends with an error hides nothing.
    | _ => hidden name rest

/-- The levels from the innermost one to number `level` whose members the scope shows. -/
def Scope.levelsUpTo (sc : Scope) (level : Nat) : List (DeclId × ElementId) :=
  if sc.header then (sc.chain.take (level + 1)).drop 1 else sc.chain.take (level + 1)

/-- The type parameter that a simple name denotes, unless a member type of its level or of one
    inside it hides it. -/
def typeVariable? (name : Name) (sc : Scope) : SessionM (Option (Name × ElementId)) := do
  match ← parameterLevel name sc.chain with
  | none => return none
  | some level =>
    if ← hidden supertypesOf name (sc.levelsUpTo level) then
      return none
    return sc.chain[level]?.map fun (_, owner) => (name, owner)

/-- A declared type for each segment of a path that has arguments, and for the last one, each
    enclosed by the one before it. -/
def enclosedTypes (sc : Scope) (span : Span) (path : List Name) (enclosing : ModelType) :
    List (Name × List ModelType) → SessionM ModelType
  | [] => return enclosing
  | (name, args) :: rest => do
    let path := path ++ [name]
    -- Segments without arguments are packages or types that need not be told apart yet.
    if rest.isEmpty || !args.isEmpty then
      let reference : TypeReference := ⟨sc, path, span⟩
      let target := TypeTarget.written (← newCell reference) reference
      enclosedTypes sc span path (.declared (← get).token target args enclosing) rest
    else
      enclosedTypes sc span path enclosing rest

mutual

/-- The type that is written in a scope. Class types are not resolved yet. -/
def typeOf (sc : Scope) : TypeRef → SessionM ModelType
  | .primitive p _ => return .primitive p
  | .void _ => return .void
  | .error _ => return .error
  | .array component _ => return .array (← typeOf sc component)
  | .wildcard _ => return .wildcard none none
  | .wildcardExtends bound _ => return .wildcard (some (← typeOf sc bound)) none
  | .wildcardSuper bound _ => return .wildcard none (some (← typeOf sc bound))
  | .classType segments span => do
    -- Only a simple name can be that of a type parameter.
    let parameter ←
      match segments with
      | [only] => typeVariable? supertypesOf only.name sc
      | _ => pure none
    match parameter with
    | some (name, owner) => return .typeVariable name owner
    | none => enclosedTypes sc span [] .absent (← segmentsOf sc segments)

/-- The segments of a class type with their arguments; later segments are read first. -/
def segmentsOf (sc : Scope) : List ClassSegment → SessionM (List (Name × List ModelType))
  | [] => return []
  | .mk name args :: rest => do
    let later ← segmentsOf sc rest
    let args ← typesOf sc args
    return (name, args) :: later

/-- The types of a list. -/
def typesOf (sc : Scope) : List TypeRef → SessionM (List ModelType)
  | [] => return []
  | t :: rest => do
    let first ← typeOf sc t
    return first :: (← typesOf sc rest)

end

/-! ### Direct supertypes -/

/-- The canonical name that a declared type of a kind extends without writing it. -/
def implicitSupertype? (w : WellKnown) (e : Element) (shape : TreeShape) : Option Name :=
  match e.kind with
  | .enumType => some w.enumBase
  | .recordType => some w.recordBase
  | .annotationType => some w.annotationBase
  | .classType =>
    if shape.extended.isEmpty && e.qualifiedName ≠ .named w.rootObject then some w.rootObject
    else none
  | _ => none

/-- The elements that queries find, in order; the others are left out. -/
def collectFound {α : Type} (query : α → Query (Option ElementId)) :
    List α → SessionM (List ElementId)
  | [] => return []
  | a :: rest => do
    let found :=
      match ← (query a).run with
      | .ok (some id) => [id]
      | _ => []
    return found ++ (← collectFound query rest)

/-- The types that a type directly extends or implements, as far as they resolve. -/
def computeSupertypes (id : ElementId) : SessionM (List ElementId) := do
  let e ← elementAt id
  match e.source with
  | .tree shape =>
    if shape.isConstantBody then
      match e.enclosing with
      -- The body of a constant extends the enum around the constant.
      | some constant => return (← elementAt constant).enclosing.toList
      | none => return []
    else
      -- What no clause writes comes first.
      let implicit ← collectFound (fun n => some <$> findType n)
        (implicitSupertype? (← get).wellKnown e shape).toList
      match ← (headerScopeOf id).run with
      | .ok sc =>
        let written ← collectFound
          (fun t => do resolveType supertypesOf (← typeOf supertypesOf sc t))
          (shape.extended ++ shape.implemented)
        return implicit ++ written
      | .error _ => return implicit
  | .described d =>
    collectFound (fun n => do some <$> findType (← internName n))
      (d.superclass.toList ++ d.interfaces)
  | _ => return []

end Members

/-- A request to the cache of supertypes. -/
def requestSupertypes (id : ElementId) : SessionM (Request (List ElementId)) :=
  modifyGet fun s =>
    let (r, supertypes) := s.supertypes.request id
    (r, { s with supertypes })

/-- Ends the making of a list of supertypes. -/
def finishSupertypes (id : ElementId) (ids : List ElementId) : SessionM Unit :=
  modify fun s => { s with supertypes := s.supertypes.finish id ids }

/-- Gives the making of a list of supertypes up. -/
def abandonSupertypes (id : ElementId) : SessionM Unit :=
  modify fun s => { s with supertypes := s.supertypes.abandon id }

/-- The direct supertypes of a type, made on first request and empty while they are being made.
    `making` are the types whose lists are under construction, the innermost one first, and `fuel`
    bounds how many more may come. -/
def supertypesWithin : Nat → List ElementId → ElementId → SessionM (List ElementId)
  | 0, _, _ => throw .endlessSupertypes
  | fuel + 1, making, id => do
    match ← requestSupertypes id with
    | .found ids => return ids
    -- Types that extend each other, or whose headers need their own supertypes.
    | .reentrant => return []
    | .construct =>
      if making.contains id then
        throw (.nestedSupertypes id)
      let ids ← guarded (abandonSupertypes id)
        (computeSupertypes (supertypesWithin fuel (id :: making)) id)
      finishSupertypes id ids
      return ids

/-- The direct supertypes of a type. -/
def directSupertypes (id : ElementId) : SessionM (List ElementId) := do
  supertypesWithin (← get).typeBound [] id

end JavaAbi
