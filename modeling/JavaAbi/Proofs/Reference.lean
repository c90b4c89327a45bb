import JavaAbi.Model.Resolve
import JavaAbi.Proofs.Elements
import JavaAbi.Proofs.Inquiries

namespace JavaAbi

/-!
# What names and types refer to

The rules of name resolution, stated without a session: symbols stand for elements, and where a rule
needs the direct supertypes of a type, it asks for them. The rules read what a session is opened with,
its world, and nothing else.

* `World` — the batch with its index and names, the provider and the settings;
* `World.resolveReference` — the symbol of a type name;
* `World.typeOf` — the type that is written in a scope;
* `World.listing` — the direct supertypes of a symbol, by way of the lists of others;
* `World.supertypesAt` — these lists, as far as they can be made one after the other;
* `World.Settles` — the answer of an inquiry that needs only such lists.

A list that is asked for while it is being made is told to be empty. It is so for its own header, and
the rules say so. It is so in a session also for the headers of other types whose lists it needs, and
then it depends on which list was asked for first: for such lists there is no rule.
-/

/-- What a session is opened with and never changes, with the names of the batch. -/
structure World extends SessionBase where
  names : NameTable

/-- The world of a session. -/
def Session.world (s : Session) : World := { toSessionBase := s.toSessionBase, names := s.names }

/-- A rule for what may have no answer. -/
abbrev Rule := ExceptT ModelError Inquiry

/-- The rule of which the outcome is known. -/
def Rule.ofExcept {α : Type} (r : Except ModelError α) : Rule α := ExceptT.mk (pure r)

/-- The first symbol that one of the given rules finds. -/
def Rule.firstFound : List (Rule (Option Symbol)) → Rule (Option Symbol)
  | [] => return none
  | q :: rest => do
    match ← q with
    | some found => return some found
    | none => firstFound rest

/-- The symbols that rules find, in order; the others are left out. -/
def Rule.collectFound {α : Type} (rule : α → Rule (Option Symbol)) :
    List α → Inquiry (List Symbol)
  | [] => return []
  | a :: rest => do
    let found :=
      match ← (rule a).run with
      | .ok (some symbol) => [symbol]
      | _ => []
    return found ++ (← collectFound rule rest)

/-! ### Types without numbers -/

/-- A scope without the numbers of elements. -/
structure ScopeView where
  unit : Nat
  chain : List DeclId
  header : Bool := false
  deriving DecidableEq, Inhabited, Repr

/-- The levels of a scope whose members it shows. -/
def ScopeView.levels (sc : ScopeView) : List DeclId :=
  if sc.header then sc.chain.drop 1 else sc.chain

/-- The levels from the innermost one to number `level` whose members the scope shows. -/
def ScopeView.levelsUpTo (sc : ScopeView) (level : Nat) : List DeclId :=
  if sc.header then (sc.chain.take (level + 1)).drop 1 else sc.chain.take (level + 1)

/-- A type name as written. -/
structure ReferenceView where
  scope : ScopeView
  path : List Name
  span : Span
  deriving DecidableEq, Inhabited, Repr

/-- What a declared type names. -/
inductive TargetView where
  | known (symbol : Symbol)
  | written (reference : ReferenceView)
  deriving DecidableEq, Inhabited, Repr

/-- A type without the numbers of elements and cells. -/
inductive TypeView where
  | primitive (type : PrimitiveType)
  | absent
  | void
  | package
  | declared (target : TargetView) (args : List TypeView) (enclosing : TypeView)
  | array (component : TypeView)
  | typeVariable (name : String) (owner : Symbol)
  | wildcard (extendsBound superBound : Option TypeView)
  | error
  deriving Inhabited

namespace World

variable (w : World)

/-! ### Symbols -/

/-- The text of a name of the batch. -/
def text (n : Name) : String := w.names.text n

/-- The first declaration of a canonical name. -/
def find? (name : String) : Option DeclId := (w.names.find? name).bind w.index.find?

/-- The symbol of a canonical name, if it has a type. -/
def lookup (name : String) : Except ModelError Symbol :=
  (lookupOutcome (fun n => (w.find? n).isSome) w.provider name).map fun _ => .type name

/-- Like `lookup`, but an unknown name is no error. -/
def tryLookup (name : String) : Except ModelError (Option Symbol) :=
  match w.lookup name with
  | .ok symbol => .ok (some symbol)
  | .error e => if e.isUnknownSymbol then .ok none else .error e

/-- The symbol of a declaration: that of the first one of its name. -/
def symbolOf (d : DeclId) : Symbol := (w.index.keyOf d).symbol w.names

/-- The declaration of a symbol. -/
def declOf? : Symbol → Option DeclId
  | .type name => w.find? name
  | .unnamed d => some d
  | _ => none

/-- A member of a declaration. -/
def member? (d : DeclId) (m : Nat) : Option Member :=
  (w.index.tree? w.units d).bind (·.members[m]?)

/-- What the provider tells of a symbol that the batch does not declare. -/
def descriptorOf? : Symbol → Option Descriptor
  | .type name => if (w.find? name).isSome then none else w.provider.resolve? name
  | _ => none

/-- The modifiers of a type. -/
def modifiersOf (symbol : Symbol) : List Modifier :=
  match w.declOf? symbol with
  | some d => ((w.index.tree? w.units d).map (·.head.modifiers)).getD []
  | none => ((w.descriptorOf? symbol).map Descriptor.modifiers).getD []

/-! ### Member types -/

/-- The member type that a type itself declares under a simple name. -/
def declaredMember (owner : Symbol) (simple : Name) : Except ModelError (Option Symbol) :=
  match w.declOf? owner, owner with
  | some d, _ => .ok ((w.index.memberType? d simple).map w.symbolOf)
  | none, .type name => w.tryLookup (NameTable.joined (some name) (w.text simple))
  | none, _ => .ok none

/-- Searches the types of a queue, and their supertypes after them, for a member type that is not
    private. -/
def search (simple : Name) : Nat → List Symbol → List Symbol → Rule (Option Symbol)
  | 0, _, _ => return none
  | fuel + 1, visited, queue =>
    match queue.dropWhile visited.contains with
    | [] => return none
    | current :: rest => do
      match ← Rule.ofExcept (w.declaredMember current simple) with
      | some found =>
        if (w.modifiersOf found).contains .privateAccess then
          search simple fuel (current :: visited) (rest ++ (← Inquiry.listOf current))
        else
          return some found
      | none => search simple fuel (current :: visited) (rest ++ (← Inquiry.listOf current))

/-- The member type of a simple name that a type inherits. -/
def inherited (owner : Symbol) (simple : Name) : Rule (Option Symbol) := do
  let queue ← Inquiry.listOf owner
  w.search simple (w.index.size + w.provider.extent + 1) [owner] queue

/-- The member type of a type, declared or inherited. -/
def memberOf (owner : Symbol) (simple : Name) : Rule Symbol := do
  if let some found ← Rule.ofExcept (w.declaredMember owner simple) then
    return found
  if let some found ← w.inherited owner simple then
    return found
  throw (.unknown (NameTable.joined owner.name? (w.text simple)))

/-- The member type that a level of a scope shows under a simple name. -/
def memberAt (level : DeclId) (simple : Name) : Rule (Option Symbol) :=
  match w.index.memberType? level simple with
  | some member => return some (w.symbolOf member)
  | none => w.inherited (w.symbolOf level) simple

/-! ### Names -/

/-- The type of a simple name, if anything declares it. -/
def resolveSimple (sc : ScopeView) (simple : Name) : Rule (Option Symbol) :=
  let imports := w.index.importsOf sc.unit
  let within (outer : Option String) : Rule (Option Symbol) :=
    Rule.ofExcept (w.tryLookup (NameTable.joined outer (w.text simple)))
  Rule.firstFound <|
    sc.levels.map (w.memberAt · simple)
      ++ (imports.single.filter (·.1 = simple)).map
        (fun i => Rule.ofExcept (w.tryLookup (w.text i.2)))
      ++ [within ((w.index.package? sc.unit).map w.text)]
      ++ imports.onDemand.map (fun o => within (some (w.text o)))
      ++ w.wellKnown.implicitImports.map fun o => within (some (w.text o))

/-- The canonical name that a whole path writes. -/
def canonicalPath (outer : Option String) : List Name → Option String
  | [] => outer
  | s :: rest => canonicalPath (some (NameTable.joined outer (w.text s))) rest

/-- The symbol of a path. -/
def resolvePath (sc : ScopeView) (path : List Name) : Rule Symbol := do
  match path with
  | [] => throw (.malformed "empty type name")
  | first :: rest =>
    match ← w.resolveSimple sc first with
    | some symbol => rest.foldlM w.memberOf symbol
    | none =>
      if rest.isEmpty then
        throw (.unknown (w.text first))
      match w.canonicalPath none path with
      | some name => Rule.ofExcept (w.lookup name)
      | none => throw (.malformed "empty type name")

/-- The symbol of a type name. -/
def resolveReference (r : ReferenceView) : Rule Symbol :=
  tryCatch (w.resolvePath r.scope r.path) fun e => throw (e.located r.span)

/-- The symbol that a type target names. -/
def resolveTarget : TargetView → Rule Symbol
  | .known symbol => return symbol
  | .written reference => w.resolveReference reference

/-- The symbol of a declared type; no other type has one. -/
def resolveType : TypeView → Rule (Option Symbol)
  | .declared target _ _ => some <$> w.resolveTarget target
  | _ => return none

/-! ### Types -/

/-- The number of the innermost level whose declaration has a type parameter of a name. -/
def parameterLevel (name : Name) : List DeclId → Option Nat
  | [] => none
  | d :: rest =>
    if ((w.index.get? d).map DeclInfo.typeParams).any (·.contains name) then some 0
    else (parameterLevel name rest).map (· + 1)

/-- Whether one of some levels shows a member type under a name. -/
def hidden (name : Name) : List DeclId → Inquiry Bool
  | [] => return false
  | l :: rest => do
    match ← (w.memberAt l name).run with
    | .ok (some _) => return true
    | _ => hidden name rest

/-- The type parameter that a simple name denotes. -/
def typeVariable? (name : Name) (sc : ScopeView) : Inquiry (Option (Name × Symbol)) := do
  match w.parameterLevel name sc.chain with
  | none => return none
  | some level =>
    if ← w.hidden name (sc.levelsUpTo level) then
      return none
    return sc.chain[level]?.map fun owner => (name, w.symbolOf owner)

/-- A declared type for each segment of a path that has arguments, and for the last one. -/
def enclosedTypes (sc : ScopeView) (span : Span) (path : List Name) (enclosing : TypeView) :
    List (Name × List TypeView) → TypeView
  | [] => enclosing
  | (name, args) :: rest =>
    let path := path ++ [name]
    if rest.isEmpty || !args.isEmpty then
      enclosedTypes sc span path (.declared (.written ⟨sc, path, span⟩) args enclosing) rest
    else
      enclosedTypes sc span path enclosing rest

mutual

/-- The type that is written in a scope. -/
def typeOf (sc : ScopeView) : TypeRef → Inquiry TypeView
  | .primitive p _ => return .primitive p
  | .void _ => return .void
  | .error _ => return .error
  | .array component _ => return .array (← typeOf sc component)
  | .wildcard _ => return .wildcard none none
  | .wildcardExtends bound _ => return .wildcard (some (← typeOf sc bound)) none
  | .wildcardSuper bound _ => return .wildcard none (some (← typeOf sc bound))
  | .classType segments span => do
    let parameter ←
      match segments with
      | [only] => w.typeVariable? only.name sc
      | _ => pure none
    match parameter with
    | some (name, owner) => return .typeVariable (w.text name) owner
    | none => return enclosedTypes sc span [] .absent (← segmentsOf sc segments)

/-- The segments of a class type with their arguments. -/
def segmentsOf (sc : ScopeView) : List ClassSegment → Inquiry (List (Name × List TypeView))
  | [] => return []
  | .mk name args :: rest => do
    let later ← segmentsOf sc rest
    let args ← typesOf sc args
    return (name, args) :: later

/-- The types of a list. -/
def typesOf (sc : ScopeView) : List TypeRef → Inquiry (List TypeView)
  | [] => return []
  | t :: rest => do
    let first ← typeOf sc t
    return first :: (← typesOf sc rest)

end

/-! ### Direct supertypes -/

/-- A declaration and those around it, outwards. -/
def chain : Nat → DeclId → List DeclId
  | 0, _ => []
  | fuel + 1, d =>
    d :: match (w.index.get? d).bind DeclInfo.parent with
      | some parent => chain fuel parent
      | none => []

/-- The scope inside a declaration. -/
def scopeOf (d : DeclId) : ScopeView where
  unit := ((w.index.get? d).map DeclInfo.unit).getD 0
  chain := w.chain (d + 1) d

/-- The scope of the supertypes that the header of a declaration names. -/
def headerScopeOf (d : DeclId) : ScopeView := { w.scopeOf d with header := true }

/-- The canonical name that a declared type extends without writing it. -/
def implicit? (i : DeclInfo) (h : DeclHead) : Option Name :=
  match h.kind with
  | .enumType => some w.wellKnown.enumBase
  | .recordType => some w.wellKnown.recordBase
  | .annotationType => some w.wellKnown.annotationBase
  | .classType =>
    if h.extended.isEmpty && i.qualifiedName ≠ .named w.wellKnown.rootObject then
      some w.wellKnown.rootObject
    else none
  | .interfaceType => none

/-- The symbols of canonical names; names without a type are left out. -/
def found (names : List String) : List Symbol := names.filterMap fun n => (w.lookup n).toOption

/-- The types that a declaration directly extends or implements, as far as they resolve. -/
def declaredListing (d : DeclId) (i : DeclInfo) (h : DeclHead) : Inquiry (List Symbol) :=
  if i.constant.isSome then return (i.parent.map w.symbolOf).toList
  else do
    let written ← Rule.collectFound
      (fun t => do w.resolveType (← w.typeOf (w.headerScopeOf d) t)) (h.extended ++ h.implemented)
    return w.found ((w.implicit? i h).toList.map w.text) ++ written

/-- The direct supertypes of a symbol. -/
def listing (symbol : Symbol) : Inquiry (List Symbol) :=
  match w.declOf? symbol with
  | some d =>
    match w.index.get? d, w.index.tree? w.units d with
    | some i, some tree => w.declaredListing d i tree.head
    | _, _ => return []
  | none =>
    match w.descriptorOf? symbol with
    | some d => return w.found (d.superclass.toList ++ d.interfaces)
    | none => return []

/-- The lists that can be made by way of chains of at most `n` lists, where a list needs none that
    needs it, apart from itself. -/
def supertypesAt : Nat → Symbol → Option (List Symbol)
  | 0, _ => none
  | n + 1, symbol =>
    (w.listing symbol).given fun other => if other = symbol then some [] else supertypesAt n other

/-- The answer of an inquiry that needs only lists that can be made so. -/
def Settles {α : Type} (i : Inquiry α) (a : α) : Prop := ∃ n, i.given (w.supertypesAt n) = some a

end World

end JavaAbi
