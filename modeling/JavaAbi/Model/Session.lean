import JavaAbi.Config.Basic
import JavaAbi.Model.Arena
import JavaAbi.Model.Cache
import JavaAbi.Model.Element
import JavaAbi.Symbols.Provider

namespace JavaAbi

/-!
# Resolution sessions

A session answers queries about one batch of parsed files. Elements are made on demand through a
cache, so a symbol has one element however it is reached.

* `Session.start` — the session of a batch;
* `SessionM`, `Query` — work in a session, which a broken promise of a caller stops; and work that
  may have no answer;
* `canonical` — the element of a key, made on first request;
* `findType`, `elementOfDecl` — the element of a canonical name, and of a declaration.

The batch is consulted before the provider, and the provider at most once for a name.
-/

/-- The special names, interned. -/
structure WellKnown where
  rootObject : Name
  enumBase : Name
  recordBase : Name
  annotationBase : Name
  implicitImports : List Name
  deriving Inhabited, Repr

/-- What a session notes as it works. -/
inductive SessionEvent where
  | indexed (units declarations duplicates : Nat)
  | miss (key : String)
  | forwarded (name : String)
  | constructed (id : ElementId) (kind : ElementKind)
  deriving DecidableEq, Inhabited, Repr

/-- An event as one line. -/
def SessionEvent.text : SessionEvent → String
  | indexed u d x => "indexed " ++ toString u ++ " " ++ toString d ++ " " ++ toString x
  | miss key => "miss " ++ key
  | forwarded name => "delegate " ++ name
  | constructed id kind => "element " ++ toString id ++ " " ++ kind.words

/-- What a session is opened with and never changes: the batch with its index, the provider, the
    settings, and the length of the longest name of the batch. -/
structure SessionBase where
  token : SessionToken
  units : List CompilationUnit
  provider : Provider
  config : ModelConfig
  index : DeclIndex
  wellKnown : WellKnown
  longestName : Nat
  deriving Inhabited

/-- The state of a session. -/
structure Session extends SessionBase where
  names : NameTable
  cache : Cache ElementKey (Except ModelError ElementId) := {}
  supertypes : Cache ElementId (List ElementId) := {}
  elements : Arena Element := {}
  cells : Array Cell := #[]
  events : Array SessionEvent := #[]
  /-- Whether a search for a member type was cut off. -/
  cutOff : Bool := false
  deriving Inhabited

/-- Interns the special names; empty package names are left out. -/
def WellKnown.ofConfig (c : ModelConfig) (t : NameTable) : WellKnown × NameTable :=
  let (rootObject, t) := t.intern c.rootObject
  let (enumBase, t) := t.intern "java.lang.Enum"
  let (recordBase, t) := t.intern "java.lang.Record"
  let (annotationBase, t) := t.intern "java.lang.annotation.Annotation"
  let (implicitImports, t) := t.internAll (c.implicitImports.filter (!·.isEmpty))
  (⟨rootObject, enumBase, recordBase, annotationBase, implicitImports⟩, t)

/-- Indexes a batch. `names` is the table that the files were parsed with. -/
def Session.start (token : SessionToken) (units : List CompilationUnit) (names : NameTable)
    (provider : Provider) (config : ModelConfig) : Session :=
  let (index, names) := DeclIndex.ofUnits units names
  let (wellKnown, names) := WellKnown.ofConfig config names
  let longestName := names.texts.foldl (fun n t => max n t.length) 0
  { token, units, provider, config, index, wellKnown, longestName, names
    events := #[.indexed units.length index.size index.duplicates.length] }

/-- A promise that was not kept. A caller promises that no empty name is to be qualified, and that
    names, elements and declarations are those of the session; the resolution of names, that no list
    of supertypes is made while it is being made, and that such lists are not made ever deeper. -/
inductive Breach where
  | emptyName
  | foreignName (name : Name)
  | foreignElement (id : ElementId)
  | foreignDecl (id : DeclId)
  | nestedSupertypes (id : ElementId)
  | endlessSupertypes
  deriving DecidableEq, Inhabited, Repr

/-- Work in a session. A breach stops it; what was done before stays done. -/
abbrev SessionM := ExceptT Breach (StateM Session)

/-- A query: work in a session that may have no answer. What it learnt stays known all the same. -/
abbrev Query := ExceptT ModelError SessionM

/-- The answer of a query, or why it has none; this always has an answer. -/
def Query.attempt {α : Type} (q : Query α) : Query (Except ModelError α) := ExceptT.lift q.run

/-- The query with a known outcome. -/
def Query.ofExcept {α : Type} (r : Except ModelError α) : Query α := ExceptT.mk (pure r)

/-! ### Names and events -/

/-- The name of a text. -/
def internName (text : String) : SessionM Name :=
  modifyGet fun s =>
    let (n, names) := s.names.intern text
    (n, { s with names })

/-- The names of texts. -/
def internNames : List String → SessionM (List Name)
  | [] => return []
  | text :: rest => return (← internName text) :: (← internNames rest)

/-- The name of `simple` in `outer`. An empty name cannot be qualified. -/
def qualifyName (outer : Option Name) (simple : Name) : SessionM Name := do
  let s ← get
  match s.names.qualify? outer simple with
  | some (n, names) =>
    set { s with names }
    return n
  | none => throw (if simple = .empty then .emptyName else .foreignName simple)

/-- The text of a name of this session. -/
def nameText (n : Name) : SessionM String := do
  match (← get).names.resolve? n with
  | some text => return text
  | none => throw (.foreignName n)

/-- Notes an event. -/
def note (e : SessionEvent) : SessionM Unit := modify fun s => { s with events := s.events.push e }

/-- Work that, where a breach stops it, undoes what it began. -/
def guarded {α : Type} (undo : SessionM Unit) (work : SessionM α) : SessionM α :=
  tryCatch work fun breach => do
    undo
    throw breach

/-- The same for a query. -/
def Query.guarded {α : Type} (undo : SessionM Unit) (q : Query α) : Query α :=
  ExceptT.mk (JavaAbi.guarded undo q.run)

/-! ### Elements and declarations -/

/-- The element of a number; a number that was never given has none. -/
def element? (id : ElementId) : SessionM (Option Element) := return (← get).elements.get? id

/-- The element of a number that this session gave. -/
def elementAt (id : ElementId) : SessionM Element := do
  match (← get).elements.get? id with
  | some e => return e
  | none => throw (.foreignElement id)

/-- Changes what an element keeps. -/
def updateElement (id : ElementId) (f : Element → Element) : SessionM Unit := do
  let e ← elementAt id
  modify fun s => { s with elements := (s.elements.set? id (f e)).getD s.elements }

/-- Gives an element its number. -/
def allocate (e : Element) : SessionM ElementId := do
  let id ← modifyGet fun s =>
    let (id, elements) := s.elements.alloc e
    (id, { s with elements })
  note (.constructed id e.kind)
  return id

/-- What is recorded of a declaration of the batch. -/
def declAt (id : DeclId) : SessionM DeclInfo := do
  match (← get).index.get? id with
  | some info => return info
  | none => throw (.foreignDecl id)

/-- The first of some declarations that has a simple name. -/
def findNamed (simple : Name) : List DeclId → SessionM (Option DeclId)
  | [] => return none
  | d :: rest => do
    if (← declAt d).simpleName = simple then
      return some d
    findNamed simple rest

/-- The first member type of a declaration that has a simple name. -/
def memberTypeNamed (owner : DeclId) (simple : Name) : SessionM (Option DeclId) := do
  findNamed simple (← declAt owner).memberTypes

/-! ### Keys -/

/-- A key in words. -/
def describeKey : ElementKey → SessionM String
  | .package n => return "package `" ++ (← nameText n) ++ "`"
  | .type n => return "type `" ++ (← nameText n) ++ "`"
  | .unnamed d => return "anonymous type #" ++ toString d
  | .field d m v =>
    return "field " ++ toString m ++ "." ++ toString v ++ " of type #" ++ toString d
  | .constant d m => return "enum constant " ++ toString m ++ " of type #" ++ toString d

/-- The key of a declaration, of which `info` is recorded. -/
def DeclInfo.key (info : DeclInfo) (id : DeclId) : ElementKey :=
  match info.qualifiedName.name? with
  | some n => .type n
  | none => .unnamed id

/-- The key of a declaration. -/
def keyOf (id : DeclId) : SessionM ElementKey := return (← declAt id).key id

/-- A request to the element cache. -/
def requestElement (key : ElementKey) : SessionM (Request (Except ModelError ElementId)) :=
  modifyGet fun s =>
    let (r, cache) := s.cache.request key
    (r, { s with cache })

/-- Ends a construction. -/
def finishElement (key : ElementKey) (r : Except ModelError ElementId) : SessionM Unit :=
  modify fun s => { s with cache := s.cache.finish key r }

/-- Gives a construction up. -/
def abandonElement (key : ElementKey) : SessionM Unit :=
  modify fun s => { s with cache := s.cache.abandon key }

/-! ### Construction

The functions below are given `canonical`, which makes the elements that they need. -/

section Build

variable (canonical : ElementKey → Query ElementId)

/-- The element of a package; the unnamed one has none. -/
def packageElement (package : Option Name) : Query (Option ElementId) := do
  match package with
  | some n => if n = .empty then return none else some <$> canonical (.package n)
  | none => return none

/-- Makes the element of a package. -/
def buildPackage (n : Name) : SessionM Element := do
  let simple := lastSegment (← nameText n).toList
  return .ofPackage n (← internName (String.ofList simple))

/-- The keys of what member `i` of a declaration declares. -/
def memberKeys (decl : DeclId) (i : Nat) : Member → SessionM (List ElementKey)
  | .type _ => do
    match (← get).index.child? decl i with
    | some child => return [← keyOf child]
    | none => return []
  | .field f => return (List.range f.declarators.length).map fun v => .field decl i v
  | .constant .. => return [.constant decl i]

/-- The keys of what the members of a declaration declare, from member `i` on. -/
def allMemberKeys (decl : DeclId) (i : Nat) : List Member → SessionM (List ElementKey)
  | [] => return []
  | m :: rest => return (← memberKeys decl i m) ++ (← allMemberKeys decl (i + 1) rest)

/-- The element around a declaration: the constant of which it is the body, the declaration that it
    is a member of, or the package of its file. -/
def declEnclosing (info : DeclInfo) : Query (Option ElementId) := do
  match info.parent, info.constant with
  | some parent, some member => some <$> canonical (.constant parent member)
  | some parent, none => do some <$> canonical (← keyOf parent)
  | none, _ => do packageElement canonical ((← get).index.package? info.unit)

/-- Makes the element of a type declaration. -/
def buildTreeType (decl : DeclId) : Query Element := do
  let info ← declAt decl
  let s ← get
  match s.index.tree? s.units decl with
  | none => throw (.missingTree "declaration")
  | some tree =>
    let enclosing ← declEnclosing canonical info
    let members ← allMemberKeys decl 0 tree.members
    return .ofTree decl info tree enclosing members

/-- A member of a declaration. -/
def Session.member? (s : Session) (decl : DeclId) (member : Nat) : Option Member :=
  (s.index.tree? s.units decl).bind (·.members[member]?)

/-- Makes the element of a variable of a field declaration. -/
def buildField (decl : DeclId) (member number : Nat) : Query Element := do
  match (← get).member? decl member with
  | some (.field f) =>
    match f.declarators[number]? with
    | some v => return .ofVariable f v (← canonical (← keyOf decl))
    | none => throw (.missingTree "variable")
  | _ => throw (.missingTree "field")

/-- Makes the element of an enum constant. -/
def buildConstant (decl : DeclId) (member : Nat) : Query Element := do
  let s ← get
  match s.member? decl member with
  | some (.constant name _ span) =>
    return .ofConstant name span (← canonical (← keyOf decl)) (s.index.child? decl member)
  | _ => throw (.missingTree "enum constant")

/-- The package of a precompiled type. -/
def describedPackage (d : Descriptor) : Query (Option ElementId) := do
  packageElement canonical (some (← internName d.package))

/-- The element that encloses a precompiled type: the type that its name points to if that is known,
    else its package. -/
def describedEnclosing (d : Descriptor) : Query (Option ElementId) := do
  match d.enclosingType? with
  | none => describedPackage canonical d
  | some outer =>
    match ← Query.attempt (canonical (.type (← internName outer))) with
    | .ok id => return some id
    -- A type around it that is unknown does not make this one unknown.
    | .error e => if e.isUnknownSymbol then describedPackage canonical d else throw e

/-- Makes the element of a precompiled type. -/
def buildDescribed (d : Descriptor) : Query Element := do
  let qualified ← internName d.qualifiedName
  let enclosing ← describedEnclosing canonical d
  let simple ← internName d.simpleName
  let typeParams ← internNames d.typeParameters
  return .ofDescriptor d qualified simple typeParams enclosing

/-- Makes the element of a canonical name that the batch does not declare. -/
def buildForwarded (n : Name) : Query Element := do
  let text ← nameText n
  note (.forwarded text)
  match (← get).provider.resolve? text with
  | none => throw (.unknown text)
  | some d =>
    -- A provider must not answer with another type than was asked for.
    if d.qualifiedName = text then buildDescribed canonical d
    else throw (.misnamed text d.qualifiedName)

/-- Makes the element of a key. -/
def build : ElementKey → Query Element
  | .package n => buildPackage n
  | .type n => do
    match (← get).index.find? n with
    | some decl => buildTreeType canonical decl
    | none => buildForwarded canonical n
  | .unnamed decl => buildTreeType canonical decl
  | .field decl member number => buildField canonical decl member number
  | .constant decl member => buildConstant canonical decl member

/-- Notes that a key was not known, and makes its element. -/
def prepare (key : ElementKey) : Query Element := do
  note (.miss (← describeKey key))
  build canonical key

/-- Makes the element of a key and gives it its number. -/
def construct (key : ElementKey) : Query ElementId := do
  allocate (← prepare canonical key)

end Build

/-! ### Canonical elements -/

/-- The element of a key. A key that asks for itself is an error; `fuel` bounds the keys under
    construction. -/
def canonicalWithin : Nat → ElementKey → Query ElementId
  | 0, key => do throw (.cyclicConstruction (← describeKey key))
  | fuel + 1, key => do
    match ← requestElement key with
    | .found r => Query.ofExcept r
    | .reentrant => throw (.cyclicConstruction (← describeKey key))
    | .construct =>
      -- The outcome is kept, also if it is an error; only a breach vacates the key.
      let r ← Query.attempt
        (Query.guarded (abandonElement key) (construct (canonicalWithin fuel) key))
      finishElement key r
      Query.ofExcept r

/-- The length of the name that a key holds, or of the longest name of the batch. -/
def Session.nameBound (s : Session) : ElementKey → Nat
  | .package n | .type n => (s.names.text n).length
  | _ => s.longestName

/-- A bound on the keys that the construction of one needs: declarations and constants around it,
    then ever shorter names. -/
def Session.constructionBound (s : Session) (key : ElementKey) : Nat :=
  2 * s.index.size + s.nameBound key + 4

/-- The element of a key, made on first request. -/
def canonical (key : ElementKey) : Query ElementId := do
  canonicalWithin ((← get).constructionBound key) key

/-- The type of a canonical name: the batch first, then the provider. -/
def findType (n : Name) : Query ElementId := canonical (.type n)

/-- Like `findType`, but an unknown name is no error. -/
def tryType (n : Name) : Query (Option ElementId) := do
  match ← Query.attempt (findType n) with
  | .ok id => return some id
  | .error e => if e.isUnknownSymbol then return none else throw e

/-- The element of a declaration. -/
def elementOfDecl (decl : DeclId) : Query ElementId := do
  canonical (← keyOf decl)

/-- The text of an element: its qualified name, or else its simple name. -/
def displayElement (id : ElementId) : SessionM String := do
  let e ← elementAt id
  nameText (e.qualifiedName.name?.getD e.simpleName)

end JavaAbi
