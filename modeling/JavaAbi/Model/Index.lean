import JavaAbi.Syntax.Tree

namespace JavaAbi

/-!
# The declaration index

Every type declaration of a batch, the bodies of enum constants included, has a number: declarations
are counted file by file, each before the declarations inside it. The index records where each one
stands in its tree, its canonical name, and what name resolution needs of its file.

* `DeclIndex.ofUnits` — the index of a batch;
* `DeclIndex.find?` — the first declaration of a canonical name;
* `DeclIndex.tree?` — the declaration itself, by its recorded path;
* `DeclIndex.duplicates` — declarations whose name an earlier one has. What a duplicate encloses is
  not found by name.
-/

/-- The number of a declaration. -/
abbrev DeclId := Nat

/-- The canonical name of an element, if it can have one. -/
inductive QualifiedName where
  | named (name : Name)
  | anonymous
  | notApplicable
  deriving DecidableEq, Inhabited, Repr

/-- The name of an element that has one. -/
def QualifiedName.name? : QualifiedName → Option Name
  | named n => some n
  | _ => none

/-- What the index records of a declaration. -/
structure DeclInfo where
  unit : Nat
  parent : Option DeclId
  path : List Nat
  simpleName : Name
  qualifiedName : QualifiedName
  typeParams : List Name
  nameSpan : Span
  constant : Option Nat
  memberTypes : List DeclId := []
  deriving Inhabited

/-- The imports of a file: canonical names by simple name, and packages and types whose members are
    imported on demand. -/
structure UnitImports where
  single : List (Name × Name) := []
  onDemand : List Name := []
  deriving Inhabited

/-- The index of a batch. -/
structure DeclIndex where
  decls : Array DeclInfo := #[]
  byName : List (Name × DeclId) := []
  children : List ((DeclId × Nat) × DeclId) := []
  topLevel : List DeclId := []
  packages : List (Option Name) := []
  imports : List UnitImports := []
  duplicates : List (DeclId × DeclId) := []
  deriving Inhabited

namespace DeclIndex

/-! ### Reading the index -/

/-- What is recorded of a declaration. -/
def get? (x : DeclIndex) (id : DeclId) : Option DeclInfo := x.decls[id]?

/-- The first declaration of a canonical name. -/
def find? (x : DeclIndex) (n : Name) : Option DeclId := x.byName.lookup n

/-- The type that a member of a declaration declares: a member type, or the body of a constant. -/
def child? (x : DeclIndex) (parent : DeclId) (member : Nat) : Option DeclId :=
  x.children.lookup (parent, member)

/-- The member types of a declaration. -/
def memberTypes (x : DeclIndex) (owner : DeclId) : List DeclId :=
  ((x.get? owner).map DeclInfo.memberTypes).getD []

/-- The first member type of a simple name. -/
def memberType? (x : DeclIndex) (owner : DeclId) (simple : Name) : Option DeclId :=
  (x.memberTypes owner).find? fun child =>
    ((x.get? child).map DeclInfo.simpleName) = some simple

/-- The package of a file; the unnamed package has no name. -/
def package? (x : DeclIndex) (unit : Nat) : Option Name := (x.packages[unit]?).join

/-- The imports of a file. -/
def importsOf (x : DeclIndex) (unit : Nat) : UnitImports := (x.imports[unit]?).getD {}

/-- Number of declarations. -/
def size (x : DeclIndex) : Nat := x.decls.size

end DeclIndex

/-- The declaration at a path of member numbers below another. -/
def TypeDecl.follow? : List Nat → TypeDecl → Option TypeDecl
  | [], d => some d
  | i :: rest, d =>
    match d.members[i]? with
    | some (.type t) => follow? rest t
    | some (.constant _ (some body) _) => follow? rest body
    | _ => none

/-- The declaration at a path in a file of a batch: the number of a top-level declaration, then
    member numbers. -/
def treeAt (units : List CompilationUnit) (unit : Nat) : List Nat → Option TypeDecl
  | [] => none
  | i :: rest => do TypeDecl.follow? rest (← (← units[unit]?).types[i]?)

/-- The declaration that the index numbers. -/
def DeclIndex.tree? (x : DeclIndex) (units : List CompilationUnit) (id : DeclId) :
    Option TypeDecl := do
  let info ← x.get? id
  treeAt units info.unit info.path

/-! ### Building the index -/

/-- An index under construction and the names interned for it. -/
structure IndexState where
  index : DeclIndex := {}
  names : NameTable
  deriving Inhabited

/-- Building steps. -/
abbrev Indexing := StateM IndexState

namespace Indexing

/-- The name of `simple` in `outer`. -/
def qualify (outer : Option Name) (simple : Name) : Indexing Name :=
  modifyGet fun s =>
    let (n, names) := s.names.qualify outer simple
    (n, { s with names })

/-- The name of a path; an empty path has none. -/
def qualifyPath (outer : Option Name) : List Name → Indexing (Option Name)
  | [] => return outer
  | s :: rest => do qualifyPath (some (← qualify outer s)) rest

/-- Gives a declaration its number. -/
def push (info : DeclInfo) : Indexing DeclId :=
  modifyGet fun s =>
    (s.index.decls.size, { s with index.decls := s.index.decls.push info })

/-- Enters a declaration under its name. A name that is taken makes it a duplicate. The answer is
    whether what the declaration encloses can be found by name. -/
def enter (id : DeclId) (name : QualifiedName) (reachable : Bool) : Indexing Bool := do
  match name with
  | .named n =>
    -- Not inside of a duplicate: the members of a type are found in its first declaration only.
    if !reachable then
      return false
    let s ← get
    match s.index.find? n with
    | some first =>
      set { s with index.duplicates := s.index.duplicates ++ [(id, first)] }
      return false
    | none =>
      set { s with index.byName := s.index.byName ++ [(n, id)] }
      return true
  | _ => return reachable

/-- Numbers a declaration and enters it. -/
def number (info : DeclInfo) (reachable : Bool) : Indexing (DeclId × Bool) := do
  let id ← push info
  return (id, ← enter id info.qualifiedName reachable)

/-- Records which declaration a member declares. -/
def addChild (parent : DeclId) (member : Nat) (child : DeclId) : Indexing Unit :=
  modify fun s => { s with index.children := s.index.children ++ [((parent, member), child)] }

/-- Records the member types of a declaration. -/
def setMemberTypes (id : DeclId) (types : List DeclId) : Indexing Unit :=
  modify fun s =>
    { s with index.decls := s.index.decls.modify id fun d => { d with memberTypes := types } }

/-- Where a declaration stands and what is known of it from outside. -/
structure Place where
  unit : Nat
  parent : Option DeclId
  path : List Nat
  qualifiedName : QualifiedName
  constant : Option Nat
  reachable : Bool

/-- The name of a member type: inside a named declaration its own name, qualified. -/
def memberName (outer : QualifiedName) (name : Option Name) : Indexing QualifiedName :=
  match outer, name with
  | .named o, some simple => QualifiedName.named <$> qualify (some o) simple
  | _, _ => return .anonymous

mutual

/-- Numbers a declaration and those inside it. -/
def addDecl (place : Place) : TypeDecl → Indexing DeclId
  | .mk head members => do
    let info : DeclInfo :=
      { unit := place.unit
        parent := place.parent
        path := place.path
        simpleName := head.name.getD .empty
        qualifiedName := place.qualifiedName
        typeParams := head.typeParams.map TypeParam.name
        nameSpan := head.nameSpan
        constant := place.constant }
    -- The declaration is numbered before those inside it.
    let (id, reachable) ← number info place.reachable
    let types ← addMembers { place with parent := some id, reachable } id 0 members
    -- The member types have their numbers only now.
    setMemberTypes id types
    return id

/-- Numbers the declarations among the members from number `i` on of the declaration `id`, and gives
    the member types. `outer` is the place of that declaration, with itself as the parent. -/
def addMembers (outer : Place) (id : DeclId) (i : Nat) : List Member → Indexing (List DeclId)
  | [] => return []
  | m :: rest => do
    let found ← addMember outer id i m
    return found.toList ++ (← addMembers outer id (i + 1) rest)

/-- Numbers the declaration of a member; a member type is the answer. -/
def addMember (outer : Place) (id : DeclId) (i : Nat) : Member → Indexing (Option DeclId)
  | .type d => do
    let name ← memberName outer.qualifiedName d.head.name
    let child ← addDecl
      { outer with path := outer.path ++ [i], qualifiedName := name, constant := none } d
    addChild id i child
    return some child
  | .constant _ (some body) _ => do
    let child ← addDecl
      -- What stands in a body has no canonical name, at any depth.
      { outer with path := outer.path ++ [i], qualifiedName := .anonymous, constant := some i } body
    addChild id i child
    return none
  | .constant _ none _ => return none
  | .field _ => return none

end

/-- Records an import under its canonical name. -/
def addImport (imports : UnitImports) (i : ImportDecl) : Indexing UnitImports := do
  match ← qualifyPath none i.path.segments, i.path.segments.getLast? with
  | some path, some last =>
    return if i.onDemand then { imports with onDemand := imports.onDemand ++ [path] }
      else { imports with single := imports.single ++ [(last, path)] }
  | _, _ => return imports

/-- The name of a top-level declaration. -/
def topName (package : Option Name) : Option Name → Indexing QualifiedName
  | some simple => QualifiedName.named <$> qualify package simple
  | none => return .anonymous

/-- Numbers the top-level declarations of a file from number `i` on. -/
def addTypes (unit : Nat) (package : Option Name) (i : Nat) : List TypeDecl → Indexing Unit
  | [] => return
  | d :: rest => do
    let name ← topName package d.head.name
    let id ← addDecl ⟨unit, none, [i], name, none, true⟩ d
    modify fun s => { s with index.topLevel := s.index.topLevel ++ [id] }
    addTypes unit package (i + 1) rest

/-- The name of a package; the unnamed one has none. -/
def packageName : Option PackageDecl → Indexing (Option Name)
  | some p => qualifyPath none p.path.segments
  | none => return none

/-- Records a file. -/
def addUnit (unit : Nat) (u : CompilationUnit) : Indexing Unit := do
  let package ← packageName u.package
  modify fun s => { s with index.packages := s.index.packages ++ [package] }
  let imports ← u.imports.foldlM addImport {}
  modify fun s => { s with index.imports := s.index.imports ++ [imports] }
  addTypes unit package 0 u.types

/-- Records files from number `i` on. -/
def addUnits (i : Nat) : List CompilationUnit → Indexing Unit
  | [] => return
  | u :: rest => do
    addUnit i u
    addUnits (i + 1) rest

end Indexing

/-- The index of a batch, with the names interned for it. -/
def DeclIndex.ofUnits (units : List CompilationUnit) (names : NameTable) : DeclIndex × NameTable :=
  let (_, s) := (Indexing.addUnits 0 units).run { names }
  (s.index, s.names)

end JavaAbi
