import JavaAbi.Model.Error
import JavaAbi.Model.Index
import JavaAbi.Symbols.Descriptor

namespace JavaAbi

/-!
# Elements and types

Elements are packages, types, fields and enum constants. What identifies an element is fixed when it
is made; its own type, its supertypes and what it encloses are computed on first request and kept.

A declared type of source code names its element by a `TypeReference`, resolved on first use: the
session keeps the outcome in a cell, which all copies of the type share.
-/

/-- The number of an element in its session. -/
abbrev ElementId := Nat

/-- What tells one session from another. -/
abbrev SessionToken := Nat

/-! ### Kinds -/

/-- What an element is. -/
inductive ElementKind where
  | package
  | classType
  | interfaceType
  | enumType
  | annotationType
  | recordType
  | field
  | enumConstant
  deriving DecidableEq, Inhabited, Repr

namespace ElementKind

/-- Whether the element is a type. -/
def isType : ElementKind → Bool
  | package | field | enumConstant => false
  | _ => true

/-- The kind of a declared type. -/
def ofDecl : DeclKind → ElementKind
  | .classType => classType
  | .interfaceType => interfaceType
  | .enumType => enumType
  | .annotationType => annotationType
  | .recordType => recordType

/-- The kind in words. -/
def words : ElementKind → String
  | package => "package"
  | classType => "class"
  | interfaceType => "interface"
  | enumType => "enum"
  | annotationType => "annotation type"
  | recordType => "record"
  | field => "field"
  | enumConstant => "enum constant"

/-- The kind as one word, as stubs write it. -/
def word : ElementKind → String
  | annotationType => "annotation_type"
  | enumConstant => "enum_constant"
  | k => k.words

end ElementKind

/-- Where the data of an element comes from. -/
inductive ElementOrigin where
  | tree
  | classpath
  | synthetic
  deriving DecidableEq, Inhabited, Repr

/-- What an element is made from; one key, one element. Types without a canonical name, fields and
    constants are found by their declaration, a field by its member and the number of its variable. -/
inductive ElementKey where
  | package (name : Name)
  | type (name : Name)
  | unnamed (decl : DeclId)
  | field (decl : DeclId) (member number : Nat)
  | constant (decl : DeclId) (member : Nat)
  deriving DecidableEq, Inhabited, Repr

/-! ### Types -/

/-- Where a type is written: the file, the enclosing declarations with their elements from the
    innermost outwards, and whether it stands in the header of the innermost one, whose members are
    then out of scope. -/
structure Scope where
  unit : Nat
  chain : List (DeclId × ElementId)
  header : Bool := false
  deriving DecidableEq, Inhabited, Repr

/-- A type name as written. -/
structure TypeReference where
  scope : Scope
  path : List Name
  span : Span
  deriving DecidableEq, Inhabited, Repr

/-- What a declared type names: an element, or what its reference resolves to; the outcome is kept
    in the cell of the reference. -/
inductive TypeTarget where
  | known (id : ElementId)
  | written (cell : Nat) (reference : TypeReference)
  deriving DecidableEq, Inhabited, Repr

/-- Where a session keeps the outcome of a reference once it is known. -/
structure Cell where
  reference : TypeReference
  outcome : Option (Except ModelError ElementId) := none
  deriving Inhabited

/-- A type. `absent` is the absence of one, `package` the pseudo-type of a package. -/
inductive ModelType where
  | primitive (type : PrimitiveType)
  | absent
  | void
  | package
  | declared (origin : SessionToken) (target : TypeTarget) (args : List ModelType)
      (enclosing : ModelType)
  | array (component : ModelType)
  | typeVariable (name : Name) (owner : ElementId)
  | wildcard (extendsBound superBound : Option ModelType)
  | error
  deriving Inhabited

namespace ModelType

/-- The kind of a type, by name. -/
def kindLabel : ModelType → String
  | primitive .boolean => "Boolean"
  | primitive .byte => "Byte"
  | primitive .short => "Short"
  | primitive .int => "Int"
  | primitive .long => "Long"
  | primitive .char => "Char"
  | primitive .float => "Float"
  | primitive .double => "Double"
  | absent => "None"
  | void => "Void"
  | package => "Package"
  | declared .. => "Declared"
  | array _ => "Array"
  | typeVariable .. => "TypeVar"
  | wildcard .. => "Wildcard"
  | error => "Error"

/-- Whether the type is a class or interface type. -/
def isDeclared : ModelType → Bool
  | declared .. => true
  | _ => false

/-- Whether the type is a class or interface type that, or whose enclosing type, has arguments. -/
def isParameterized : ModelType → Bool
  | declared _ _ args enclosing => !args.isEmpty || enclosing.isDeclared
  | _ => false

/-- Where the type is written, for class and interface types of source code. -/
def span? : ModelType → Option Span
  | declared _ (.written _ r) _ _ => some r.span
  | _ => none

/-- A class or interface type without arguments. -/
def plain (origin : SessionToken) (id : ElementId) : ModelType :=
  declared origin (.known id) [] absent

end ModelType

/-! ### Elements -/

/-- What an element keeps of a type declaration. -/
structure TreeShape where
  decl : DeclId
  unit : Nat
  isConstantBody : Bool
  extended : List TypeRef
  implemented : List TypeRef
  members : List ElementKey
  deriving Inhabited

/-- What an element is made of. -/
inductive ElementSource where
  | tree (shape : TreeShape)
  | field (type : TypeRef)
  | constant (body : Option DeclId)
  | described (descriptor : Descriptor)
  | package
  deriving Inhabited

/-- An element, with the answers it has given so far. -/
structure Element where
  kind : ElementKind
  simpleName : Name
  qualifiedName : QualifiedName
  enclosing : Option ElementId
  source : ElementSource
  modifiers : List Modifier := []
  typeParams : List Name := []
  span : Option Span := none
  ownType : Option ModelType := none
  superclass : Option (Except ModelError ModelType) := none
  interfaces : Option (Except ModelError (List ModelType)) := none
  enclosed : Option (Except ModelError (List ElementId)) := none
  deriving Inhabited

namespace Element

/-- Where the data comes from. -/
def origin (e : Element) : ElementOrigin :=
  match e.source with
  | .described _ => .classpath
  | .package => .synthetic
  | _ => .tree

/-- The element with no answers kept. -/
def bare (e : Element) : Element :=
  { e with ownType := none, superclass := none, interfaces := none, enclosed := none }

/-! ### New elements -/

/-- The element of a package. -/
def ofPackage (n simple : Name) : Element where
  kind := .package
  simpleName := simple
  qualifiedName := .named n
  enclosing := none
  source := .package

/-- The element of a type declaration. -/
def ofTree (decl : DeclId) (info : DeclInfo) (tree : TypeDecl) (enclosing : Option ElementId)
    (members : List ElementKey) : Element where
  kind := .ofDecl tree.head.kind
  simpleName := info.simpleName
  qualifiedName := info.qualifiedName
  enclosing := enclosing
  source := .tree
    { decl := decl
      unit := info.unit
      isConstantBody := info.constant.isSome
      extended := tree.head.extended
      implemented := tree.head.implemented
      members := members }
  modifiers := tree.head.modifiers
  typeParams := info.typeParams
  span := some info.nameSpan

/-- A type in the dimensions written after a variable. -/
def withDimensions (span : Span) : Nat → TypeRef → TypeRef
  | 0, t => t
  | n + 1, t => withDimensions span n (.array t span)

/-- The element of a variable of a field declaration. -/
def ofVariable (f : FieldDecl) (v : Variable) (owner : ElementId) : Element where
  kind := .field
  simpleName := v.name
  qualifiedName := .notApplicable
  enclosing := some owner
  source := .field (withDimensions v.span v.dims f.type)
  modifiers := f.modifiers
  span := some v.span

/-- The element of an enum constant, which is public, static and final. -/
def ofConstant (name : Name) (span : Span) (owner : ElementId) (body : Option DeclId) :
    Element where
  kind := .enumConstant
  simpleName := name
  qualifiedName := .notApplicable
  enclosing := some owner
  source := .constant body
  modifiers := [.publicAccess, .static, .final]
  span := some span

/-- The element of a precompiled type. -/
def ofDescriptor (d : Descriptor) (qualified simple : Name) (typeParams : List Name)
    (enclosing : Option ElementId) : Element where
  kind := .ofDecl d.kind
  simpleName := simple
  qualifiedName := .named qualified
  enclosing := enclosing
  source := .described d
  modifiers := d.modifiers
  typeParams := typeParams

/-! ### Reading elements -/

/-- Whether the element carries a modifier. -/
def hasModifier (e : Element) (m : Modifier) : Bool := e.modifiers.contains m

end Element

end JavaAbi
