import JavaAbi.Names
import JavaAbi.Text.Span

namespace JavaAbi

/-!
# Declaration trees

The tree of a compilation unit keeps what a stub can show: the package, imports, type declarations
with their headers, member types, fields and enum constants, each with its span. Executable code
never reaches it.
-/

/-! ### Words of a declaration -/

/-- A declaration modifier. -/
inductive Modifier where
  | publicAccess
  | protectedAccess
  | privateAccess
  | abstract
  | static
  | final
  | sealed
  | nonSealed
  | transient
  | volatile
  | synchronized
  | native
  | strictfp
  | default
  deriving DecidableEq, Inhabited, Repr

namespace Modifier

/-- The modifier as it is written. -/
def keyword : Modifier → String
  | publicAccess => "public"
  | protectedAccess => "protected"
  | privateAccess => "private"
  | abstract => "abstract"
  | static => "static"
  | final => "final"
  | sealed => "sealed"
  | nonSealed => "non-sealed"
  | transient => "transient"
  | volatile => "volatile"
  | synchronized => "synchronized"
  | native => "native"
  | strictfp => "strictfp"
  | default => "default"

/-- Every modifier, in the order in which the words are listed. -/
def all : List Modifier :=
  [publicAccess, protectedAccess, privateAccess, abstract, static, final, sealed, nonSealed,
   transient, volatile, synchronized, native, strictfp, default]

/-- The modifier that a word writes. -/
def ofKeyword? (word : String) : Option Modifier := all.find? (·.keyword == word)

theorem ofKeyword?_keyword (m : Modifier) : ofKeyword? m.keyword = some m := by
  cases m <;> decide

end Modifier

/-- A primitive type. -/
inductive PrimitiveType where
  | boolean
  | byte
  | short
  | int
  | long
  | char
  | float
  | double
  deriving DecidableEq, Inhabited, Repr

/-- The primitive type as it is written. -/
def PrimitiveType.keyword : PrimitiveType → String
  | boolean => "boolean"
  | byte => "byte"
  | short => "short"
  | int => "int"
  | long => "long"
  | char => "char"
  | float => "float"
  | double => "double"

/-- What a type declaration declares. -/
inductive DeclKind where
  | classType
  | interfaceType
  | enumType
  | annotationType
  | recordType
  deriving DecidableEq, Inhabited, Repr

/-! ### Written types -/

mutual

/-- A type as written. -/
inductive TypeRef where
  | primitive (type : PrimitiveType) (span : Span)
  | void (span : Span)
  | classType (segments : List ClassSegment) (span : Span)
  | array (element : TypeRef) (span : Span)
  | wildcard (span : Span)
  | wildcardExtends (bound : TypeRef) (span : Span)
  | wildcardSuper (bound : TypeRef) (span : Span)
  | error (span : Span)

/-- A name on the path of a class type, with the type arguments written after it. -/
inductive ClassSegment where
  | mk (name : Name) (args : List TypeRef)

end

instance : Inhabited TypeRef := ⟨.error .nowhere⟩
instance : Inhabited ClassSegment := ⟨.mk .empty []⟩

namespace ClassSegment

/-- The name of a segment. -/
def name : ClassSegment → Name
  | mk n _ => n

/-- The type arguments of a segment. -/
def args : ClassSegment → List TypeRef
  | mk _ as => as

end ClassSegment

namespace TypeRef

/-- Where the type is written. -/
def span : TypeRef → Span
  | primitive _ s | void s | classType _ s | array _ s | wildcard s | wildcardExtends _ s
  | wildcardSuper _ s | error s => s

/-- Whether the type stands for what could not be parsed. -/
def isError : TypeRef → Bool
  | error _ => true
  | _ => false

end TypeRef

/-- The type arguments of the last segment of a class type. -/
def ClassSegment.lastArgs (segments : List ClassSegment) : List TypeRef :=
  (segments.getLast?.map ClassSegment.args).getD []

/-- A type parameter with its bounds. -/
structure TypeParam where
  name : Name
  bounds : List TypeRef
  span : Span
  deriving Inhabited

/-! ### Declarations -/

/-- A dotted path; it has at least one segment. -/
structure Path where
  segments : List Name
  span : Span
  deriving DecidableEq, Inhabited, Repr

/-- A `package` declaration. -/
structure PackageDecl where
  path : Path
  span : Span
  deriving DecidableEq, Inhabited, Repr

/-- An `import` declaration; the path of one on demand is what stands before `.*`. -/
structure ImportDecl where
  isStatic : Bool
  path : Path
  onDemand : Bool
  span : Span
  deriving DecidableEq, Inhabited, Repr

/-- One variable of a field declaration, with the dimensions written after its name. -/
structure Variable where
  name : Name
  dims : Nat
  span : Span
  deriving DecidableEq, Inhabited, Repr

/-- A field declaration, of one or more variables. -/
structure FieldDecl where
  modifiers : List Modifier
  type : TypeRef
  declarators : List Variable
  span : Span
  deriving Inhabited

/-- What precedes the body of a type declaration. The name is absent for the body of an enum
    constant. -/
structure DeclHead where
  kind : DeclKind
  name : Option Name
  nameSpan : Span
  modifiers : List Modifier
  typeParams : List TypeParam
  extended : List TypeRef
  implemented : List TypeRef
  span : Span
  deriving Inhabited

mutual

/-- A type declaration: its head and its members in order. -/
inductive TypeDecl where
  | mk (head : DeclHead) (members : List Member)

/-- A member that a stub can show. The body of an enum constant is a nameless declaration. -/
inductive Member where
  | type (decl : TypeDecl)
  | field (field : FieldDecl)
  | constant (name : Name) (body : Option TypeDecl) (span : Span)

end

instance : Inhabited TypeDecl := ⟨.mk default []⟩
instance : Inhabited Member := ⟨.field default⟩

namespace TypeDecl

/-- What precedes the body. -/
def head : TypeDecl → DeclHead
  | mk h _ => h

/-- The members in order. -/
def members : TypeDecl → List Member
  | mk _ ms => ms

/-- Whether this is the body of an enum constant. -/
def isConstantBody (d : TypeDecl) : Bool := d.head.name.isNone

/-- Whether a modifier is written. -/
def hasModifier (d : TypeDecl) (m : Modifier) : Bool := d.head.modifiers.contains m

/-- Member types in order. -/
def memberTypes (d : TypeDecl) : List TypeDecl :=
  d.members.filterMap fun
    | .type t => some t
    | _ => none

/-- Field declarations in order. -/
def fields (d : TypeDecl) : List FieldDecl :=
  d.members.filterMap fun
    | .field f => some f
    | _ => none

/-- Enum constants in order, each with its body. -/
def constants (d : TypeDecl) : List (Name × Option TypeDecl) :=
  d.members.filterMap fun
    | .constant n body _ => some (n, body)
    | _ => none

end TypeDecl

/-- The tree of one file. -/
structure CompilationUnit where
  package : Option PackageDecl
  imports : List ImportDecl
  types : List TypeDecl
  span : Span
  deriving Inhabited

end JavaAbi
