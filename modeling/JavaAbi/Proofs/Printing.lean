import JavaAbi.Proofs.Lexemes
import JavaAbi.Proofs.NameTables

namespace JavaAbi

/-!
# Trees as Java text

The words that a tree is written with, and the trees that Java has words for. A word is the kind and
the text of a token; the words of a text stand between blanks.

* `CompilationUnit.words` — the words of a tree, and `printed` their text;
* `CompilationUnit.bare` — a tree without its places;
* `CompilationUnit.Surface` — the trees that the grammar of the parser has.
-/

/-! ### Words -/

/-- The kind and the text of a token. -/
abbrev Word := TokenKind × String

/-- The word of a token. -/
def Token.word (t : Token) : Word := (t.kind, t.text)

namespace Word

def leftBrace : Word := (.leftBrace, "\x7b")
def rightBrace : Word := (.rightBrace, "\x7d")
def leftParen : Word := (.leftParen, "(")
def rightParen : Word := (.rightParen, ")")
def leftBracket : Word := (.leftBracket, "[")
def rightBracket : Word := (.rightBracket, "]")
def semicolon : Word := (.semicolon, ";")
def comma : Word := (.comma, ",")
def dot : Word := (.dot, ".")
def atSign : Word := (.atSign, "@")
def question : Word := (.question, "?")
def less : Word := (.less, "<")
def greater : Word := (.greater, ">")
def ampersand : Word := (.ampersand, "&")
def minus : Word := (.minus, "-")
def star : Word := (.operator, "*")
def kwPackage : Word := (.kwPackage, "package")
def kwImport : Word := (.kwImport, "import")
def kwStatic : Word := (.kwStatic, "static")
def kwExtends : Word := (.kwExtends, "extends")
def kwImplements : Word := (.kwImplements, "implements")
def kwSuper : Word := (.kwSuper, "super")
def kwVoid : Word := (.kwVoid, "void")

/-- The word of an identifier. -/
def ident (text : String) : Word := (.identifier, text)

end Word

/-- Pieces of a text with a word between them. -/
def separated (separator : Word) : List (List Word) → List Word
  | [] => []
  | piece :: rest => piece ++ rest.flatMap (separator :: ·)

/-- The word of a primitive type. -/
def PrimitiveType.word (p : PrimitiveType) : Word :=
  (match p with
    | boolean => .kwBoolean
    | byte => .kwByte
    | short => .kwShort
    | int => .kwInt
    | long => .kwLong
    | char => .kwChar
    | float => .kwFloat
    | double => .kwDouble, p.keyword)

/-- The words of a modifier. -/
def Modifier.words : Modifier → List Word
  | publicAccess => [(.kwPublic, "public")]
  | protectedAccess => [(.kwProtected, "protected")]
  | privateAccess => [(.kwPrivate, "private")]
  | abstract => [(.kwAbstract, "abstract")]
  | static => [.kwStatic]
  | final => [(.kwFinal, "final")]
  | sealed => [.ident "sealed"]
  | nonSealed => [.ident "non", .minus, .ident "sealed"]
  | transient => [(.kwTransient, "transient")]
  | volatile => [(.kwVolatile, "volatile")]
  | synchronized => [(.kwSynchronized, "synchronized")]
  | native => [(.kwNative, "native")]
  | strictfp => [(.kwStrictfp, "strictfp")]
  | default => [(.kwDefault, "default")]

/-- The words that start a declaration. -/
def DeclKind.words : DeclKind → List Word
  | classType => [(.kwClass, "class")]
  | interfaceType => [(.kwInterface, "interface")]
  | enumType => [(.kwEnum, "enum")]
  | annotationType => [.atSign, (.kwInterface, "interface")]
  | recordType => [.ident "record"]

/-- The words of dimensions. -/
def dimensionWords : Nat → List Word
  | 0 => []
  | n + 1 => .leftBracket :: .rightBracket :: dimensionWords n

section Words

variable (t : NameTable)

/-- The word of a name. -/
def Name.word (n : Name) : Word := .ident (t.text n)

mutual

/-- The words of a written type. -/
def TypeRef.words : TypeRef → List Word
  | .primitive p _ => [p.word]
  | .void _ => [.kwVoid]
  | .classType segments _ => separated .dot (ClassSegment.eachWords segments)
  | .array component _ => component.words ++ [.leftBracket, .rightBracket]
  | .wildcard _ => [.question]
  | .wildcardExtends bound _ => .question :: .kwExtends :: bound.words
  | .wildcardSuper bound _ => .question :: .kwSuper :: bound.words
  | .error _ => []

/-- The words of each segment of a class type. -/
def ClassSegment.eachWords : List ClassSegment → List (List Word)
  | [] => []
  | .mk name [] :: rest => [name.word t] :: ClassSegment.eachWords rest
  | .mk name (arg :: args) :: rest =>
    (name.word t :: .less :: separated .comma (arg.words :: TypeRef.eachWords args) ++ [.greater])
      :: ClassSegment.eachWords rest

/-- The words of each of some types. -/
def TypeRef.eachWords : List TypeRef → List (List Word)
  | [] => []
  | type :: rest => type.words :: TypeRef.eachWords rest

end

/-- A clause of types after a keyword, if there are any. -/
def clauseWords (keyword separator : Word) (types : List TypeRef) : List Word :=
  if types.isEmpty then [] else keyword :: separated separator (types.map (TypeRef.words t))

/-- The words of a type parameter. -/
def TypeParam.words (p : TypeParam) : List Word :=
  p.name.word t :: clauseWords t .kwExtends .ampersand p.bounds

/-- The words of type parameters, if there are any. -/
def typeParamWords (params : List TypeParam) : List Word :=
  if params.isEmpty then []
  else .less :: separated .comma (params.map (TypeParam.words t)) ++ [.greater]

/-- The words of a variable. -/
def Variable.words (v : Variable) : List Word := v.name.word t :: dimensionWords v.dims

/-- The words of a field declaration. -/
def FieldDecl.words (f : FieldDecl) : List Word :=
  f.modifiers.flatMap Modifier.words ++ f.type.words t
    ++ separated .comma (f.declarators.map (Variable.words t)) ++ [.semicolon]

/-- The words of a record component. -/
def FieldDecl.componentWords (f : FieldDecl) : List Word :=
  f.type.words t ++ separated .comma (f.declarators.map (Variable.words t))

/-- Whether a field has the shape of a record component. -/
def FieldDecl.isComponent (f : FieldDecl) : Bool :=
  f.modifiers = [.privateAccess, .final] && f.declarators.map Variable.dims = [0]

/-- The components that members start with. -/
def leadingComponents : List Member → List FieldDecl
  | .field f :: rest => if f.isComponent then f :: leadingComponents rest else []
  | _ => []

/-- Whether a member is an enum constant. -/
def Member.isConstant : Member → Bool
  | .constant _ _ _ => true
  | _ => false

/-- The components of a record in parentheses. -/
def componentWords (kind : DeclKind) (members : List Member) : List Word :=
  if kind = .recordType then
    .leftParen :: separated .comma ((leadingComponents members).map (FieldDecl.componentWords t))
      ++ [.rightParen]
  else []

/-- The members that are written as components of a record. -/
def recordComponents (kind : DeclKind) (members : List Member) : List FieldDecl :=
  if kind = .recordType then leadingComponents members else []

/-- The members in braces, each given by its words: those of a record without its components, those
    of an enum with `;` after the constants. -/
def bodyWords (kind : DeclKind) (members : List Member) (each : List (List Word)) : List Word :=
  if kind = .enumType then
    let constants := (members.takeWhile Member.isConstant).length
    .leftBrace :: (each.take constants).flatten
      ++ .semicolon :: (each.drop constants).flatten ++ [.rightBrace]
  else .leftBrace :: (each.drop (recordComponents kind members).length).flatten ++ [.rightBrace]

/-- The words of a head from its keyword up to the type parameters. -/
def DeclHead.startWords (h : DeclHead) : List Word :=
  h.kind.words ++ (h.name.toList.map (Name.word t)) ++ typeParamWords t h.typeParams

/-- The clauses of a head. -/
def DeclHead.clauses (h : DeclHead) : List Word :=
  clauseWords t .kwExtends .comma h.extended ++ clauseWords t .kwImplements .comma h.implemented

mutual

/-- The words of a declaration, from its keyword on. -/
def TypeDecl.words : TypeDecl → List Word
  | .mk head members =>
    head.startWords t ++ componentWords t head.kind members ++ head.clauses t
      ++ bodyWords head.kind members (Member.eachWords members)

/-- The words of a member. A comma follows each enum constant. -/
def Member.words : Member → List Word
  | .type (.mk head members) =>
    head.modifiers.flatMap Modifier.words ++ TypeDecl.words (.mk head members)
  | .field f => f.words t
  | .constant name none _ => [name.word t, .comma]
  | .constant name (some (.mk _ members)) _ =>
    name.word t :: .leftBrace :: (Member.eachWords members).flatten ++ [.rightBrace, .comma]

/-- The words of each of some members. -/
def Member.eachWords : List Member → List (List Word)
  | [] => []
  | m :: rest => m.words :: Member.eachWords rest

end

/-- The words of a path. -/
def Path.words (p : Path) : List Word := separated .dot (p.segments.map fun n => [n.word t])

/-- The words of a `package` declaration. -/
def PackageDecl.words (p : PackageDecl) : List Word := .kwPackage :: p.path.words t ++ [.semicolon]

/-- The words of an import. -/
def ImportDecl.words (i : ImportDecl) : List Word :=
  .kwImport :: (if i.isStatic then [.kwStatic] else []) ++ i.path.words t
    ++ (if i.onDemand then [.dot, .star] else []) ++ [.semicolon]

/-- The words of a compilation unit. -/
def CompilationUnit.words (u : CompilationUnit) : List Word :=
  (u.package.map (PackageDecl.words t)).getD [] ++ u.imports.flatMap (ImportDecl.words t)
    ++ u.types.flatMap fun d => d.head.modifiers.flatMap Modifier.words ++ d.words t

end Words

/-- Words with blanks between them. -/
def blanked : List Word → List Char
  | [] => []
  | [w] => w.2.toList
  | w :: rest => w.2.toList ++ ' ' :: blanked rest

/-- The text of words. -/
def printed (words : List Word) : String := String.ofList (blanked words)

/-! ### Trees without places -/

mutual

/-- A written type without its places. -/
def TypeRef.bare : TypeRef → TypeRef
  | .primitive p _ => .primitive p .nowhere
  | .void _ => .void .nowhere
  | .classType segments _ => .classType (ClassSegment.bareAll segments) .nowhere
  | .array component _ => .array component.bare .nowhere
  | .wildcard _ => .wildcard .nowhere
  | .wildcardExtends bound _ => .wildcardExtends bound.bare .nowhere
  | .wildcardSuper bound _ => .wildcardSuper bound.bare .nowhere
  | .error _ => .error .nowhere

/-- Segments of a class type without their places. -/
def ClassSegment.bareAll : List ClassSegment → List ClassSegment
  | [] => []
  | .mk name args :: rest => .mk name (TypeRef.bareAll args) :: ClassSegment.bareAll rest

/-- Written types without their places. -/
def TypeRef.bareAll : List TypeRef → List TypeRef
  | [] => []
  | type :: rest => type.bare :: TypeRef.bareAll rest

end

/-- A type parameter without its places. -/
def TypeParam.bare (p : TypeParam) : TypeParam := ⟨p.name, p.bounds.map TypeRef.bare, .nowhere⟩

/-- A variable without its place. -/
def Variable.bare (v : Variable) : Variable := ⟨v.name, v.dims, .nowhere⟩

/-- A field declaration without its places. -/
def FieldDecl.bare (f : FieldDecl) : FieldDecl :=
  ⟨f.modifiers, f.type.bare, f.declarators.map Variable.bare, .nowhere⟩

/-- The head of a declaration without its places. -/
def DeclHead.bare (h : DeclHead) : DeclHead where
  kind := h.kind
  name := h.name
  nameSpan := .nowhere
  modifiers := h.modifiers
  typeParams := h.typeParams.map TypeParam.bare
  extended := h.extended.map TypeRef.bare
  implemented := h.implemented.map TypeRef.bare
  span := .nowhere

mutual

/-- A declaration without its places. -/
def TypeDecl.bare : TypeDecl → TypeDecl
  | .mk head members => .mk head.bare (Member.bareAll members)

/-- A member without its places. -/
def Member.bare : Member → Member
  | .type d => .type d.bare
  | .field f => .field f.bare
  | .constant name none _ => .constant name none .nowhere
  | .constant name (some d) _ => .constant name (some d.bare) .nowhere

/-- Members without their places. -/
def Member.bareAll : List Member → List Member
  | [] => []
  | m :: rest => m.bare :: Member.bareAll rest

end

/-- A path without its place. -/
def Path.bare (p : Path) : Path := ⟨p.segments, .nowhere⟩

/-- A `package` declaration without its places. -/
def PackageDecl.bare (p : PackageDecl) : PackageDecl := ⟨p.path.bare, .nowhere⟩

/-- An import without its places. -/
def ImportDecl.bare (i : ImportDecl) : ImportDecl :=
  ⟨i.isStatic, i.path.bare, i.onDemand, .nowhere⟩

/-- A compilation unit without its places. -/
def CompilationUnit.bare (u : CompilationUnit) : CompilationUnit where
  package := u.package.map PackageDecl.bare
  imports := u.imports.map ImportDecl.bare
  types := u.types.map TypeDecl.bare
  span := .nowhere

/-! ### The grammar of the parser -/

/-- An identifier that is no reserved word and none of the contextual ones. -/
structure IsIdentifier (text : String) : Prop where
  chars : ∃ c cs, text.toList = c :: cs ∧ isIdentStart c = true ∧ ∀ x ∈ cs, isIdentRest x = true
  free : TokenKind.ofKeyword? text = none
  plain : text ∉ ["record", "sealed", "non", "permits"]

section Surface

variable (t : NameTable)

/-- A name of a table that is an identifier. -/
def Name.Written (n : Name) : Prop := t.Issued n ∧ IsIdentifier (t.text n)

mutual

/-- A type that can be written anywhere. -/
inductive TypeRef.Surface : TypeRef → Prop
  | primitive {p : PrimitiveType} {span : Span} : TypeRef.Surface (.primitive p span)
  | void {span : Span} : TypeRef.Surface (.void span)
  | classType {segments : List ClassSegment} {span : Span} (filled : segments ≠ [])
      (names : ∀ seg ∈ segments, seg.name.Written t)
      (args : ∀ seg ∈ segments, ∀ a ∈ seg.args, TypeRef.Argument a) :
      TypeRef.Surface (.classType segments span)
  | array {component : TypeRef} {span : Span} (inner : TypeRef.Surface component) :
      TypeRef.Surface (.array component span)

/-- A type argument: such a type, or a wildcard. -/
inductive TypeRef.Argument : TypeRef → Prop
  | type {r : TypeRef} (plain : TypeRef.Surface r) : TypeRef.Argument r
  | wildcard {span : Span} : TypeRef.Argument (.wildcard span)
  | wildcardExtends {bound : TypeRef} {span : Span} (inner : TypeRef.Surface bound) :
      TypeRef.Argument (.wildcardExtends bound span)
  | wildcardSuper {bound : TypeRef} {span : Span} (inner : TypeRef.Surface bound) :
      TypeRef.Argument (.wildcardSuper bound span)

end

/-- A type parameter that can be written. -/
structure TypeParam.Surface (p : TypeParam) : Prop where
  name : p.name.Written t
  bounds : ∀ b ∈ p.bounds, b.Surface t

/-- A modifier that needs a declaration to go on after it. -/
def Modifier.isContextual (m : Modifier) : Bool := m = .sealed || m = .nonSealed

/-- A field declaration that can be written. -/
structure FieldDecl.Surface (f : FieldDecl) : Prop where
  modifiers : f.modifiers.Nodup
  plain : ∀ m ∈ f.modifiers, m.isContextual = false
  type : f.type.Surface t
  filled : f.declarators ≠ []
  names : ∀ v ∈ f.declarators, v.name.Written t

/-- The head of a declaration that can be written. -/
structure DeclHead.Surface (h : DeclHead) : Prop where
  name : ∃ n, h.name = some n ∧ n.Written t
  modifiers : h.modifiers.Nodup
  contextual : (h.modifiers.filter Modifier.isContextual).length ≤ 1
  sealing : ∀ m ∈ h.modifiers, m.isContextual = true →
    h.kind = .classType ∨ h.kind = .interfaceType ∨ h.kind = .annotationType
  typeParams : ∀ p ∈ h.typeParams, p.Surface t
  extended : ∀ r ∈ h.extended, r.Surface t
  implemented : ∀ r ∈ h.implemented, r.Surface t
  extending : match h.kind with
    | .classType => h.extended.length ≤ 1
    | .interfaceType => True
    | _ => h.extended = []
  implementing : h.kind = .interfaceType ∨ h.kind = .annotationType → h.implemented = []

/-- The head of the body of an enum constant. -/
structure DeclHead.Nameless (h : DeclHead) : Prop where
  kind : h.kind = .classType
  name : h.name = none
  modifiers : h.modifiers = []
  typeParams : h.typeParams = []
  extended : h.extended = []
  implemented : h.implemented = []

/-- Enum constants stand in enums only, before the other members. -/
def ConstantsFirst (kind : DeclKind) (members : List Member) : Prop :=
  ∀ m ∈ (if kind = .enumType then members.dropWhile Member.isConstant else members),
    m.isConstant = false

mutual

/-- A declaration that can be written. -/
inductive TypeDecl.Surface : TypeDecl → Prop
  | mk {head : DeclHead} {members : List Member} (header : head.Surface t)
      (constants : ConstantsFirst head.kind members)
      (body : ∀ m ∈ members, Member.Surface m) : TypeDecl.Surface (.mk head members)

/-- A member that can be written. -/
inductive Member.Surface : Member → Prop
  | type {d : TypeDecl} (decl : TypeDecl.Surface d) : Member.Surface (.type d)
  | field {f : FieldDecl} (decl : f.Surface t) : Member.Surface (.field f)
  | constant {name : Name} {span : Span} (named : name.Written t) :
      Member.Surface (.constant name none span)
  | withBody {name : Name} {head : DeclHead} {members : List Member} {span : Span}
      (named : name.Written t) (header : head.Nameless)
      (constants : ConstantsFirst .classType members) (body : ∀ m ∈ members, Member.Surface m) :
      Member.Surface (.constant name (some (.mk head members)) span)

end

/-- A path that can be written. -/
structure Path.Surface (p : Path) : Prop where
  filled : p.segments ≠ []
  names : ∀ n ∈ p.segments, n.Written t

/-- A compilation unit that can be written. -/
structure CompilationUnit.Surface (u : CompilationUnit) : Prop where
  package : ∀ p ∈ u.package, p.path.Surface t
  imports : ∀ i ∈ u.imports, i.path.Surface t
  types : ∀ d ∈ u.types, d.Surface t

end Surface

end JavaAbi
