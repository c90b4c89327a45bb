import JavaAbi.Syntax.Parser.Types

namespace JavaAbi.Parser

/-!
# Declarations

Type declarations and their members. Methods, constructors and initializers are stepped over: after
the modifiers, a type, an identifier and `(` are a method, an identifier and `(` a constructor, and
all else that starts with a type is a field.

* `Parser.modifiers` — modifiers, with `sealed` and `non-sealed` where a declaration goes on;
* `Parser.field` — the variables of a field declaration, initializers stepped over;
* `Parser.typeDecl` — a declaration from its keyword on.
-/

/-! ### Modifiers -/

/-- The modifier that a keyword writes. -/
def modifier? : TokenKind → Option Modifier
  | .kwPublic => some .publicAccess
  | .kwProtected => some .protectedAccess
  | .kwPrivate => some .privateAccess
  | .kwAbstract => some .abstract
  | .kwStatic => some .static
  | .kwFinal => some .final
  | .kwTransient => some .transient
  | .kwVolatile => some .volatile
  | .kwSynchronized => some .synchronized
  | .kwNative => some .native
  | .kwStrictfp => some .strictfp
  | .kwDefault => some .default
  | _ => none

/-- Whether a declaration goes on with a token of this kind after a contextual modifier. -/
def continuesDeclaration (k : TokenKind) : Bool :=
  k.isModifier || k = .kwClass || k = .kwInterface || k = .atSign

/-- The modifier that stands here, and the number of its tokens. -/
def currentModifier? (s : ParserState) : Option (Modifier × Nat) :=
  match modifier? s.current.kind with
  | some m => some (m, 1)
  | none =>
    if s.current.kind ≠ .identifier then none
    -- Elsewhere `sealed` and `non` are names, so what follows decides.
    else if s.current.text == "sealed" && continuesDeclaration (s.peek 1) then some (.sealed, 1)
    else if s.current.text == "non" && s.peek 1 = .minus && s.peekText 2 == "sealed"
        && continuesDeclaration (s.peek 3) then some (.nonSealed, 3)
    else none

/-- Adds a modifier at the end, once. -/
def addModifier (m : Modifier) (ms : List Modifier) : List Modifier :=
  if ms.contains m then ms else ms ++ [m]

/-- Modifiers after those found so far; annotations between them are skipped. -/
def modifiersAfter : Nat → List Modifier → Parser (List Modifier)
  | 0, found => cutOff found
  | fuel + 1, found => do
    if ← isAtAnnotation then
      skipAnnotation
      modifiersAfter fuel found
    else
      match currentModifier? (← state) with
      | none => return found
      | some (m, tokens) =>
        advanceBy tokens
        modifiersAfter fuel (addModifier m found)

/-- The modifiers that stand here, without repetition, in the order of first appearance. -/
def modifiers : Parser (List Modifier) := do modifiersAfter (← state).remaining []

/-! ### Recovery and skipped code -/

/-- Whether a type declaration starts here. The word `record` starts one before a name and its
    components or type parameters. -/
def startsDeclaration (s : ParserState) : Bool :=
  match s.current.kind with
  | .kwClass | .kwInterface | .kwEnum => true
  | .atSign => s.peek 1 = .kwInterface
  | .identifier =>
    s.current.text == "record" && s.peek 1 = .identifier
      && (s.peek 2 = .leftParen || s.peek 2 = .less)
  | _ => false

/-- Steps to the end of a member: past the next `;` or group in braces, and not past the brace that
    closes the body. -/
def recoverMember : Nat → Parser Unit
  | 0 => cutOff ()
  | fuel + 1 => do
    match ← kind with
    | .eof | .rightBrace => return
    | .semicolon => advance
    | .leftBrace => skipBraces
    -- A `;` in parentheses does not end the member.
    | .leftParen =>
      skipParens
      recoverMember fuel
    | _ =>
      advance
      recoverMember fuel

/-- Whether `,` and the next variable of a field stand here. -/
def separatesVariables (s : ParserState) : Bool :=
  s.peek 1 = .identifier
    && (s.peek 2 = .assign || s.peek 2 = .comma || s.peek 2 = .semicolon || s.peek 2 = .leftBracket)

/-- Steps over an expression, up to a `;` or a `,` before the next variable outside brackets of any
    kind, or to a closing bracket that it does not open. -/
def skipExpression : Nat → Nat → Parser Unit
  | 0, _ => cutOff ()
  | fuel + 1, depth => do
    match ← kind with
    | .eof => return
    | .leftParen | .leftBrace | .leftBracket =>
      advance
      skipExpression fuel (depth + 1)
    | .rightParen | .rightBrace | .rightBracket =>
      match depth with
      -- This bracket was opened before the expression, so it ends it.
      | 0 => return
      | depth + 1 =>
        advance
        skipExpression fuel depth
    | .semicolon =>
      if depth = 0 then
        return
      advance
      skipExpression fuel depth
    | .comma =>
      -- A comma also stands between type arguments, where no bracket is counted.
      if depth = 0 && separatesVariables (← state) then
        return
      advance
      skipExpression fuel depth
    | _ =>
      advance
      skipExpression fuel depth

/-- Steps over the rest of a method or constructor, through its body or `;`. -/
def skipMethod : Nat → Parser Unit
  | 0 => cutOff ()
  | fuel + 1 => do
    match ← kind with
    | .leftParen =>
      skipParens
      skipMethod fuel
    | .leftBrace => skipBraces
    | .semicolon => advance
    -- The value of a member of an annotation type.
    | .kwDefault =>
      advance
      skipExpression (← state).remaining 0
      expect .semicolon
    | .eof | .rightBrace => expected "method body or `;`"
    | _ =>
      advance
      skipMethod fuel

/-! ### Fields -/

/-- Counts the `[]` that follow. -/
def dimensions : Nat → Parser Nat
  | 0 => cutOff 0
  | fuel + 1 => do
    if ← isAtDimension then
      advance
      advance
      return (← dimensions fuel) + 1
    else
      return 0

/-- Steps over the initializer of a variable, if there is one. -/
def skipInitializer : Parser Unit := do
  if ← eat .assign then
    skipExpression (← state).remaining 0

/-- The variables of a field, between commas. -/
def declarators : Nat → Parser (List Variable)
  | 0 => cutOff []
  | fuel + 1 => do
    let span ← currentSpan
    let name ← identifier
    let dims ← dimensions (← state).remaining
    skipInitializer
    if ← eat .comma then
      return ⟨name, dims, span⟩ :: (← declarators fuel)
    else
      return [⟨name, dims, span⟩]

/-- Steps over the `;` of a field declaration, or to where the next member can start. -/
def endField : Parser Unit := do
  unless ← eat .semicolon do
    -- The field is kept, whatever follows it.
    expected "`;` after field declaration"
    recoverMember (← state).remaining

/-- A field declaration from its first variable on. -/
def field (start : Span) (modifiers : List Modifier) (type : TypeRef) : Parser FieldDecl := do
  let vars ← declarators ((← state).remaining + 1)
  endField
  return ⟨modifiers, type, vars, ← spanFrom start⟩

/-- The type of a record component; `...` makes it an array. -/
def componentType (start : Span) : Parser TypeRef := do
  let plain ← type
  if ← eat .ellipsis then
    return .array plain (← spanFrom start)
  else
    return plain

/-- A component of a record: a private final field. -/
def component : Parser FieldDecl := do
  let start ← currentSpan
  skipAnnotations
  let type ← componentType start
  let nameSpan ← currentSpan
  let name ← identifier
  return ⟨[.privateAccess, .final], type, [⟨name, 0, nameSpan⟩], ← spanFrom start⟩

/-- The components of a record, between commas. -/
def componentList : Nat → Parser (List FieldDecl)
  | 0 => cutOff []
  | fuel + 1 => do
    if (← isAt .rightParen) || (← isAt .eof) then
      return []
    let component ← component
    if ← eat .comma then
      return component :: (← componentList fuel)
    else
      return [component]

/-- The components of a record in parentheses. -/
def components : Parser (List FieldDecl) := do
  expect .leftParen
  let fields ← componentList (← state).remaining
  expect .rightParen
  return fields

/-! ### Headers -/

/-- The kind of the declaration that starts here, its keyword consumed. -/
def declKeyword : Parser DeclKind := do
  let k ← kind
  -- An annotation type has two tokens: `@` and `interface`.
  if k = .atSign then
    advance
  advance
  return match k with
    | .kwClass => .classType
    | .kwInterface => .interfaceType
    | .kwEnum => .enumType
    | .atSign => .annotationType
    | _ => .recordType

/-- The `extends` clause of a declaration of kind `k`. -/
def extendsClause (k : DeclKind) : Parser (List TypeRef) := do
  if ← eat .kwExtends then
    match k with
    | .classType => return [← type]
    | .interfaceType => typeList
    | _ =>
      error "only classes and interfaces may have an `extends` clause"
      -- What is written is read, so that the body is found, and dropped.
      let _ ← typeList
      return []
  else
    return []

/-- Reports an `implements` clause where a declaration of kind `k` may have none. -/
def checkImplements (k : DeclKind) : Parser Unit := do
  if k = .interfaceType || k = .annotationType then
    error "interfaces cannot have an `implements` clause"

/-- The `implements` clause of a declaration of kind `k`. -/
def implementsClause (k : DeclKind) : Parser (List TypeRef) := do
  if ← eat .kwImplements then
    let types ← typeList
    checkImplements k
    return types
  else
    return []

/-- Steps over a `permits` clause. -/
def permitsClause : Parser Unit := do
  if ← isAtWord "permits" then
    advance
    let _ ← typeList

/-! ### Bodies -/

/-- A field, or a method that is stepped over, from its type on. -/
def fieldOrMethod (start : Span) (ms : List Modifier) : Parser (Option Member) := do
  let t ← type
  if t.isError then
    recoverMember (← state).remaining
    return none
  else if (← isAt .identifier) && (← peek 1) = .leftParen then
    skipMethod (← state).remaining
    return none
  else
    return some (.field (← field start ms t))

/-- A member that is no type, from the end of its modifiers on. Methods and constructors are stepped
    over. -/
def plainMember (start : Span) (ms : List Modifier) : Parser (Option Member) := do
  let s ← state
  -- A generic method or constructor.
  if s.current.kind = .less then
    skipBalanced .less .greater
    skipMethod (← state).remaining
    return none
  -- A constructor; then a compact one, which a record may have.
  else if s.current.kind = .identifier && s.peek 1 = .leftParen then
    skipMethod s.remaining
    return none
  else if s.current.kind = .identifier && s.peek 1 = .leftBrace then
    advance
    skipBraces
    return none
  else
    fieldOrMethod start ms

/-- Consumes a token if `before` tokens are still left. -/
def moveOn (before : Nat) : Parser Unit := do
  if (← state).remaining = before then
    advance

/-- The members of an enum after its constants; `others` parses them. -/
def afterConstants (others : Parser (List Member)) : Parser (List Member) := do
  if ← eat .semicolon then
    others
  else if ← isAt .rightBrace then
    return []
  else
    expected "`,`, `;` or `\x7d` in enum body"
    others

mutual

/-- A declaration from its keyword on; `start` is where its modifiers start. -/
def declWithin (modifiers : List Modifier) (start : Span) : Nat → Parser TypeDecl
  | 0 => cutOff default
  | fuel + 1 => do
    let kind ← declKeyword
    let nameSpan ← currentSpan
    let name ← identifier
    let params ← optionalTypeParams
    let fields ← if kind = .recordType then components else pure []
    let extended ← extendsClause kind
    let implemented ← implementsClause kind
    permitsClause
    let body ← if kind = .enumType then enumBody fuel else classBody fuel
    let span ← spanFrom start
    return .mk ⟨kind, some name, nameSpan, modifiers, params, extended, implemented, span⟩
      (fields.map Member.field ++ body)

/-- Members in braces. -/
def classBody : Nat → Parser (List Member)
  | 0 => cutOff []
  | fuel + 1 => do
    expect .leftBrace
    let found ← members fuel
    expect .rightBrace
    return found

/-- Members up to the closing brace. A member that consumes nothing costs the token at hand. -/
def members : Nat → Parser (List Member)
  | 0 => cutOff []
  | fuel + 1 => do
    if (← isAt .rightBrace) || (← isAt .eof) then
      return []
    let before ← state
    let found ← member fuel
    moveOn before.remaining
    return found.toList ++ (← members fuel)

/-- A member, if it is one that a stub can show. -/
def member : Nat → Parser (Option Member)
  | 0 => cutOff none
  | fuel + 1 => do
    let s ← state
    if s.current.kind = .semicolon then
      advance
      return none
    -- Initializers, of instances and static ones.
    else if s.current.kind = .leftBrace then
      skipBraces
      return none
    else if s.current.kind = .kwStatic && s.peek 1 = .leftBrace then
      advance
      skipBraces
      return none
    else
      let start ← currentSpan
      let ms ← modifiers
      if startsDeclaration (← state) then
        return some (.type (← declWithin ms start fuel))
      else
        plainMember start ms

/-- The constants of an enum in braces, then its other members after `;`. -/
def enumBody : Nat → Parser (List Member)
  | 0 => cutOff []
  | fuel + 1 => do
    expect .leftBrace
    let constants ← enumConstants fuel
    let others ← afterConstants (members fuel)
    expect .rightBrace
    return constants ++ others

/-- Enum constants between commas; a comma may follow the last. -/
def enumConstants : Nat → Parser (List Member)
  | 0 => cutOff []
  | fuel + 1 => do
    skipAnnotations
    unless ← isAt .identifier do
      return []
    let constant ← enumConstant fuel
    if ← eat .comma then
      return constant :: (← enumConstants fuel)
    else
      return [constant]

/-- An enum constant; its arguments are stepped over, its body is a nameless class. -/
def enumConstant : Nat → Parser Member
  | 0 => cutOff default
  | fuel + 1 => do
    let start ← currentSpan
    let name ← identifier
    skipArguments
    let bodyStart ← currentSpan
    if ← isAt .leftBrace then
      let found ← classBody fuel
      -- The header of a body stands where the body does, and has nothing else.
      let head : DeclHead := ⟨.classType, none, bodyStart, [], [], [], [], ← spanFrom bodyStart⟩
      return .constant name (some (.mk head found)) (← spanFrom start)
    else
      return .constant name none (← spanFrom start)

end

/-- A declaration from its keyword on. -/
def typeDecl (modifiers : List Modifier) (start : Span) : Parser TypeDecl := do
  declWithin modifiers start (← steps)

end JavaAbi.Parser
