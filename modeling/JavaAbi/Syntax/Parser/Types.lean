import JavaAbi.Syntax.Parser.Basic

namespace JavaAbi.Parser

/-!
# Written types

* `Parser.type` — a primitive type, `void` or a class type, with the dimensions after it;
* `Parser.typeParams` — the type parameters of a declaration;
* `Parser.typeList` — types between commas.

The recursive functions carry a bound that the number of tokens left determines; each token consumed
pays for at most `steps` calls.
-/

/-- The primitive type that a keyword writes. -/
def primitive? : TokenKind → Option PrimitiveType
  | .kwBoolean => some .boolean
  | .kwByte => some .byte
  | .kwShort => some .short
  | .kwInt => some .int
  | .kwLong => some .long
  | .kwChar => some .char
  | .kwFloat => some .float
  | .kwDouble => some .double
  | _ => none

/-- A bound on the depth of calls that the tokens left can pay for. -/
def steps : Parser Nat := return 5 * (← state).remaining + 5

/-- Whether `[]` stands here. -/
def isAtDimension : Parser Bool :=
  return (← kind) = .leftBracket && (← peek 1) = .rightBracket

/-- Wraps a type in one array for each `[]` that follows. -/
def arrayOf (start : Span) : Nat → TypeRef → Parser TypeRef
  | 0, type => cutOff type
  | fuel + 1, type => do
    if ← isAtDimension then
      advance
      advance
      arrayOf start fuel (.array type (← spanFrom start))
    else
      return type

mutual

/-- A type. Annotations before it are skipped; where no type stands an error type is the answer and
    nothing more is consumed. -/
def typeWithin : Nat → Parser TypeRef
  | 0 => do cutOff (.error (← currentSpan))
  | fuel + 1 => do
    skipAnnotations
    let start ← currentSpan
    let k ← kind
    if k = .identifier then
      let segments ← classSegments fuel
      arrayOf start (← state).remaining (.classType segments (← spanFrom start))
    else if k = .kwVoid then
      advance
      arrayOf start (← state).remaining (.void start)
    else
      match primitive? k with
      | some p =>
        advance
        arrayOf start (← state).remaining (.primitive p start)
      | none =>
        expected "type"
        return .error start

/-- The path of a class type, each segment with its type arguments. -/
def classSegments : Nat → Parser (List ClassSegment)
  | 0 => cutOff []
  | fuel + 1 => do
    let name ← identifier
    let args ← if ← isAt .less then typeArgs fuel else pure []
    -- A dot that no name follows does not belong to the type.
    let next ← peek 1
    if (← isAt .dot) && (next = .identifier || next = .atSign) then
      advance
      skipAnnotations
      return .mk name args :: (← classSegments fuel)
    else
      return [.mk name args]

/-- Type arguments in angle brackets; `<>` has none. -/
def typeArgs : Nat → Parser (List TypeRef)
  | 0 => cutOff []
  | fuel + 1 => do
    expect .less
    if ← eat .greater then
      return []
    let args ← typeArgList fuel
    expect .greater
    return args

/-- Type arguments between commas. -/
def typeArgList : Nat → Parser (List TypeRef)
  | 0 => cutOff []
  | fuel + 1 => do
    let arg ← typeArg fuel
    if ← eat .comma then
      return arg :: (← typeArgList fuel)
    else
      return [arg]

/-- A type argument: a type or a wildcard. -/
def typeArg : Nat → Parser TypeRef
  | 0 => do cutOff (.error (← currentSpan))
  | fuel + 1 => do
    skipAnnotations
    let start ← currentSpan
    if ← eat .question then
      if ← eat .kwExtends then
        let bound ← typeWithin fuel
        return .wildcardExtends bound (← spanFrom start)
      else if ← eat .kwSuper then
        let bound ← typeWithin fuel
        return .wildcardSuper bound (← spanFrom start)
      else
        return .wildcard (← spanFrom start)
    else
      typeWithin fuel

end

/-- A type. -/
def type : Parser TypeRef := do typeWithin (← steps)

/-- Types between separators of kind `separator`, `fuel` of them at most. -/
def typesBetween (separator : TokenKind) : Nat → Parser (List TypeRef)
  | 0 => cutOff []
  | fuel + 1 => do
    let first ← type
    if ← eat separator then
      return first :: (← typesBetween separator fuel)
    else
      return [first]

/-- One or more types between commas. -/
def typeList : Parser (List TypeRef) := do typesBetween .comma (← state).remaining

/-- One or more bounds of a type parameter. -/
def boundList : Parser (List TypeRef) := do typesBetween .ampersand (← state).remaining

/-- A type parameter. -/
def typeParam : Parser TypeParam := do
  skipAnnotations
  let start ← currentSpan
  let name ← identifier
  let bounds ← if ← eat .kwExtends then boundList else pure []
  return ⟨name, bounds, ← spanFrom start⟩

/-- Type parameters between commas. -/
def typeParamList : Nat → Parser (List TypeParam)
  | 0 => cutOff []
  | fuel + 1 => do
    let param ← typeParam
    if ← eat .comma then
      return param :: (← typeParamList fuel)
    else
      return [param]

/-- Type parameters in angle brackets. -/
def typeParams : Parser (List TypeParam) := do
  expect .less
  let params ← typeParamList ((← state).remaining + 1)
  expect .greater
  return params

/-- The type parameters that stand here, if any. -/
def optionalTypeParams : Parser (List TypeParam) := do
  if ← isAt .less then
    typeParams
  else
    return []

end JavaAbi.Parser
