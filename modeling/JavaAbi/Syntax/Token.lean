import JavaAbi.Text.Span

namespace JavaAbi

/-!
# Tokens

Only the words that shape declarations are keywords. Statement keywords and contextual words such
as `record` and `sealed` are identifiers, and an operator of several characters is a run of
`operator` tokens, `>` being always alone so that nested type arguments close.

* `TokenKind.label` — the name of a kind, as syntax errors write it;
* `TokenKind.ofKeyword?` — the kind of a reserved word.
-/

/-- The kind of a token. -/
inductive TokenKind where
  | kwPackage | kwImport | kwClass | kwInterface | kwEnum | kwExtends | kwImplements | kwSuper
  | kwPublic | kwProtected | kwPrivate | kwStatic | kwAbstract | kwFinal | kwNative
  | kwSynchronized | kwTransient | kwVolatile | kwStrictfp | kwDefault
  | kwBoolean | kwByte | kwShort | kwInt | kwLong | kwChar | kwFloat | kwDouble | kwVoid
  | leftBrace | rightBrace | leftParen | rightParen | leftBracket | rightBracket
  | semicolon | comma | dot | ellipsis | atSign | question | less | greater | ampersand
  | assign | minus | operator
  | identifier | numberLiteral | charLiteral | stringLiteral
  | error | eof
  deriving DecidableEq, Inhabited, Repr

namespace TokenKind

/-- The name of a kind. -/
def label : TokenKind → String
  | kwPackage => "Package" | kwImport => "Import" | kwClass => "Class"
  | kwInterface => "Interface" | kwEnum => "Enum" | kwExtends => "Extends"
  | kwImplements => "Implements" | kwSuper => "Super" | kwPublic => "Public"
  | kwProtected => "Protected" | kwPrivate => "Private" | kwStatic => "Static"
  | kwAbstract => "Abstract" | kwFinal => "Final" | kwNative => "Native"
  | kwSynchronized => "Synchronized" | kwTransient => "Transient" | kwVolatile => "Volatile"
  | kwStrictfp => "Strictfp" | kwDefault => "Default" | kwBoolean => "Boolean"
  | kwByte => "Byte" | kwShort => "Short" | kwInt => "Int" | kwLong => "Long"
  | kwChar => "Char" | kwFloat => "Float" | kwDouble => "Double" | kwVoid => "Void"
  | leftBrace => "LeftBrace" | rightBrace => "RightBrace" | leftParen => "LeftParen"
  | rightParen => "RightParen" | leftBracket => "LeftBracket" | rightBracket => "RightBracket"
  | semicolon => "Semicolon" | comma => "Comma" | dot => "Dot" | ellipsis => "Ellipsis"
  | atSign => "At" | question => "Question" | less => "Less" | greater => "Greater"
  | ampersand => "Ampersand" | assign => "Assign" | minus => "Minus" | operator => "Operator"
  | identifier => "Identifier" | numberLiteral => "NumberLiteral" | charLiteral => "CharLiteral"
  | stringLiteral => "StringLiteral" | error => "Error" | eof => "Eof"

/-- The reserved words. -/
def keywords : List (String × TokenKind) :=
  [("package", kwPackage), ("import", kwImport), ("class", kwClass), ("interface", kwInterface),
   ("enum", kwEnum), ("extends", kwExtends), ("implements", kwImplements), ("super", kwSuper),
   ("public", kwPublic), ("protected", kwProtected), ("private", kwPrivate),
   ("static", kwStatic), ("abstract", kwAbstract), ("final", kwFinal), ("native", kwNative),
   ("synchronized", kwSynchronized), ("transient", kwTransient), ("volatile", kwVolatile),
   ("strictfp", kwStrictfp), ("default", kwDefault), ("boolean", kwBoolean), ("byte", kwByte),
   ("short", kwShort), ("int", kwInt), ("long", kwLong), ("char", kwChar), ("float", kwFloat),
   ("double", kwDouble), ("void", kwVoid)]

/-- The kind of a reserved word. -/
def ofKeyword? (word : String) : Option TokenKind := keywords.lookup word

/-- Keywords that are declaration modifiers. -/
def isModifier : TokenKind → Bool
  | kwPublic | kwProtected | kwPrivate | kwStatic | kwAbstract | kwFinal | kwNative
  | kwSynchronized | kwTransient | kwVolatile | kwStrictfp | kwDefault => true
  | _ => false

/-- Keywords of primitive types; `void` is none. -/
def isPrimitive : TokenKind → Bool
  | kwBoolean | kwByte | kwShort | kwInt | kwLong | kwChar | kwFloat | kwDouble => true
  | _ => false

end TokenKind

/-- A token: its kind, the text it covers, and where. -/
structure Token where
  kind : TokenKind
  text : String
  span : Span
  deriving DecidableEq, Inhabited, Repr

end JavaAbi
