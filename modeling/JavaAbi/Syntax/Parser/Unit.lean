import JavaAbi.Syntax.Lexer
import JavaAbi.Syntax.Parser.Declarations
import JavaAbi.Text.Source

namespace JavaAbi

/-!
# Compilation units

* `Parser.unit` — a whole file;
* `parse` — the tree of a text with its diagnostics, lexical errors first;
* `parseBatch` — the trees of several files, which share a name table.
-/

namespace Parser

/-- A `package` declaration. -/
def packageDecl : Parser PackageDecl := do
  let start ← currentSpan
  expect .kwPackage
  let p ← path
  expect .semicolon
  return ⟨p, ← spanFrom start⟩

/-- The `package` declaration after annotations, if there is one. -/
def packageHeader : Parser (Option PackageDecl) := do
  skipAnnotations
  if ← isAt .kwPackage then
    return some (← packageDecl)
  else
    return none

/-- The further segments of an import, and whether it ends in `.*`. -/
def importSegments : Nat → Parser (List Name × Bool)
  | 0 => cutOff ([], false)
  | fuel + 1 => do
    unless ← isAt .dot do
      return ([], false)
    let s ← state
    if s.peek 1 = .identifier then
      advance
      let n ← identifier
      let (rest, onDemand) ← importSegments fuel
      return (n :: rest, onDemand)
    else if s.peek 1 = .operator && s.peekText 1 == "*" then
      advance
      advance
      return ([], true)
    else
      advance
      -- The dot is consumed, and the `;` looked for behind it.
      expected "identifier or `*`"
      return ([], false)

/-- An `import` declaration. -/
def importDecl : Parser ImportDecl := do
  let start ← currentSpan
  expect .kwImport
  let isStatic ← eat .kwStatic
  let pathStart ← currentSpan
  let first ← identifier
  let (rest, onDemand) ← importSegments (← state).remaining
  let p : Path := ⟨first :: rest, ← spanFrom pathStart⟩
  expect .semicolon
  return ⟨isStatic, p, onDemand, ← spanFrom start⟩

/-- All imports that stand here. -/
def imports : Nat → Parser (List ImportDecl)
  | 0 => cutOff []
  | fuel + 1 => do
    if ← isAt .kwImport then
      let i ← importDecl
      return i :: (← imports fuel)
    else
      return []

/-- Steps past the next `;`, or to what can start a declaration. -/
def recoverDeclaration : Nat → Parser Unit
  | 0 => cutOff ()
  | fuel + 1 => do
    if ← isAt .eof then
      return
    if ← eat .semicolon then
      return
    let s ← state
    if startsDeclaration s || s.current.kind.isModifier || s.current.kind = .atSign then
      return
    advance
    recoverDeclaration fuel

/-- The top-level declarations up to the end of the file. Where none starts, an error is reported
    and at least one token is stepped over. -/
def topLevel : Nat → Parser (List TypeDecl)
  | 0 => cutOff []
  | fuel + 1 => do
    if ← isAt .eof then
      return []
    if ← eat .semicolon then
      topLevel fuel
    else
      let start ← currentSpan
      let ms ← modifiers
      if startsDeclaration (← state) then
        let d ← typeDecl ms start
        return d :: (← topLevel fuel)
      else
        -- Modifiers that no declaration follows are lost.
        expected "class, interface, enum, record or annotation type declaration"
        advance
        recoverDeclaration (← state).remaining
        topLevel fuel

/-- A whole file. Annotations may precede `package`; without one they belong to the first
    declaration and are read again. -/
def unit : Parser CompilationUnit := do
  let before ← state
  let package ← orBack packageHeader
  let imported ← imports (← state).remaining
  let types ← topLevel (← state).remaining
  return ⟨package, imported, types, before.current.span.cover (← currentSpan)⟩

end Parser

/-- The state before the first token of a text. -/
def ParserState.start (file : Nat) (source : String) (names : NameTable) : ParserState where
  tokens := (lex file source).1
  names := names
  words t ht hk := text_ne_empty_of_mem_lex ht (by rw [hk]; decide)

/-- The tree of a text, the names interned on the way, and the diagnostics: lexical errors in order,
    then syntax errors in order. -/
def parse (file : Nat) (source : String) (names : NameTable) :
    CompilationUnit × NameTable × List Diagnostic :=
  let (unit, s) := Parser.unit.run (.start file source names)
  (unit, s.names, (lex file source).2 ++ s.errors.toList)

/-- The trees of files, parsed in order into one name table, and their diagnostics. The first file
    has the number `file`. -/
def parseFrom (file : Nat) (names : NameTable) :
    List SourceFile → List CompilationUnit × NameTable × List Diagnostic
  | [] => ([], names, [])
  | f :: rest =>
    let (unit, names, errors) := parse file f.content names
    let (units, names, more) := parseFrom (file + 1) names rest
    (unit :: units, names, errors ++ more)

/-- The trees of the files of a batch. -/
def parseBatch (b : Batch) : List CompilationUnit × NameTable × List Diagnostic :=
  parseFrom 0 .fresh b.toList

end JavaAbi
