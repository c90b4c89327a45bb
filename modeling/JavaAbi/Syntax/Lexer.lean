import JavaAbi.Diagnostics.Basic
import JavaAbi.Syntax.Token
import JavaAbi.Text.Bytes

namespace JavaAbi

/-!
# Lexing

A text is cut into lexemes: blanks, comments and tokens, each of at least one character, whose
texts in order are the text itself. Tokens and diagnostics are read off that list.

* `Lexeme.next` — the kind of the lexeme that starts a text, and its length;
* `Lexeme.all` — the lexemes of a text;
* `lex` — the tokens of a text, ending in the only `eof`, and the lexical errors in order.

Literals are recognised only as far as is needed to step over them.
-/

/-- What can be wrong with a lexeme. -/
inductive LexicalFault where
  | unclosedComment
  | unclosedTextBlock
  | unclosedString
  | unclosedCharacter
  | unexpectedCharacter
  deriving DecidableEq, Inhabited, Repr

/-- The message of a lexical fault. -/
def LexicalFault.message : LexicalFault → String
  | .unclosedComment => "unterminated block comment"
  | .unclosedTextBlock => "unterminated text block"
  | .unclosedString => "unterminated string literal"
  | .unclosedCharacter => "unterminated character literal"
  | .unexpectedCharacter => "unexpected character"

/-- What a lexeme is. -/
inductive LexemeKind where
  | blank
  | comment
  | token (kind : TokenKind)
  | fault (fault : LexicalFault)
  deriving DecidableEq, Inhabited, Repr

/-- The token that a lexeme stands for: a faulty one other than a comment is an `error` token. -/
def LexemeKind.token? : LexemeKind → Option TokenKind
  | .blank | .comment | .fault .unclosedComment => none
  | .token k => some k
  | .fault _ => some .error

/-! ### Character classes -/

/-- ASCII blanks: space, tab, line feed, form feed and carriage return. -/
def isBlank (c : Char) : Bool :=
  c = ' ' || c = '\t' || c = '\n' || c = '\x0c' || c = '\x0d'

/-- Characters that start an identifier; all beyond ASCII do. -/
def isIdentStart (c : Char) : Bool := c.isAlpha || c = '_' || c = '$' || 0x80 ≤ c.toNat

/-- Characters that continue an identifier. -/
def isIdentRest (c : Char) : Bool := isIdentStart c || c.isDigit

/-! ### Lengths of lexemes

Each function takes what follows the opening characters and counts the characters that still belong
to the lexeme. -/

/-- Up to and with the `*/` that closes a block comment. -/
def commentLength? : List Char → Option Nat
  | [] => none
  | '*' :: '/' :: _ => some 2
  | _ :: rest => (commentLength? rest).map (· + 1)

/-- Digits, letters, underscores, fraction points and signed exponents of a number. A point before
    another point ends the number; in a hexadecimal one the exponent letter is `p`. -/
def numberLength (hex : Bool) : List Char → Nat
  | [] => 0
  | c :: rest =>
    if c.isAlphanum || c = '_' then
      if (if hex then c = 'p' || c = 'P' else c = 'e' || c = 'E') then
        match rest with
        | [] => 1
        -- A sign belongs to the number only behind the letter of an exponent.
        | s :: rest =>
          if s = '+' || s = '-' then numberLength hex rest + 2
          else numberLength hex (s :: rest) + 1
      else numberLength hex rest + 1
    else if c = '.' && rest.head? ≠ some '.' then numberLength hex rest + 1
    else 0

/-- Up to and with the closing quote, and whether there is one before the end of the line. -/
def quotedLength (quote : Char) : List Char → Nat × Bool
  | [] => (0, false)
  | c :: rest =>
    -- The escaped character is counted, be it a quote or the end of the line.
    if c = '\\' then
      match rest with
      | [] => (1, false)
      | _ :: rest => let (n, closed) := quotedLength quote rest; (n + 2, closed)
    else if c = '\n' then (0, false)
    else if c = quote then (1, true)
    else let (n, closed) := quotedLength quote rest; (n + 1, closed)

/-- Up to and with the closing `"""` of a text block, and whether there is one. -/
def textBlockLength : List Char → Nat × Bool
  | [] => (0, false)
  | '\\' :: [] => (1, false)
  | '\\' :: _ :: rest => let (n, closed) := textBlockLength rest; (n + 2, closed)
  | '"' :: '"' :: '"' :: _ => (3, true)
  | _ :: rest => let (n, closed) := textBlockLength rest; (n + 1, closed)

/-- The kind of a one-character token. -/
def punctuation? (c : Char) : Option TokenKind :=
  match c with
  | '{' => some .leftBrace
  | '}' => some .rightBrace
  | '(' => some .leftParen
  | ')' => some .rightParen
  | '[' => some .leftBracket
  | ']' => some .rightBracket
  | ';' => some .semicolon
  | ',' => some .comma
  | '.' => some .dot
  | '@' => some .atSign
  | '?' => some .question
  | '<' => some .less
  | '>' => some .greater
  | '&' => some .ampersand
  | '=' => some .assign
  | '-' => some .minus
  | '+' | '*' | '/' | '%' | '!' | '~' | '|' | '^' | ':' => some .operator
  | _ => none

/-! ### Lexemes -/

/-- A lexeme: its characters and the byte offset at which it starts. -/
structure Lexeme where
  kind : LexemeKind
  chars : List Char
  start : Nat
  deriving DecidableEq, Inhabited, Repr

namespace Lexeme

/-- A token when the literal is closed, a fault otherwise. -/
def literal (kind : TokenKind) (fault : LexicalFault) (length : Nat × Bool) : LexemeKind × Nat :=
  (if length.2 then .token kind else .fault fault, length.1)

/-- The lexeme that starts with `c`, when `rest` follows: its kind, and the number of characters
    of `rest` that belong to it. -/
def next (c : Char) (rest : List Char) : LexemeKind × Nat :=
  if isBlank c then (.blank, (rest.takeWhile isBlank).length)
  else if isIdentStart c then
    let word := rest.takeWhile isIdentRest
    (.token ((TokenKind.ofKeyword? (String.ofList (c :: word))).getD .identifier), word.length)
  else if c.isDigit then
    (.token .numberLiteral,
      numberLength (c = '0' && (rest.head? = some 'x' || rest.head? = some 'X')) rest)
  else
    match c, rest with
    | '/', '/' :: body => (.comment, (body.takeWhile (· ≠ '\n')).length + 1)
    | '/', '*' :: body =>
      match commentLength? body with
      | some n => (.comment, n + 1)
      | none => (.fault .unclosedComment, rest.length)
    -- Longer marks are tried first: a text block before a string, `...` before a fraction.
    | '"', '"' :: '"' :: body =>
      let (n, closed) := textBlockLength body
      literal .stringLiteral .unclosedTextBlock (n + 2, closed)
    | '"', body => literal .stringLiteral .unclosedString (quotedLength '"' body)
    | '\'', body => literal .charLiteral .unclosedCharacter (quotedLength '\'' body)
    | '.', '.' :: '.' :: _ => (.token .ellipsis, 2)
    | '.', d :: more =>
      if d.isDigit then (.token .numberLiteral, numberLength false (d :: more))
      else (.token .dot, 0)
    | c, _ =>
      match punctuation? c with
      | some kind => (.token kind, 0)
      | none => (.fault .unexpectedCharacter, 0)

/-- The lexemes of a text that starts at byte `pos`. -/
def all (pos : Nat) : List Char → List Lexeme
  | [] => []
  | c :: rest =>
    let (kind, n) := next c rest
    let chars := c :: rest.take n
    ⟨kind, chars, pos⟩ :: all (pos + byteLength chars) (rest.drop n)
  termination_by cs => cs.length
  decreasing_by simp only [List.length_cons, List.length_drop]; omega

/-- The place of a lexeme. -/
def span (file : Nat) (l : Lexeme) : Span := ⟨some file, l.start, l.start + byteLength l.chars⟩

/-- The token of a lexeme that is one. -/
def token? (file : Nat) (l : Lexeme) : Option Token :=
  l.kind.token?.map fun kind => ⟨kind, String.ofList l.chars, l.span file⟩

/-- The error of a faulty lexeme. -/
def error? (file : Nat) (l : Lexeme) : Option Diagnostic :=
  match l.kind with
  | .fault f => some ⟨.error, .lexical, f.message, l.span file, [], [], []⟩
  | _ => none

end Lexeme

/-! ### Tokens of a text -/

/-- The `eof` token of a text. -/
def eofToken (file : Nat) (source : String) : Token :=
  ⟨.eof, "", ⟨some file, source.utf8ByteSize, source.utf8ByteSize⟩⟩

/-- The tokens of a text, the last of them `eof`, and its lexical errors. -/
def lex (file : Nat) (source : String) : List Token × List Diagnostic :=
  let lexemes := Lexeme.all 0 source.toList
  (lexemes.filterMap (Lexeme.token? file) ++ [eofToken file source],
   lexemes.filterMap (Lexeme.error? file))

/-- Only `eof` covers no text. -/
theorem text_ne_empty_of_mem_lex {file : Nat} {source : String} {t : Token}
    (ht : t ∈ (lex file source).1) (hk : t.kind ≠ .eof) : t.text ≠ "" := by
  have filled : ∀ (pos : Nat) (cs : List Char), ∀ l ∈ Lexeme.all pos cs, l.chars ≠ [] := by
    intro pos cs
    induction pos, cs using Lexeme.all.induct with
    | case1 => simp [Lexeme.all]
    | case2 pos c rest kind n hn chars ih =>
      intro l hl
      rw [Lexeme.all, hn] at hl
      rcases List.mem_cons.1 hl with rfl | hl
      · exact List.cons_ne_nil c _
      · exact ih l hl
  rcases List.mem_append.1 ht with ht | ht
  · obtain ⟨l, hl, hlt⟩ := List.mem_filterMap.1 ht
    obtain ⟨kind, -, rfl⟩ := Option.map_eq_some_iff.1 hlt
    intro he
    exact filled _ _ l hl (by simpa using he)
  · rw [List.mem_singleton.1 ht] at hk
    exact absurd rfl hk

end JavaAbi
