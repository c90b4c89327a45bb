import JavaAbi.Text.Digits

namespace JavaAbi.Toml.Reader

/-!
# Strings, comments and line ends of TOML

Each reader takes what is left of the text and gives what it read with what is left after it. The
readers of strings start after the opening quotes and end after the closing ones.

* `basicString?`, `literalString?` — strings in one line, with and without escapes;
* `basicLines?`, `literalLines?` — strings of several lines, whose lines end in a line feed however
  they are written;
* `lineEnd?` — what may follow a definition in its line.
-/

/-- Characters that stand for themselves: no control characters but the tab. -/
def isPlain (c : Char) : Bool := c = '\t' || (0x20 ≤ c.toNat && c.toNat ≠ 0x7f)

/-- Blanks within a line. -/
def isSpace (c : Char) : Bool := c = ' ' || c = '\t'

/-- Steps over blanks. -/
def skipSpace (cs : List Char) : List Char := cs.dropWhile isSpace

/-- Steps over a line end. -/
def newline? : List Char → Option (List Char)
  | '\n' :: rest => some rest
  | '\x0d' :: '\n' :: rest => some rest
  | _ => none

/-- The end of a line: blanks, then perhaps a comment, then a line end or the end of the text. -/
def lineEnd? (cs : List Char) : Option (List Char) :=
  let rest :=
    match skipSpace cs with
    | '#' :: comment => comment.dropWhile isPlain
    | rest => rest
  if rest.isEmpty then some [] else newline? rest

/-- Steps over blanks, line ends and comments. -/
def skipGap (inComment : Bool) : List Char → List Char
  | [] => []
  | '\n' :: rest => skipGap false rest
  | '\x0d' :: '\n' :: rest => skipGap false rest
  | c :: rest =>
    if inComment then if isPlain c then skipGap true rest else c :: rest
    else if isSpace c then skipGap false rest
    else if c = '#' then skipGap true rest
    else c :: rest

/-! ### Strings in one line -/

/-- The character that a letter after a backslash denotes. -/
def simpleEscape? (c : Char) : Option Char :=
  match c with
  | '"' => some '"'
  | '\\' => some '\\'
  | 'b' => some '\x08'
  | 'f' => some '\x0c'
  | 'n' => some '\n'
  | 'r' => some '\x0d'
  | 't' => some '\t'
  | _ => none

/-- Puts a character in front of a text that was read. -/
def before (c : Char) (read : List Char × List Char) : List Char × List Char :=
  (c :: read.1, read.2)

/-- A string with escapes. -/
def basicString? : List Char → Option (List Char × List Char)
  | [] => none
  | '"' :: rest => some ([], rest)
  | '\\' :: 'u' :: a :: b :: c :: d :: rest => do
    return before (← codePoint? [a, b, c, d]) (← basicString? rest)
  | '\\' :: 'U' :: a :: b :: c :: d :: e :: f :: g :: h :: rest => do
    return before (← codePoint? [a, b, c, d, e, f, g, h]) (← basicString? rest)
  | '\\' :: c :: rest => do return before (← simpleEscape? c) (← basicString? rest)
  | c :: rest =>
    if c ≠ '\\' && isPlain c then (basicString? rest).map (before c) else none

/-- A string without escapes. -/
def literalString? : List Char → Option (List Char × List Char)
  | [] => none
  | '\'' :: rest => some ([], rest)
  | c :: rest => if isPlain c then (literalString? rest).map (before c) else none

/-! ### Strings of several lines -/

/-- Drops a line end that directly follows the opening quotes. -/
def dropNewline (cs : List Char) : List Char := (newline? cs).getD cs

/-- Whether only blanks stand before the next line end. -/
def endsLine (cs : List Char) : Bool := (newline? (skipSpace cs)).isSome

/-- A string with escapes. A backslash at the end of a line drops the line end and the blanks and
    line ends after it, as long as `skipping` says. One or two quotes directly before the closing
    ones belong to the string. -/
def basicLines? (skipping : Bool) : List Char → Option (List Char × List Char)
  | [] => none
  | '"' :: '"' :: '"' :: '"' :: '"' :: rest => some (['"', '"'], rest)
  | '"' :: '"' :: '"' :: '"' :: rest => some (['"'], rest)
  | '"' :: '"' :: '"' :: rest => some ([], rest)
  | '\n' :: rest =>
    if skipping then basicLines? true rest else (basicLines? false rest).map (before '\n')
  | '\x0d' :: '\n' :: rest =>
    if skipping then basicLines? true rest else (basicLines? false rest).map (before '\n')
  | '\\' :: 'u' :: a :: b :: c :: d :: rest => do
    return before (← codePoint? [a, b, c, d]) (← basicLines? false rest)
  | '\\' :: 'U' :: a :: b :: c :: d :: e :: f :: g :: h :: rest => do
    return before (← codePoint? [a, b, c, d, e, f, g, h]) (← basicLines? false rest)
  | '\\' :: c :: rest =>
    if endsLine (c :: rest) then basicLines? true rest
    else do return before (← simpleEscape? c) (← basicLines? false rest)
  | c :: rest =>
    if skipping && isSpace c then basicLines? true rest
    else if c ≠ '\\' && isPlain c then (basicLines? false rest).map (before c)
    else none

/-- A string without escapes. -/
def literalLines? : List Char → Option (List Char × List Char)
  | [] => none
  | '\'' :: '\'' :: '\'' :: '\'' :: '\'' :: rest => some (['\'', '\''], rest)
  | '\'' :: '\'' :: '\'' :: '\'' :: rest => some (['\''], rest)
  | '\'' :: '\'' :: '\'' :: rest => some ([], rest)
  | '\n' :: rest => (literalLines? rest).map (before '\n')
  | '\x0d' :: '\n' :: rest => (literalLines? rest).map (before '\n')
  | c :: rest => if isPlain c then (literalLines? rest).map (before c) else none

end JavaAbi.Toml.Reader
