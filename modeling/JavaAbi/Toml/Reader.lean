import JavaAbi.Toml.Numbers
import JavaAbi.Toml.Strings
import JavaAbi.Toml.Table

namespace JavaAbi.Toml.Reader

/-!
# Reading TOML

`Toml.parse?` reads the table that a TOML 1.0 document stands for. Arrays and inline tables nest
less than 80 deep, and a key has less than 80 parts.
-/

/-- Bound on the parts of a key and on the depth of a value. -/
def depthBound : Nat := 79

/-! ### Keys -/

/-- Characters of a key without quotes. -/
def isBareKey (c : Char) : Bool := c.isAlphanum || c = '_' || c = '-'

/-- A part of a key. -/
def keyPart? : List Char → Option (List Char × List Char)
  | '"' :: rest => basicString? rest
  | '\'' :: rest => literalString? rest
  | cs =>
    match cs.takeWhile isBareKey with
    | [] => none
    | part => some (part, cs.dropWhile isBareKey)

/-- A key: the parts before the last, and the last. Blanks may stand around each part. The first
    argument bounds the number of parts. -/
def key? : Nat → List Char → Option ((List String × String) × List Char)
  | 0, _ => none
  | bound + 1, cs => do
    let (part, rest) ← keyPart? (skipSpace cs)
    let part := String.ofList part
    match skipSpace rest with
    | '.' :: rest =>
      let ((path, name), rest) ← key? bound rest
      return ((part :: path, name), rest)
    | rest => return (([], part), rest)

/-! ### Values -/

/-- A value that is neither array nor table. -/
def scalar? : List Char → Option (Toml × List Char)
  | '"' :: '"' :: '"' :: rest => string (basicLines? false (dropNewline rest))
  | '"' :: rest => string (basicString? rest)
  | '\'' :: '\'' :: '\'' :: rest => string (literalLines? (dropNewline rest))
  | '\'' :: rest => string (literalString? rest)
  | 't' :: 'r' :: 'u' :: 'e' :: rest => some (.boolean true, rest)
  | 'f' :: 'a' :: 'l' :: 's' :: 'e' :: rest => some (.boolean false, rest)
  | cs => dateTime? cs <|> number? cs
where
  string (read : Option (List Char × List Char)) : Option (Toml × List Char) :=
    read.map fun (text, rest) => (.string (String.ofList text), rest)

/-- The items of an array from after its opening bracket or a comma through its closing bracket;
    `item?` reads one. -/
def items? (item? : List Char → Option (Toml × List Char)) :
    Nat → List Char → Option (List Toml × List Char)
  | 0, _ => none
  | fuel + 1, cs =>
    match skipGap false cs with
    | ']' :: rest => some ([], rest)
    | cs => do
      let (item, rest) ← item? cs
      match skipGap false rest with
      | ',' :: rest =>
        let (items, rest) ← items? item? fuel rest
        return (item :: items, rest)
      | ']' :: rest => return ([item], rest)
      | _ => none

/-- A key, the sign `=` and a value, which `item?` reads. -/
def definition? (item? : List Char → Option (Toml × List Char)) (cs : List Char) :
    Option ((List String × String) × Toml × List Char) := do
  let (key, rest) ← key? depthBound cs
  match rest with
  | '=' :: rest =>
    let (value, rest) ← item? (skipSpace rest)
    return (key, value, rest)
  | _ => none

/-- The further definitions of an inline table, through its closing brace. -/
def definitions? (item? : List Char → Option (Toml × List Char)) :
    Nat → Entries → List Char → Option (Entries × List Char)
  | 0, _, _ => none
  | fuel + 1, entries, cs => do
    let ((path, name), value, rest) ← definition? item? cs
    let entries ← entries.define? path name value
    match skipSpace rest with
    | ',' :: rest => definitions? item? fuel entries rest
    | '}' :: rest => return (entries, rest)
    | _ => none

/-- A value. The first argument bounds the depth of arrays and tables. -/
def value? : Nat → List Char → Option (Toml × List Char)
  | 0, cs => scalar? cs
  | depth + 1, cs =>
    match cs with
    | '[' :: rest =>
      (items? (value? depth) (rest.length + 1) rest).map fun (items, rest) => (.array items, rest)
    | '{' :: rest =>
      match skipSpace rest with
      | '}' :: rest => some (.table [], rest)
      | rest =>
        (definitions? (value? depth) (rest.length + 1) [] rest).map fun (entries, rest) =>
          (.table (entriesToToml entries), rest)
    | cs => scalar? cs

/-! ### Documents -/

/-- What a line of a document does: it may define a value under the header `place`, or be a header,
    which is the place of the lines after it. Gives the place, the entries, and the lines that
    follow. -/
def line? (place : List String) (entries : Entries) (cs : List Char) :
    Option (List String × Entries × List Char) :=
  match cs with
  | '[' :: '[' :: rest => do
    let ((path, name), rest) ← key? depthBound rest
    match rest with
    | ']' :: ']' :: rest =>
      return (path ++ [name], ← entries.appendTable? path name, ← lineEnd? rest)
    | _ => none
  | '[' :: rest => do
    let ((path, name), rest) ← key? depthBound rest
    match rest with
    | ']' :: rest => return (path ++ [name], ← entries.openTable? path name, ← lineEnd? rest)
    | _ => none
  | cs =>
    match lineEnd? cs with
    | some rest => some (place, entries, rest)
    | none => do
      let ((path, name), value, rest) ← definition? (value? depthBound) cs
      return (place, ← entries.defineAt? place path name value, ← lineEnd? rest)

/-- The entries of a document; `fuel` bounds the number of its lines. -/
def lines? : Nat → List String → Entries → List Char → Option Entries
  | 0, _, _, _ => none
  | fuel + 1, place, entries, cs =>
    match skipSpace cs with
    | [] => some entries
    | cs => do
      let (place, entries, rest) ← line? place entries cs
      lines? fuel place entries rest

end JavaAbi.Toml.Reader

/-- The table of a document, which may start with a byte order mark. -/
def JavaAbi.Toml.parse? (text : String) : Option JavaAbi.Toml :=
  let cs :=
    match text.toList with
    | '\ufeff' :: rest => rest
    | cs => cs
  (Reader.lines? (cs.length + 1) [] [] cs).map fun entries => .table (entriesToToml entries)
