import JavaAbi.Json.Value

namespace JavaAbi.Json.Reader

/-!
# Reading JSON

`Json.parse?` reads a text that holds one JSON value and blanks around it, as RFC 8259 writes it.
Each reader takes what is left of the text and gives what it read with what is left after it.
-/

/-- The blanks of JSON. -/
def isSpace (c : Char) : Bool := c = ' ' || c = '\t' || c = '\n' || c = '\x0d'

/-- Steps over blanks. -/
def skipSpace (cs : List Char) : List Char := cs.dropWhile isSpace

/-- One or more digits. -/
def digits? (cs : List Char) : Option (List Char × List Char) :=
  match cs.takeWhile Char.isDigit with
  | [] => none
  | ds => some (ds, cs.dropWhile Char.isDigit)

/-- The digits before a point: a number does not start with a needless zero. -/
def integer? : List Char → Option (List Char × List Char)
  | '0' :: cs => if (cs.head?.map Char.isDigit).getD false then none else some (['0'], cs)
  | cs => digits? cs

/-- A fraction, if there is one. -/
def fraction? : List Char → Option (List Char × List Char)
  | '.' :: cs => (digits? cs).map fun (ds, rest) => ('.' :: ds, rest)
  | cs => some ([], cs)

/-- An exponent, if there is one. -/
def exponent? : List Char → Option (List Char × List Char)
  | [] => some ([], [])
  | e :: cs =>
    if e = 'e' || e = 'E' then
      match cs with
      | s :: more =>
        if s = '+' || s = '-' then (digits? more).map fun (ds, rest) => (e :: s :: ds, rest)
        else (digits? cs).map fun (ds, rest) => (e :: ds, rest)
      | [] => none
    else some ([], e :: cs)

/-- A number without its sign. -/
def unsigned? (cs : List Char) : Option (List Char × List Char) := do
  let (whole, cs) ← integer? cs
  let (fraction, cs) ← fraction? cs
  let (exponent, cs) ← exponent? cs
  return (whole ++ fraction ++ exponent, cs)

/-- A number. -/
def number? : List Char → Option (List Char × List Char)
  | '-' :: cs => (unsigned? cs).map fun (ds, rest) => ('-' :: ds, rest)
  | cs => unsigned? cs

/-- The inside of a string, from after its opening quote to its closing quote. Escapes are checked
    for their form only. -/
def inside? : List Char → Option (List Char × List Char)
  | [] => none
  | '"' :: rest => some ([], rest)
  | '\\' :: 'u' :: a :: b :: c :: d :: rest =>
    if (hex4? a b c d).isSome then
      (inside? rest).map fun (text, rest) => ('\\' :: 'u' :: a :: b :: c :: d :: text, rest)
    else none
  | '\\' :: c :: rest =>
    if (simpleEscape? c).isSome then
      (inside? rest).map fun (text, rest) => ('\\' :: c :: text, rest)
    else none
  | c :: rest =>
    if c = '\\' ∨ c.toNat < 0x20 then none
    else (inside? rest).map fun (text, rest) => (c :: text, rest)

/-- Takes a word off the front of a text. -/
def word? (word cs : List Char) : Option (List Char) :=
  if word.isPrefixOf cs then some (cs.drop word.length) else none

mutual

/-- A value; blanks before it are skipped. -/
def value? : Nat → List Char → Option (Json × List Char)
  | 0, _ => none
  | fuel + 1, cs =>
    match skipSpace cs with
    | '"' :: cs => (inside? cs).map fun (text, rest) => (.string text, rest)
    | '[' :: cs =>
      match skipSpace cs with
      | ']' :: cs => some (.array [], cs)
      | cs => (items? fuel cs).map fun (items, rest) => (.array items, rest)
    | '{' :: cs =>
      match skipSpace cs with
      | '}' :: cs => some (.object [], cs)
      | cs => (members? fuel cs).map fun (members, rest) => (.object members, rest)
    | 't' :: cs => (word? "rue".toList cs).map fun rest => (.bool true, rest)
    | 'f' :: cs => (word? "alse".toList cs).map fun rest => (.bool false, rest)
    | 'n' :: cs => (word? "ull".toList cs).map fun rest => (.null, rest)
    | cs => (number? cs).map fun (digits, rest) => (.number digits, rest)

/-- The items of an array, from the first one through the closing bracket. -/
def items? : Nat → List Char → Option (List Json × List Char)
  | 0, _ => none
  | fuel + 1, cs => do
    let (item, cs) ← value? fuel cs
    match skipSpace cs with
    | ',' :: cs =>
      let (items, cs) ← items? fuel cs
      return (item :: items, cs)
    | ']' :: cs => return ([item], cs)
    | _ => none

/-- The members of an object, from the first one through the closing brace. -/
def members? : Nat → List Char → Option (List (List Char × Json) × List Char)
  | 0, _ => none
  | fuel + 1, cs =>
    match skipSpace cs with
    | '"' :: cs => do
      let (name, cs) ← inside? cs
      match skipSpace cs with
      | ':' :: cs =>
        let (value, cs) ← value? fuel cs
        match skipSpace cs with
        | ',' :: cs =>
          let (members, cs) ← members? fuel cs
          return ((name, value) :: members, cs)
        | '}' :: cs => return ([(name, value)], cs)
        | _ => none
      | _ => none
    | _ => none

end

end JavaAbi.Json.Reader

/-- The JSON value that a text holds. -/
def JavaAbi.Json.parse? (text : String) : Option JavaAbi.Json := do
  let cs := text.toList
  let (value, rest) ← Reader.value? (cs.length + 1) cs
  if (Reader.skipSpace rest).isEmpty then some value else none
