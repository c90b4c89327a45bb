import JavaAbi.Text.Digits

namespace JavaAbi

/-!
# JSON values

Numbers and strings keep the characters that write them: a number its digits, a string what stands
between its quotes. So a string whose escapes denote no text is still a value, which `Json.text?`
refuses and which a reader may skip.

* `Json.unescape?` — the text that the inside of a string writes;
* `Json.escape` — the shortest way to write a text, control characters escaped;
* `Json.ofText`, `Json.text?` — strings from and to text.
-/

/-- A JSON value. Members of an object are in the order in which they are written. -/
inductive Json where
  | null
  | bool (value : Bool)
  | number (digits : List Char)
  | string (inside : List Char)
  | array (items : List Json)
  | object (members : List (List Char × Json))

namespace Json

instance : Inhabited Json := ⟨.null⟩

/-! ### Escapes -/

/-- The number that four hexadecimal digits write. -/
def hex4? (a b c d : Char) : Option Nat := do
  return (((← hexValue? a) * 16 + (← hexValue? b)) * 16 + (← hexValue? c)) * 16 + (← hexValue? d)

/-- The character that a letter after a backslash denotes. -/
def simpleEscape? (c : Char) : Option Char :=
  match c with
  | '"' => some '"'
  | '\\' => some '\\'
  | '/' => some '/'
  | 'b' => some '\x08'
  | 'f' => some '\x0c'
  | 'n' => some '\n'
  | 'r' => some '\x0d'
  | 't' => some '\t'
  | _ => none

/-- The text that the inside of a string writes. A surrogate that is not half of a pair denotes
    none, and neither does a bare control character or quote. -/
def unescape? : List Char → Option (List Char)
  | [] => some []
  | '\\' :: 'u' :: a :: b :: c :: d :: rest =>
    match hex4? a b c d with
    | none => none
    | some n =>
      if 0xdc00 ≤ n ∧ n ≤ 0xdfff then none
      else if 0xd800 ≤ n ∧ n ≤ 0xdbff then
        match rest with
        | '\\' :: 'u' :: e :: f :: g :: h :: rest =>
          match hex4? e f g h with
          | none => none
          | some m =>
            if 0xdc00 ≤ m ∧ m ≤ 0xdfff then
              (unescape? rest).map (Char.ofNat (0x10000 + (n - 0xd800) * 0x400 + (m - 0xdc00)) :: ·)
            else none
        | _ => none
      else (unescape? rest).map (Char.ofNat n :: ·)
  | '\\' :: c :: rest => do return (← simpleEscape? c) :: (← unescape? rest)
  | c :: rest =>
    if c = '"' ∨ c = '\\' ∨ c.toNat < 0x20 then none else (unescape? rest).map (c :: ·)

/-- How a character is written inside a string. -/
def escapeChar (c : Char) : List Char :=
  match c with
  | '"' => ['\\', '"']
  | '\\' => ['\\', '\\']
  | '\x08' => ['\\', 'b']
  | '\x0c' => ['\\', 'f']
  | '\n' => ['\\', 'n']
  | '\x0d' => ['\\', 'r']
  | '\t' => ['\\', 't']
  | c =>
    if c.toNat < 0x20 then
      ['\\', 'u', '0', '0', Nat.digitChar (c.toNat / 16), Nat.digitChar (c.toNat % 16)]
    else [c]

/-- How a text is written inside a string. -/
def escape (text : List Char) : List Char := text.flatMap escapeChar

/-! ### Strings -/

/-- The string of a text. -/
def ofText (text : String) : Json := .string (escape text.toList)

/-- The text of a string. -/
def text? : Json → Option String
  | .string inside => (unescape? inside).map String.ofList
  | _ => none

/-- An object from names and values. -/
def ofMembers (members : List (String × Json)) : Json :=
  .object (members.map fun (name, value) => (escape name.toList, value))

/-- The members of an object by name. Each name has to denote a text. -/
def members? : Json → Option (List (String × Json))
  | .object members =>
    members.mapM fun (inside, value) => do return (String.ofList (← unescape? inside), value)
  | _ => none

/-- The items of an array. -/
def items? : Json → Option (List Json)
  | .array items => some items
  | _ => none

end Json

end JavaAbi
