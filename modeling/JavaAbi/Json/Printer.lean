import JavaAbi.Json.Value

namespace JavaAbi.Json

/-!
# Writing JSON

`Json.pretty` writes a value over several lines: each item and member on a line of its own, two
spaces deeper than its bracket. Empty arrays and objects stay on one line.
-/

/-- A line break and the blanks of a depth. -/
def newline (depth : Nat) : List Char := '\n' :: List.replicate (2 * depth) ' '

mutual

/-- A value whose first line is already indented to `depth`. -/
def prettyAt (depth : Nat) : Json → List Char
  | .null => "null".toList
  | .bool true => "true".toList
  | .bool false => "false".toList
  | .number digits => digits
  | .string inside => '"' :: (inside ++ ['"'])
  | .array [] => ['[', ']']
  | .array (item :: items) =>
    '[' :: (newline (depth + 1) ++ prettyAt (depth + 1) item ++ prettyItems depth items
      ++ newline depth ++ [']'])
  | .object [] => ['{', '}']
  | .object ((name, value) :: members) =>
    '{' :: (newline (depth + 1) ++ '"' :: (name ++ ['"', ':', ' '] ++ prettyAt (depth + 1) value)
      ++ prettyMembers depth members ++ newline depth ++ ['}'])

/-- Further items of an array that opens at `depth`. -/
def prettyItems (depth : Nat) : List Json → List Char
  | [] => []
  | item :: items =>
    ',' :: (newline (depth + 1) ++ prettyAt (depth + 1) item) ++ prettyItems depth items

/-- Further members of an object that opens at `depth`. -/
def prettyMembers (depth : Nat) : List (List Char × Json) → List Char
  | [] => []
  | (name, value) :: members =>
    ',' :: (newline (depth + 1) ++ '"' :: (name ++ ['"', ':', ' '] ++ prettyAt (depth + 1) value))
      ++ prettyMembers depth members

end

/-- A value over several lines. -/
def pretty (j : Json) : String := String.ofList (prettyAt 0 j)

end JavaAbi.Json
