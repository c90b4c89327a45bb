namespace JavaAbi

/-!
# TOML values

`Toml` is the value that a TOML document, or a part of it, stands for. Floats and dates keep the
characters that write them.
-/

/-- A TOML value. No two entries of a table have the same name. -/
inductive Toml where
  | string (text : String)
  | integer (value : Int)
  | float (chars : List Char)
  | boolean (value : Bool)
  | date (chars : List Char)
  | array (items : List Toml)
  | table (entries : List (String × Toml))

namespace Toml

instance : Inhabited Toml := ⟨.table []⟩

/-- The text of a string. -/
def text? : Toml → Option String
  | .string text => some text
  | _ => none

/-- A truth value. -/
def boolean? : Toml → Option Bool
  | .boolean value => some value
  | _ => none

/-- The items of an array. -/
def items? : Toml → Option (List Toml)
  | .array items => some items
  | _ => none

/-- Whether a value is an array or a table without content. -/
def isVoid : Toml → Bool
  | .array items => items.isEmpty
  | .table entries => entries.isEmpty
  | _ => false

/-- A word out of a fixed choice: a string, or a table whose only entry has that name and no
    content. -/
def word? : Toml → Option String
  | .string word => some word
  | .table [(word, content)] => if content.isVoid then some word else none
  | _ => none

end Toml

end JavaAbi
