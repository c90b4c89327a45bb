import JavaAbi.Toml.Value

namespace JavaAbi.Toml

/-!
# Tables under construction

A document defines its tables bit by bit, and no bit may contradict an earlier one. A name is given
one value; a header names a table once, but may follow the headers of its subtables; a dotted key
adds only to tables that dotted keys have made.

* `Entries.define?` — what a line `a.b.c = value` does to the table that it stands in;
* `Entries.openTable?` — what a header `[a.b.c]` does to the document;
* `Entries.appendTable?` — what a header `[[a.b.c]]` does to the document.
-/

/-- What made a table: its header, the header of a subtable, or a dotted key. -/
inductive TableOrigin where
  | header
  | subtable
  | dottedKey
  deriving DecidableEq, Inhabited, Repr

/-- What a name stands for: a value that is complete, a table, or the tables of an array. -/
inductive Node where
  | value (value : Toml)
  | table (origin : TableOrigin) (entries : List (String × Node))
  | tables (items : List (List (String × Node)))

/-- The entries of a table in the order of their definition. -/
abbrev Entries := List (String × Node)

mutual

/-- The value of a node. -/
def Node.toToml : Node → Toml
  | .value v => v
  | .table _ entries => .table (entriesToToml entries)
  | .tables items => .array (itemsToToml items)

/-- The values of the entries of a table. -/
def entriesToToml : List (String × Node) → List (String × Toml)
  | [] => []
  | (name, node) :: rest => (name, node.toToml) :: entriesToToml rest

/-- The values of the tables of an array. -/
def itemsToToml : List (List (String × Node)) → List Toml
  | [] => []
  | entries :: rest => .table (entriesToToml entries) :: itemsToToml rest

end

namespace Entries

/-- Gives a name another node. -/
def replace (entries : Entries) (name : String) (node : Node) : Entries :=
  entries.map fun (n, old) => (n, if n = name then node else old)

/-- Changes the table at the end of a path. Tables missing on the way are made; of an array of
    tables the way leads through the last. A dotted key does not enter a table that has a header. -/
def change? (dotted : Bool) (change : TableOrigin → Entries → Option Entries) :
    List String → TableOrigin → Entries → Option Entries
  | [], origin, entries => change origin entries
  | name :: path, _, entries =>
    match entries.lookup name with
    | none => do
      let origin := if dotted then TableOrigin.dottedKey else .subtable
      return entries ++ [(name, .table origin (← change? dotted change path origin []))]
    | some (.value _) => none
    | some (.table origin inner) =>
      if dotted && origin = .header then none
      else do
        return entries.replace name (.table origin (← change? dotted change path origin inner))
    | some (.tables items) => do
      let inner ← change? dotted change path .header (← items.getLast?)
      return entries.replace name (.tables (items.dropLast ++ [inner]))

/-- Defines the value of a key, whose parts are `path` and `name`. -/
def define? (entries : Entries) (path : List String) (name : String) (value : Toml) :
    Option Entries :=
  entries |> change? true (fun origin inner =>
    if path ≠ [] ∧ origin ≠ .dottedKey then none
    else if (inner.lookup name).isSome then none
    else some (inner ++ [(name, .value value)])) path .header

/-- Opens the table `name` of the table at `path`. -/
def openTable? (entries : Entries) (path : List String) (name : String) : Option Entries :=
  entries |> change? false (fun _ inner =>
    match inner.lookup name with
    | none => some (inner ++ [(name, .table .header [])])
    | some (.table .subtable content) => some (replace inner name (.table .header content))
    | some _ => none) path .header

/-- Adds an empty table to the array of tables `name` of the table at `path`. -/
def appendTable? (entries : Entries) (path : List String) (name : String) : Option Entries :=
  entries |> change? false (fun _ inner =>
    match inner.lookup name with
    | none => some (inner ++ [(name, .tables [[]])])
    | some (.tables items) => some (replace inner name (.tables (items ++ [[]])))
    | some _ => none) path .header

/-- Defines the value of a key that stands under the header of the table at `place`. -/
def defineAt? (entries : Entries) (place path : List String) (name : String) (value : Toml) :
    Option Entries :=
  change? false (fun _ inner => define? inner path name value) place .header entries

end Entries

end JavaAbi.Toml
