import JavaAbi.Json.Printer
import JavaAbi.Json.Reader
import JavaAbi.Symbols.Descriptor

namespace JavaAbi

/-!
# Symbol tables

A symbol file is a JSON object whose `symbols` are descriptors. A table holds one descriptor for
each name, in the order of the names; a later one replaces an earlier one of the same name.

* `SymbolTable.insert`, `SymbolTable.find?` — by canonical name;
* `SymbolTable.ofJsonText?` — the table of a symbol file;
* `SymbolTable.toJsonText` — the symbol file of a table.

A record is read from an object, whose unknown members are skipped and whose known ones may not be
repeated, or from an array of its fields in order.
-/

/-- Descriptors in strictly increasing order of their names. -/
structure SymbolTable where
  descriptors : List Descriptor := []
  deriving DecidableEq, Inhabited, Repr

namespace SymbolTable

/-- Puts a descriptor in its place. -/
def insertInto (d : Descriptor) : List Descriptor → List Descriptor
  | [] => [d]
  | e :: rest =>
    if d.qualifiedName = e.qualifiedName then d :: rest
    else if d.qualifiedName < e.qualifiedName then d :: e :: rest
    else e :: insertInto d rest

/-- Adds a descriptor, or replaces the one of its name. -/
def insert (t : SymbolTable) (d : Descriptor) : SymbolTable := ⟨insertInto d t.descriptors⟩

/-- The table of several descriptors, inserted in order. -/
def ofList (ds : List Descriptor) : SymbolTable := ds.foldl insert {}

/-- The descriptor of a name. -/
def find? (t : SymbolTable) (name : String) : Option Descriptor :=
  t.descriptors.find? (·.qualifiedName == name)

/-- Number of descriptors. -/
def size (t : SymbolTable) : Nat := t.descriptors.length

end SymbolTable

/-! ### Writing -/

namespace Descriptor

/-- A descriptor as JSON. -/
def toJson (d : Descriptor) : Json :=
  .ofMembers
    [("qualified_name", .ofText d.qualifiedName),
     ("package", .ofText d.package),
     ("kind", .ofText d.kind.word),
     ("modifiers", .array (d.modifiers.map fun m => .ofText m.keyword)),
     ("type_parameters", .array (d.typeParameters.map .ofText)),
     ("superclass", (d.superclass.map Json.ofText).getD .null),
     ("interfaces", .array (d.interfaces.map .ofText))]

end Descriptor

/-- The symbol file of a table. -/
def SymbolTable.toJsonText (t : SymbolTable) : String :=
  (Json.ofMembers [("symbols", .array (t.descriptors.map Descriptor.toJson))]).pretty

/-! ### Reading -/

/-- The fields of a record, each present or not. -/
abbrev Json.Fields := List (Option Json)

/-- The members of an object as fields: those of unknown name are dropped, and none of the known
    names is repeated. -/
def Json.fieldsOfMembers? (names : List String) (members : List (String × Json)) :
    Option Json.Fields :=
  names.mapM fun name =>
    match members.filter (·.1 == name) with
    | [] => some none
    | [(_, value)] => some (some value)
    | _ => none

/-- The fields of a record written as an object, or as an array of its first fields. -/
def Json.fields? (names : List String) (j : Json) : Option Json.Fields :=
  match j with
  | .array items =>
    if items.length ≤ names.length then
      some (items.map some ++ List.replicate (names.length - items.length) none)
    else none
  | j => do fieldsOfMembers? names (← j.members?)

/-- A field that has to be present. -/
def Json.required? {α : Type} (read : Json → Option α) (field : Option Json) : Option α :=
  field.bind read

/-- A field with a default for its absence. -/
def Json.optional? {α : Type} (default : α) (read : Json → Option α) : Option Json → Option α
  | none => some default
  | some j => read j

/-- A list. -/
def Json.list? {α : Type} (read : Json → Option α) (j : Json) : Option (List α) := do
  (← j.items?).mapM read

/-- A value that `null` may stand in for. -/
def Json.nullable? {α : Type} (read : Json → Option α) : Json → Option (Option α)
  | .null => some none
  | j => (read j).map some

/-- The word of an enumeration: a string, or an object with that word as its only name, for
    `null`. -/
def Json.word? (j : Json) : Option String :=
  match j with
  | .object [(name, .null)] => (Json.unescape? name).map String.ofList
  | j => j.text?

/-- A descriptor from JSON. -/
def Descriptor.ofJson? (j : Json) : Option Descriptor := do
  let names := ["qualified_name", "package", "kind", "modifiers", "type_parameters", "superclass",
    "interfaces"]
  match ← j.fields? names with
  | [qualifiedName, package, kind, modifiers, typeParameters, superclass, interfaces] =>
    return {
      qualifiedName := ← Json.required? Json.text? qualifiedName
      package := ← Json.optional? "" Json.text? package
      kind := ← Json.required? (fun j => do DeclKind.ofWord? (← j.word?)) kind
      modifiers :=
        ← Json.optional? [] (Json.list? fun j => do Modifier.ofKeyword? (← j.word?)) modifiers
      typeParameters := ← Json.optional? [] (Json.list? Json.text?) typeParameters
      superclass := ← Json.optional? none (Json.nullable? Json.text?) superclass
      interfaces := ← Json.optional? [] (Json.list? Json.text?) interfaces }
  | _ => none

/-- The table of a symbol file. -/
def SymbolTable.ofJson? (j : Json) : Option SymbolTable := do
  match ← j.fields? ["symbols"] with
  | [symbols] => return .ofList (← Json.optional? [] (Json.list? Descriptor.ofJson?) symbols)
  | _ => none

/-- The table that the text of a symbol file writes. -/
def SymbolTable.ofJsonText? (text : String) : Option SymbolTable := do ofJson? (← Json.parse? text)

end JavaAbi
