import JavaAbi.Json.Printer
import JavaAbi.Model.Element

namespace JavaAbi

/-!
# Stubs

A stub is the surface of a type: what other code can see of it. `TypeStub.toJson` and
`TypeStub.text` are its two written forms.
-/

/-- A visible variable of a type. -/
structure FieldStub where
  name : String
  type : String
  modifiers : List Modifier
  deriving DecidableEq, Inhabited, Repr

/-- The file that a stub was extracted from, with the fingerprint of its text. -/
structure SourceRef where
  path : String
  contentHash : String
  deriving DecidableEq, Inhabited, Repr

/-- The surface of a type without its member types. `source` is known for top-level types. -/
structure Surface where
  name : String
  kind : ElementKind
  modifiers : List Modifier
  typeParameters : List String
  superclass : Option String
  interfaces : List String
  constants : List String := []
  fields : List FieldStub := []
  source : Option SourceRef := none
  deriving DecidableEq, Inhabited, Repr

/-- The surface of a type with the stubs of its member types. Private members are left out. -/
inductive TypeStub where
  | mk (surface : Surface) (nested : List TypeStub)
  deriving Inhabited

namespace TypeStub

/-- The surface of the type itself. -/
def surface : TypeStub → Surface
  | mk s _ => s

/-- The stubs of the member types. -/
def nested : TypeStub → List TypeStub
  | mk _ ns => ns

end TypeStub

/-! ### JSON -/

/-- Texts as a JSON array. -/
def Json.ofTexts (texts : List String) : Json := .array (texts.map .ofText)

/-- Modifiers as a JSON array. -/
def Json.ofModifiers (ms : List Modifier) : Json := .ofTexts (ms.map Modifier.keyword)

/-- A variable as JSON. -/
def FieldStub.toJson (f : FieldStub) : Json :=
  .ofMembers
    [("name", .ofText f.name), ("type", .ofText f.type), ("modifiers", .ofModifiers f.modifiers)]

/-- A file reference as JSON. -/
def SourceRef.toJson (r : SourceRef) : Json :=
  .ofMembers [("path", .ofText r.path), ("content_hash", .ofText r.contentHash)]

mutual

/-- A stub as JSON. A missing superclass or file, and an empty list of constants, are left out. -/
def TypeStub.toJson : TypeStub → Json
  | .mk s nested =>
    .ofMembers <|
      [("name", .ofText s.name), ("kind", .ofText s.kind.word),
       ("modifiers", .ofModifiers s.modifiers), ("type_parameters", .ofTexts s.typeParameters)]
      ++ (s.superclass.map fun t => ("superclass", .ofText t)).toList
      ++ [("interfaces", .ofTexts s.interfaces)]
      ++ (if s.constants.isEmpty then [] else [("enum_constants", .ofTexts s.constants)])
      ++ [("fields", .array (s.fields.map FieldStub.toJson)), ("nested", .array (toJsons nested))]
      ++ (s.source.map fun r => ("source", r.toJson)).toList

/-- Stubs as JSON. -/
def TypeStub.toJsons : List TypeStub → List Json
  | [] => []
  | s :: rest => s.toJson :: toJsons rest

end

/-! ### Text -/

/-- Modifiers, each with a blank after it. -/
def modifierText (ms : List Modifier) : String := String.join (ms.map fun m => m.keyword ++ " ")

/-- The line that heads a stub. -/
def Surface.headText (s : Surface) : String :=
  modifierText s.modifiers ++ s.kind.words ++ " " ++ s.name
    ++ (if s.typeParameters.isEmpty then "" else "<" ++ ", ".intercalate s.typeParameters ++ ">")
    ++ (match s.superclass with
        | some t => " extends " ++ t
        | none => "")
    ++ (if s.interfaces.isEmpty then "" else " implements " ++ ", ".intercalate s.interfaces)

/-- The lines of a surface: its head, then its constants and variables, deeper by `indent`. -/
def Surface.lines (indent : String) (s : Surface) : List String :=
  s.headText :: (s.constants
    ++ s.fields.map fun f => modifierText f.modifiers ++ f.type ++ " " ++ f.name).map (indent ++ ·)

mutual

/-- The lines of a stub; those of member types are one step deeper. -/
def TypeStub.lines : TypeStub → List String
  | .mk s nested => s.lines "    " ++ (linesOf nested).map ("    " ++ ·)

/-- The lines of stubs. -/
def TypeStub.linesOf : List TypeStub → List String
  | [] => []
  | s :: rest => s.lines ++ linesOf rest

end

/-- A stub as text, one line for each declaration. -/
def TypeStub.text (s : TypeStub) : String := String.join (s.lines.map (· ++ "\n"))

end JavaAbi
