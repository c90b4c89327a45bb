import JavaAbi.Syntax.Tree
import JavaAbi.Text.Dotted

namespace JavaAbi

/-!
# Symbol descriptors

What a symbol file tells of a precompiled type. Supertypes are canonical names.

* `Descriptor.simpleName` — the last segment of the name;
* `Descriptor.enclosingType?` — the canonical name of the declaring type, for a member type.
-/

/-- The kind of a precompiled type is that of a declaration, written in lower case. -/
def DeclKind.word : DeclKind → String
  | classType => "class"
  | interfaceType => "interface"
  | enumType => "enum"
  | annotationType => "annotation"
  | recordType => "record"

/-- Every kind. -/
def DeclKind.all : List DeclKind := [classType, interfaceType, enumType, annotationType, recordType]

/-- The kind that a word writes. -/
def DeclKind.ofWord? (word : String) : Option DeclKind := all.find? (·.word == word)

theorem DeclKind.ofWord?_word (k : DeclKind) : ofWord? k.word = some k := by cases k <;> decide

/-- The surface of a precompiled type. -/
structure Descriptor where
  qualifiedName : String
  package : String := ""
  kind : DeclKind
  modifiers : List Modifier := []
  typeParameters : List String := []
  superclass : Option String := none
  interfaces : List String := []
  deriving DecidableEq, Inhabited, Repr

namespace Descriptor

/-- The last segment of the qualified name. -/
def simpleName (d : Descriptor) : String := String.ofList (lastSegment d.qualifiedName.toList)

/-- What precedes the types of a package in their names: the package and a dot. -/
def packageFront (package : String) : List Char :=
  if package.isEmpty then [] else package.toList ++ ['.']

/-- The canonical name of the declaring type: the qualified name without its last segment, when more
    than one segment follows the package. -/
def enclosingType? (d : Descriptor) : Option String := do
  let front := packageFront d.package
  let name := d.qualifiedName.toList
  if front.isPrefixOf name then
    let (outer, _) ← splitLastDot? (name.drop front.length)
    return String.ofList (front ++ outer)
  else none

end Descriptor

end JavaAbi
