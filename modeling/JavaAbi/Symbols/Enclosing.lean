import JavaAbi.Symbols.Descriptor
import JavaAbi.Text.Bytes

namespace JavaAbi

/-!
# Enclosing names by their length

The name of the declaring type is a front of the qualified name. How long it is follows from the
lengths of the parts: those of the name, of what follows the package in it, and of that without its
last segment.

* `Descriptor.enclosingLength?` — its length in bytes, when there is a declaring type;
* `Descriptor.enclosingSlice?` — the front of that length.

The inner option of an answer is empty when the length is below zero, or the front of that length
would end inside a character or past the name.
-/

namespace Descriptor

/-- What follows the package and a dot in the qualified name; without a package, all of it. -/
def restOfName? (d : Descriptor) : Option (List Char) :=
  if d.package.isEmpty then some d.qualifiedName.toList
  else do ['.'].isPrefixOf? (← d.package.toList.isPrefixOf? d.qualifiedName.toList)

/-- The length of the name of the declaring type. -/
def enclosingLength? (d : Descriptor) : Option (Option Nat) := do
  let rest ← d.restOfName?
  let (outer, _) ← splitLastDot? rest
  return (minus? (byteLength d.qualifiedName.toList) (byteLength rest)).map (· + byteLength outer)

/-- The front of the qualified name that is the name of the declaring type. -/
def enclosingSlice? (d : Descriptor) : Option (Option String) := do
  let length? ← d.enclosingLength?
  return do
    let front ← takeBytes? (← length?) d.qualifiedName.toList
    return String.ofList front

end Descriptor

end JavaAbi
