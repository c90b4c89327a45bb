import JavaAbi.Text.Source

namespace JavaAbi

/-!
# Line tables

The lines of a file as a table of 32-bit words, the offsets at which they start. Places are found in
it by bisection, and their columns by subtraction.

* `bisect` — where a word stands, or would stand, in a sorted table;
* `SourceFile.lineStarts` — the table of a file;
* `SourceFile.lineCol?`, `SourceFile.lineText?` — line and column of an offset, and the text of its
  line.

An answer is missing when something is missing on the way to it: an entry of the table, a difference
below zero, a sum beyond 32 bits, an end of the line inside a character.
-/

/-! ### Searching a table -/

/-- Where a word was found in a table, or where it would be inserted. -/
inductive Standing where
  | found (index : Nat)
  | missing (index : Nat)
  deriving DecidableEq, Inhabited, Repr

/-- Halves the `size` entries from `base` on, keeping the part that the key belongs to. -/
def bisectWithin (table : Array UInt32) (key : UInt32) (base size : Nat) : Nat :=
  if size ≤ 1 then base
  else
    let half := size / 2
    let middle := base + half
    let base := if table[middle]?.any (key < ·) then base else middle
    bisectWithin table key base (size - half)
termination_by size
decreasing_by omega

/-- Where a key stands by the entry at which the search for it ended. -/
def standingBy (table : Array UInt32) (key : UInt32) (i : Nat) : Standing :=
  match table[i]? with
  | none => .missing i
  | some entry =>
    if entry = key then .found i else if entry < key then .missing (i + 1) else .missing i

/-- Where a word stands in a sorted table. -/
def bisect (table : Array UInt32) (key : UInt32) : Standing :=
  standingBy table key (bisectWithin table key 0 table.size)

/-- A number as a word, if it has no more than 32 bits. -/
def word? (n : Nat) : Option UInt32 := if n < UInt32.size then some (UInt32.ofNat n) else none

namespace SourceFile

/-! ### The table of a file -/

/-- The bytes of a file. -/
def bytes (f : SourceFile) : List UInt8 := f.content.toUTF8.data.toList

/-- The byte that ends a line. -/
def lineFeed : UInt8 := 10

/-- Zero, and the offset after each line feed. Offsets beyond 32 bits lose their upper bits. -/
def lineStarts (f : SourceFile) : Array UInt32 :=
  (0 :: (f.bytes.zipIdx.filter (·.1 = lineFeed)).map fun (_, i) => UInt32.ofNat (i + 1)).toArray

/-- The position in the table of the line that holds an offset. -/
def lineIndex? (f : SourceFile) (offset : UInt32) : Option Nat :=
  match bisect f.lineStarts offset with
  | .found i => some i
  | .missing i => minus? i 1

/-- Line and column of an offset. -/
def lineCol? (f : SourceFile) (offset : UInt32) : Option (UInt32 × UInt32) := do
  let i ← f.lineIndex? offset
  let start ← f.lineStarts[i]?
  let line ← word? ((UInt32.ofNat i).toNat + 1)
  let column ← word? ((← minus? offset.toNat start.toNat) + 1)
  return (line, column)

/-- The line that holds an offset, without the line feed and the carriage returns before it. -/
def lineText? (f : SourceFile) (offset : UInt32) : Option String := do
  let (line, _) ← f.lineCol? offset
  let start ← f.lineStarts[← minus? line.toNat 1]?
  let stop ←
    match f.lineStarts[line.toNat]? with
    | none => some f.content.utf8ByteSize
    | some next => minus? next.toNat 1
  let text ← sliceBytes? start.toNat stop f.content.toList
  return String.ofList (text.reverse.dropWhile (· = '\x0d')).reverse

end SourceFile

end JavaAbi
