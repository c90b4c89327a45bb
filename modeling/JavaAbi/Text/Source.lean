import JavaAbi.Text.Bytes
import JavaAbi.Text.Span

namespace JavaAbi

/-!
# Source files

The files of a batch, with the lines and columns of their byte offsets.

* `linePoint` — the line that holds an offset: its number, where it starts, and the text from there;
* `SourceFile.lineCol` — line and column, both from 1, the column in bytes;
* `SourceFile.lineText` — the line without its end;
* `Batch.snippet?`, `Batch.locate?` — the text of a span, and its place as `path:line:column`.

Offsets past the end of a text belong to its last line.
-/

/-- A line of a text: its number from 1, the offset of its start, and the text from there on. -/
structure LinePoint where
  line : Nat
  start : Nat
  text : List Char
  deriving DecidableEq, Repr

/-- The line that holds `offset`, when the text `cs` starts at `pos` inside the line `here`. -/
def linePoint (offset pos : Nat) (here : LinePoint) : List Char → LinePoint
  | [] => here
  | c :: cs =>
    if offset ≤ pos then here
    else if c = '\n' then linePoint offset (pos + 1) ⟨here.line + 1, pos + 1, cs⟩ cs
    else linePoint offset (pos + c.utf8Size) here cs

/-- A file of a batch. -/
structure SourceFile where
  path : String
  content : String
  deriving DecidableEq, Inhabited, Repr

namespace SourceFile

/-- The line that holds an offset. -/
def pointAt (f : SourceFile) (offset : Nat) : LinePoint :=
  linePoint offset 0 ⟨1, 0, f.content.toList⟩ f.content.toList

/-- Line and column of an offset. -/
def lineCol (f : SourceFile) (offset : Nat) : Nat × Nat :=
  let p := f.pointAt offset
  (p.line, offset - p.start + 1)

/-- The line that holds an offset, without the line feed and the carriage returns before it. -/
def lineText (f : SourceFile) (offset : Nat) : String :=
  let line := (f.pointAt offset).text.takeWhile (· ≠ '\n')
  String.ofList (line.reverse.dropWhile (· = '\x0d')).reverse

end SourceFile

/-- The place where a span starts. -/
structure Location where
  path : String
  line : Nat
  column : Nat
  deriving DecidableEq, Inhabited, Repr

/-- A location as diagnostics write it. -/
def Location.text (l : Location) : String :=
  l.path ++ ":" ++ toString l.line ++ ":" ++ toString l.column

/-- The files of a batch; the file of a span is a position in it. -/
abbrev Batch := Array SourceFile

namespace Batch

/-- The file of a span. -/
def file? (b : Batch) (s : Span) : Option SourceFile := s.file.bind (b[·]?)

/-- Where a span starts. -/
def locate? (b : Batch) (s : Span) : Option Location :=
  (b.file? s).map fun f =>
    let (line, column) := f.lineCol s.start
    ⟨f.path, line, column⟩

/-- The text of a span; it has none when an end lies inside a character or past the text. -/
def snippet? (b : Batch) (s : Span) : Option String := do
  let f ← b.file? s
  return String.ofList (← sliceBytes? s.start s.stop f.content.toList)

end Batch

end JavaAbi
