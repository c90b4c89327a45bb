import JavaAbi.Diagnostics.Basic
import JavaAbi.Text.Source

namespace JavaAbi

/-!
# Rendered diagnostics

A diagnostic is written as a heading, the marked line of its span with a row of carets under it, and
its further lines:

```text
warning[W301]: cannot find symbol `com.example.Base`
 --> Foo.java:2:26
  |
2 | public class Foo extends com.example.Base {}
  |                          ^^^^^^^^^^^^^^^^
   = note: the stub records the reference unresolved
```
-/

/-- `n` copies of a character. -/
def repeated (n : Nat) (c : Char) : String := String.ofList (List.replicate n c)

namespace Diagnostic

/-- Severity and code, coloured if asked. -/
def heading (color : Bool) (d : Diagnostic) : String :=
  let text := d.severity.word ++ "[" ++ d.code.text ++ "]"
  if color then
    "\x1b[1;" ++ (if d.isError then "31" else "33") ++ "m" ++ text ++ "\x1b[0m"
  else text

/-- The text beside the carets: the first primary label. -/
def caretLabel (d : Diagnostic) : String :=
  match d.labels.find? (·.style = .primary) with
  | some l => " " ++ l.message
  | none => ""

/-- The marked line of a span in its file. -/
def excerpt (d : Diagnostic) (f : SourceFile) : String :=
  let (line, column) := f.lineCol d.span.start
  let gutter := toString line
  let pad := repeated gutter.length ' '
  pad ++ "--> " ++ (Location.mk f.path line column).text ++ "\n"
    ++ pad ++ " |\n"
    ++ gutter ++ " | " ++ f.lineText d.span.start ++ "\n"
    ++ pad ++ " | " ++ repeated (column - 1) ' ' ++ repeated (max d.span.length 1) '^'
    ++ d.caretLabel ++ "\n"

/-- A diagnostic as text. One whose span names no file of the batch has no rendering. -/
def render? (color : Bool) (b : Batch) (d : Diagnostic) : Option String := do
  let body ← if d.span.isNowhere then some "" else (b.file? d.span).map d.excerpt
  let notes := d.notes.map ("   = note: " ++ · ++ "\n")
  let help := d.help.map ("   = help: " ++ · ++ "\n")
  return d.heading color ++ ": " ++ d.message ++ "\n" ++ body ++ String.join (notes ++ help)

/-- Renders diagnostics of a batch, one after the other. -/
def renderAll (color : Bool) (b : Batch) (ds : List Diagnostic) : List String :=
  ds.filterMap (render? color b)

end Diagnostic

end JavaAbi
