import JavaAbi.Text.Pieces

namespace JavaAbi

/-!
# File paths

A path is a text with `/` between its steps. Texts that differ in repeated slashes or in needless
`.` steps write the same path, and compare as equal.

* `FilePath.steps` — what a path goes through;
* `FilePath.join`, `FilePath.parent` — paths from other paths, as texts;
* `FilePath.isJavaSource` — whether a path names a Java source file;
* `FilePath.sorted` — paths in the order of their steps, each once.
-/

/-- A path as it is written. -/
structure FilePath where
  text : String
  deriving DecidableEq, Inhabited, Repr

/-- A step of a path. -/
inductive PathStep where
  | root
  | here
  | up
  | name (name : String)
  deriving DecidableEq, Inhabited, Repr

/-- Whether a step comes before another: by kind, then by name. -/
def PathStep.before (a b : PathStep) : Bool :=
  match a, b with
  | .name m, .name n => m < n
  | a, b => kind a < kind b
where
  kind : PathStep → Nat
    | .root => 0
    | .here => 1
    | .up => 2
    | .name _ => 3

/-- Whether a list of steps comes before another or is the same. -/
def PathStep.notAfter : List PathStep → List PathStep → Bool
  | [], _ => true
  | _ :: _, [] => false
  | a :: as, b :: bs => a.before b || (a = b && notAfter as bs)

namespace FilePath

/-! ### Steps -/

/-- Whether a path starts at the root. -/
def isAbsolute (p : FilePath) : Bool := p.text.toList.head? = some '/'

/-- The steps of the pieces between slashes. A `.` counts only as the start of a relative path. -/
def stepsOf (first : Bool) : List (List Char) → List PathStep
  | [] => []
  | piece :: rest =>
    match piece with
    | [] => stepsOf false rest
    | ['.'] => if first then .here :: stepsOf false rest else stepsOf false rest
    | ['.', '.'] => .up :: stepsOf false rest
    | piece => .name (String.ofList piece) :: stepsOf false rest

/-- The steps of a path. -/
def steps (p : FilePath) : List PathStep :=
  let steps := stepsOf true (pieces '/' p.text.toList)
  if p.isAbsolute then .root :: steps else steps

/-- The name that a path ends in. -/
def fileName? (p : FilePath) : Option String :=
  match p.steps.getLast? with
  | some (.name n) => some n
  | _ => none

/-- Whether the last step that a path writes is `.`, with or without slashes after it. -/
def endsHere (p : FilePath) : Bool :=
  ((pieces '/' p.text.toList).filter (!·.isEmpty)).getLast? = some ['.']

/-! ### Paths from paths -/

/-- The path that `other` names when it is taken from `p`. -/
def join (p : FilePath) (other : String) : FilePath :=
  let front := p.text.toList
  if (FilePath.mk other).isAbsolute then ⟨other⟩
  else if front.isEmpty || front.getLast? = some '/' then ⟨p.text ++ other⟩
  else ⟨p.text ++ "/" ++ other⟩

/-- Drops slashes and `.` steps from the end of a path, whose characters are given from the end. -/
def trimEnd : List Char → List Char
  | ['/'] => ['/']
  | '/' :: rest => trimEnd rest
  | ['.', '/'] => ['/']
  | '.' :: '/' :: rest => trimEnd rest
  | cs => cs

/-- The directory of a file. -/
def parent (p : FilePath) : FilePath :=
  let front := (trimEnd p.text.toList.reverse).dropWhile (· ≠ '/')
  ⟨String.ofList (trimEnd front).reverse⟩

/-! ### Source files -/

/-- Whether a file is a Java source: its name ends in `.java` with something before it, and is not
    that of a module descriptor. -/
def isJavaSource (p : FilePath) : Bool :=
  match p.fileName? with
  | none => false
  | some name =>
    let cs := name.toList
    ".java".toList.isSuffixOf cs && cs.length > 5 && name != "module-info.java"

/-! ### Order -/

/-- Drops a path that has the steps of the path before it. -/
def dropRepeated : List FilePath → List FilePath
  | [] => []
  | p :: rest =>
    match dropRepeated rest with
    | [] => [p]
    | q :: rest => if p.steps = q.steps then p :: rest else p :: q :: rest

/-- Paths in order, the first of those that have the same steps. -/
def sorted (ps : List FilePath) : List FilePath :=
  dropRepeated (ps.mergeSort fun p q => PathStep.notAfter p.steps q.steps)

end FilePath

end JavaAbi
