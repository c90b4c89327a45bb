import JavaAbi.Names

namespace JavaAbi

/-!
# Steps on a store of names

A name table rests on a store that issues names for texts. What the table adds to it, joining names
with dots, needs four operations of the store only, and is stated here for any store that has them;
`NameTable.interner` is the one in use.

* `Interner` — the operations of a store;
* `Interner.qualify?`, `Interner.qualifyPath` — dot-joined names;
* `NameStep.run`, `NameStep.runAll` — programs that use a store, refused steps included.
-/

/-- A store that issues names for texts. `fresh` holds the empty text only. -/
structure Interner (σ : Type) where
  fresh : σ
  intern : σ → String → Name × σ
  find? : σ → String → Option Name
  resolve? : σ → Name → Option String
  size : σ → Nat

/-- The store of a name table. -/
def NameTable.interner : Interner NameTable := ⟨fresh, intern, find?, resolve?, size⟩

namespace Interner

variable {σ : Type} (I : Interner σ)

/-- The name of `simple` inside `outer`, dot-joined. Without an outer name, or with the empty one,
    it is `simple` itself; an empty `simple` cannot be qualified. -/
def qualify? (s : σ) (outer : Option Name) (simple : Name) : Option (Name × σ) :=
  if simple = .empty then none
  else
    match outer with
    | none => some (simple, s)
    | some o =>
      if o = .empty then some (simple, s)
      else do
        let outerText ← I.resolve? s o
        let simpleText ← I.resolve? s simple
        return I.intern s (outerText ++ "." ++ simpleText)

/-- Interns each segment of a path and qualifies from left to right. The path so far is `outer`.
    An empty segment stops the walk; the store keeps what was interned before it. -/
def qualifySegments (s : σ) (outer : Option Name) : List String → Option (Option Name) × σ
  | [] => (some outer, s)
  | text :: rest =>
    let (n, s) := I.intern s text
    match I.qualify? s outer n with
    | none => (none, s)
    | some (q, s) => qualifySegments s (some q) rest

/-- The name of a dotted path given by its segments; an empty path has none. -/
def qualifyPath (s : σ) (segments : List String) : Option (Option Name) × σ :=
  I.qualifySegments s none segments

end Interner

/-! ### Programs -/

/-- A step on a store of names. -/
inductive NameStep where
  | intern (text : String)
  | get (text : String)
  | qualify (outer : Option Name) (simple : Name)
  | qualifyPath (segments : List String)
  deriving DecidableEq, Inhabited, Repr

/-- What a step answers. -/
inductive NameAnswer where
  | name (n : Name)
  | nothing
  | refused
  deriving DecidableEq, Inhabited, Repr

namespace NameAnswer

/-- A name, or nothing. -/
def ofName? : Option Name → NameAnswer
  | some n => name n
  | none => nothing

/-- An answer, or a refusal. -/
def ofAnswer? : Option (Option Name) → NameAnswer
  | some n => ofName? n
  | none => refused

end NameAnswer

namespace NameStep

variable {σ : Type} (I : Interner σ)

/-- One step. A refused one leaves what was interned before it was refused. -/
def run (step : NameStep) (s : σ) : NameAnswer × σ :=
  match step with
  | intern text =>
    let (n, s) := I.intern s text
    (.name n, s)
  | get text => (.ofName? (I.find? s text), s)
  | qualify outer simple =>
    match I.qualify? s outer simple with
    | some (n, s) => (.name n, s)
    | none => (.refused, s)
  | qualifyPath segments =>
    let (answer, s) := I.qualifyPath s segments
    (.ofAnswer? answer, s)

/-- Steps in order. -/
def runAll (s : σ) : List NameStep → List NameAnswer × σ
  | [] => ([], s)
  | step :: rest =>
    let (answer, s) := step.run I s
    let (answers, s) := runAll s rest
    (answer :: answers, s)

end NameStep

end JavaAbi
