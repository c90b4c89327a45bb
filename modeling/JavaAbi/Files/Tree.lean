import JavaAbi.Files.Path

namespace JavaAbi

/-!
# File trees

A file tree holds files and directories by the names on the way to them from the root. A path is
looked up from a working directory, through directories that exist.

* `FileTree.place?` — where a path leads;
* `FileTree.isFile`, `FileTree.isDir`, `FileTree.read?`, `FileTree.list?` — what is there;
* `FileTree.makeDirs?`, `FileTree.write?` — the tree with directories, or a file, added;
* `FileTree.changes` — the files that differ from those of an earlier tree.
-/

/-- The names on the way from the root. -/
abbrev Place := List String

/-- A tree of files. A file has no text if its bytes are not UTF-8. -/
structure FileTree where
  files : List (Place × Option String) := []
  dirs : List Place := []
  deriving Inhabited

/-- The place that a path names from a working directory, whatever is there. -/
def FilePath.placeFrom (cwd : Place) (p : FilePath) : Place :=
  p.steps.foldl (fun here step =>
    match step with
    | .root => []
    | .here => here
    | .up => here.dropLast
    | .name n => here ++ [n]) cwd

namespace FileTree

/-! ### Places -/

/-- More than the number of names on the way to any file or directory. -/
def depth (t : FileTree) : Nat :=
  (t.files.map Prod.fst ++ t.dirs).foldl (fun n place => max n place.length) 0 + 1

/-- Whether a file is at a place. -/
def hasFile (t : FileTree) (place : Place) : Bool := t.files.any (·.1 = place)

/-- Whether a directory is at a place: the root, one that was made, or one above a file. -/
def hasDir (t : FileTree) (place : Place) : Bool :=
  place.isEmpty || t.dirs.any (place.isPrefixOf ·)
    || t.files.any fun (p, _) => place.isPrefixOf p && place != p

/-- One step on the way to a place, which starts in a directory. -/
def walk? (t : FileTree) (here : Place) (piece : List Char) : Option Place :=
  if !t.hasDir here then none
  else
    match piece with
    | [] => some here
    | ['.'] => some here
    | ['.', '.'] => some here.dropLast
    | name => some (here ++ [String.ofList name])

/-- The place that a path leads to, with or without something at it. -/
def place? (t : FileTree) (cwd : Place) (p : FilePath) : Option Place :=
  if p.text.isEmpty then none
  else (pieces '/' p.text.toList).foldlM t.walk? (if p.isAbsolute then [] else cwd)

/-- Whether a path leads to a directory. -/
def isDir (t : FileTree) (cwd : Place) (p : FilePath) : Bool :=
  (t.place? cwd p).any t.hasDir

/-- Whether a path leads to a file. -/
def isFile (t : FileTree) (cwd : Place) (p : FilePath) : Bool :=
  (t.place? cwd p).any t.hasFile

/-! ### Reading -/

/-- The text of a file. -/
def read? (t : FileTree) (cwd : Place) (p : FilePath) : Option String := do
  (← t.files.lookup (← t.place? cwd p))

/-- The names in a directory. -/
def list? (t : FileTree) (cwd : Place) (p : FilePath) : Option (List String) := do
  let here ← t.place? cwd p
  if !t.hasDir here then
    none
  let below := (t.files.map Prod.fst ++ t.dirs).filterMap fun place =>
    if here.isPrefixOf place then (place.drop here.length).head? else none
  return below.eraseDups

/-! ### Writing -/

/-- Names that a file can have: they are at most 255 bytes long, and no byte is zero. -/
def admitsName (name : String) : Bool :=
  name.utf8ByteSize ≤ 255 && !name.toList.contains '\x00'

/-- Adds a directory, unless there is one. -/
def addDir? (t : FileTree) (place : Place) : Option FileTree :=
  if t.hasDir place then some t
  else if t.hasFile place || !(place.getLast?.all admitsName) then none
  else some { t with dirs := t.dirs ++ [place] }

/-- Makes every directory on the way along a path. -/
def addDirs? (t : FileTree) (cwd : Place) (p : FilePath) : Option FileTree := do
  let start := if p.isAbsolute then [] else cwd
  let (made, _) ← (pieces '/' p.text.toList).foldlM (fun (t, here) piece => do
    let here ← walk? t here piece
    return (← addDir? t here, here)) (t, start)
  return made

/-- Makes a directory and those on the way to it. A path that ends in a `.` step names no new
    directory: the one that it leads to has to exist, once those above it are made. -/
def makeDirs? (t : FileTree) (cwd : Place) (p : FilePath) : Option FileTree :=
  if p.text.isEmpty then some t
  else if p.endsHere then do
    let made ← t.addDirs? cwd p.parent
    if made.isDir cwd p then some made else none
  else t.addDirs? cwd p

/-- Puts a text into a file, whose directory has to exist. -/
def write? (t : FileTree) (cwd : Place) (p : FilePath) (text : String) : Option FileTree := do
  let place ← t.place? cwd p
  if t.hasDir place || p.fileName?.isNone || !(place.getLast?.all admitsName) then
    none
  let others := t.files.filter (·.1 ≠ place)
  return { t with files := others ++ [(place, some text)] }

/-- The files that an earlier tree does not have, or has with another content. -/
def changes (before after : FileTree) : List (Place × Option String) :=
  after.files.filter fun (place, text) => before.files.lookup place ≠ some text

/-! ### Laws -/

theorem hasDir_nil (t : FileTree) : t.hasDir [] = true := by simp [hasDir]

theorem changes_self_of_nodup (t : FileTree) (h : (t.files.map Prod.fst).Nodup) :
    changes t t = [] := by
  rw [changes, List.filter_eq_nil_iff]
  rintro ⟨place, text⟩ hm
  suffices t.files.lookup place = some text by simp [this]
  generalize t.files = files at h hm
  induction files with
  | nil => cases hm
  | cons f rest ih =>
    obtain ⟨p, x⟩ := f
    rw [List.map_cons, List.nodup_cons] at h
    rcases List.mem_cons.1 hm with heq | hm
    · cases heq
      simp
    · have hne : place ≠ p := fun e => h.1 (e ▸ List.mem_map.2 ⟨_, hm, rfl⟩)
      rw [List.lookup_cons, beq_false_of_ne hne]
      exact ih h.2 hm

end FileTree

end JavaAbi
