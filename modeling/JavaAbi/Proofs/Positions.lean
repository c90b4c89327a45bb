import Mathlib.Data.List.Infix
import JavaAbi.Proofs.FieldPlaces
import JavaAbi.Proofs.WrittenTypes

namespace JavaAbi

/-!
# Positions of declarations

A declaration stands in its batch at a position: the number of its file, the number of the top-level
declaration around it, and then member numbers. In lexicographic order, a declaration comes before
those inside it, and these come before what follows it; that is the order in which a batch is read.

* `DeclInfo.position` — the position of a declaration;
* `placedDecls` — all declarations of a batch, in the order of positions;
* `InBody` — the position is inside the body of an enum constant;
* `packageSegments`, `namesAt` — the segments of the canonical name that belongs to a position;
* `Titled` — a name is that one, if there is one.
-/

/-! ### The order of positions -/

/-- Where a declaration stands: its file, then the path in it. -/
def DeclInfo.position (i : DeclInfo) : List Nat := i.unit :: i.path

/-- One position comes before another. -/
abbrev Comes (a b : List Nat) : Prop := List.Lex (· < ·) a b

section Order

variable {a b c : List Nat}

theorem Comes.trans (h : Comes a b) (h' : Comes b c) : Comes a c :=
  List.lex_trans (fun h h' => Nat.lt_trans h h') h h'

theorem Comes.irrefl (a : List Nat) : ¬Comes a a := List.lex_irrefl Nat.lt_irrefl a

theorem Comes.append (h : Comes a b) (front : List Nat) : Comes (front ++ a) (front ++ b) := by
  induction front with
  | nil => exact h
  | cons x rest ih => exact .cons ih

/-- A declaration comes before those inside it. -/
theorem comes_inside (a : List Nat) (k : Nat) : Comes a (a ++ [k]) := by
  have h : Comes ([] : List Nat) [k] := .nil
  simpa using h.append a

/-- What is inside a declaration comes before the next one. -/
theorem comes_next (a rest : List Nat) (k : Nat) : Comes (a ++ k :: rest) (a ++ [k + 1]) :=
  Comes.append (.rel (Nat.lt_succ_self k)) a

end Order

/-! ### Declarations at positions -/

/-- The declaration of a member: a member type, or the body of a constant. -/
def Member.declares? : Member → Option TypeDecl
  | .type d => some d
  | .constant _ body _ => body
  | .field _ => none

/-- Whether a member is a member type. -/
def Member.isType : Member → Bool
  | .type _ => true
  | _ => false

section At

variable {units : List CompilationUnit} {unit k : Nat} {path : List Nat} {tree d : TypeDecl}

theorem treeAt_eq_some : treeAt units unit path = some tree ↔
    ∃ k rest u top, path = k :: rest ∧ units[unit]? = some u ∧ u.types[k]? = some top ∧
      top.follow? rest = some tree := by
  constructor
  · intro h
    match path with
    | k :: rest =>
      obtain ⟨u, hu, h⟩ := Option.bind_eq_some_iff.1 h
      obtain ⟨top, htop, h⟩ := Option.bind_eq_some_iff.1 h
      exact ⟨k, rest, u, top, rfl, hu, htop, h⟩
  · rintro ⟨k, rest, u, top, rfl, hu, htop, h⟩
    simp [treeAt, hu, htop, h]

theorem follow?_one (tree : TypeDecl) (k : Nat) :
    TypeDecl.follow? [k] tree = (tree.members[k]?).bind Member.declares? := by
  rw [TypeDecl.follow?]
  cases tree.members[k]? with
  | none => rfl
  | some m =>
    cases m with
    | type d => rfl
    | field f => rfl
    | constant n body sp => cases body <;> rfl

/-- What stands below a declaration is declared by a member of it. -/
theorem treeAt_below (h : treeAt units unit path = some tree) (k : Nat) :
    treeAt units unit (path ++ [k]) = (tree.members[k]?).bind Member.declares? := by
  rw [treeAt_append h, follow?_one]

/-- Around a declaration that is not at the top there is another one. -/
theorem exists_around (h : treeAt units unit (path ++ [k]) = some d) (hp : path ≠ []) :
    ∃ tree m, treeAt units unit path = some tree ∧ tree.members[k]? = some m ∧
      m.declares? = some d := by
  obtain ⟨first, rest, u, top, hpath, hu, htop, hfollow⟩ := treeAt_eq_some.1 h
  obtain ⟨q, qs, rfl⟩ := List.exists_cons_of_ne_nil hp
  cases hpath
  change TypeDecl.follow? (qs ++ [k]) top = some d at hfollow
  rw [TypeDecl.follow?_append] at hfollow
  obtain ⟨tree, htree, hlast⟩ := Option.bind_eq_some_iff.1 hfollow
  rw [follow?_one] at hlast
  obtain ⟨m, hm, hd⟩ := Option.bind_eq_some_iff.1 hlast
  exact ⟨tree, m, treeAt_eq_some.2 ⟨first, qs, u, top, rfl, hu, htop, htree⟩, hm, hd⟩

/-- A batch of which all member types and top-level types are named. -/
def BatchNamed (units : List CompilationUnit) : Prop :=
  ∀ u ∈ units, ∀ d ∈ u.types, d.NamedAs true

theorem TypeDecl.NamedAs.members {b : Bool} (h : tree.NamedAs b) :
    Member.AllNamed tree.members := by
  cases tree with
  | mk head members =>
    rw [NamedAs] at h
    exact h.2

theorem TypeDecl.NamedAs.name {b : Bool} (h : tree.NamedAs b) : tree.head.name.isSome = b := by
  cases tree with
  | mk head members =>
    rw [NamedAs] at h
    exact h.1

theorem follow?_named {b : Bool} (h : tree.NamedAs b) (hf : tree.follow? path = some d) :
    Member.AllNamed d.members := by
  induction path generalizing tree b with
  | nil =>
    cases hf
    exact h.members
  | cons k rest ih =>
    have hmember : ∀ m, tree.members[k]? = some m → m.Named := fun m hm =>
      Member.allNamed_iff.1 h.members m (List.mem_of_getElem? hm)
    rw [TypeDecl.follow?] at hf
    split at hf
    · rename_i child hm
      have hchild := hmember _ hm
      rw [Member.Named] at hchild
      exact ih hchild hf
    · rename_i n body sp hm
      have hbody := hmember _ hm
      rw [Member.Named] at hbody
      exact ih hbody hf
    · cases hf

/-- A member type has a name, which is a proper one. -/
theorem member_name {base : NameTable} {clean : Prop} (hs : ∀ u ∈ units, u.Sound base clean)
    (hn : BatchNamed units) (h : treeAt units unit path = some tree)
    (hk : tree.members[k]? = some (.type d)) :
    ∃ simple, d.head.name = some simple ∧ base.Proper simple := by
  obtain ⟨first, rest, u, top, -, hu, htop, hfollow⟩ := treeAt_eq_some.1 h
  have hu := List.mem_of_getElem? hu
  have htop := List.mem_of_getElem? htop
  have hmember := List.mem_of_getElem? hk
  have hnamed := Member.allNamed_iff.1 (follow?_named (hn u hu top htop) hfollow) _ hmember
  have hsound := (((hs u hu).types top htop).follow? hfollow).member hmember
  rw [Member.Named] at hnamed
  rw [Member.Sound] at hsound
  obtain ⟨simple, hsimple⟩ := Option.isSome_iff_exists.1 hnamed.name
  refine ⟨simple, hsimple, ?_⟩
  cases d with
  | mk head members =>
    rw [TypeDecl.Sound] at hsound
    exact hsound.1.name simple hsimple

/-- So has a top-level type. -/
theorem top_name {base : NameTable} {clean : Prop} (hs : ∀ u ∈ units, u.Sound base clean)
    (hn : BatchNamed units) {u : CompilationUnit} (hu : units[unit]? = some u)
    (hk : u.types[k]? = some d) : ∃ simple, d.head.name = some simple ∧ base.Proper simple := by
  have hu := List.mem_of_getElem? hu
  have hd := List.mem_of_getElem? hk
  obtain ⟨simple, hsimple⟩ := Option.isSome_iff_exists.1 (hn u hu d hd).name
  have hsound := (hs u hu).types d hd
  refine ⟨simple, hsimple, ?_⟩
  cases d with
  | mk head members =>
    rw [TypeDecl.Sound] at hsound
    exact hsound.1.name simple hsimple

end At

/-! ### The declarations of a batch -/

/-- What is at the members of a list in turn. They stand below `front`, the first at number `k`. -/
def numbered {α β : Type} (f : List Nat → α → List β) (front : List Nat) (k : Nat) :
    List α → List β
  | [] => []
  | a :: rest => f (front ++ [k]) a ++ numbered f front (k + 1) rest

mutual

/-- The declarations of a tree with their positions, each before those inside it. -/
def TypeDecl.placed (place : List Nat) : TypeDecl → List (List Nat × TypeDecl)
  | .mk head members => (place, .mk head members) :: Member.allPlaced place 0 members

/-- The declarations of members, the first of which has the number `k`. -/
def Member.allPlaced (place : List Nat) (k : Nat) : List Member → List (List Nat × TypeDecl)
  | [] => []
  | m :: rest => m.placed (place ++ [k]) ++ Member.allPlaced place (k + 1) rest

/-- The declarations of a member. -/
def Member.placed (place : List Nat) : Member → List (List Nat × TypeDecl)
  | .type d => d.placed place
  | .constant _ (some body) _ => body.placed place
  | .constant _ none _ => []
  | .field _ => []

end

/-- All declarations of a batch with their positions, the bodies of enum constants included: file by
    file, and each declaration before those inside it. -/
def placedDecls (units : List CompilationUnit) : List (List Nat × TypeDecl) :=
  numbered (fun place u => numbered TypeDecl.placed place 0 u.types) [] 0 units

/-- The top-level declarations of a batch with their positions. -/
def topDecls (units : List CompilationUnit) : List (List Nat × TypeDecl) :=
  numbered (fun place u => numbered (fun place d => [(place, d)]) place 0 u.types) [] 0 units

/-- A list gives what `follow` finds below a place, in order. -/
structure Fills (found : List (List Nat × TypeDecl)) (place : List Nat)
    (follow : List Nat → Option TypeDecl) : Prop where
  mem : ∀ a d, (a, d) ∈ found ↔ ∃ path, a = place ++ path ∧ follow path = some d
  sorted : found.Pairwise fun x y => Comes x.1 y.1

section Numbered

variable {α : Type}

/-- What is found below a place at one of the numbered members of a list. -/
def followFrom (g : α → List Nat → Option TypeDecl) (as : List α) : List Nat → Option TypeDecl
  | [] => none
  | j :: path => (as[j]?).bind fun a => g a path

variable {f : List Nat → α → List (List Nat × TypeDecl)}
  {g : α → List Nat → Option TypeDecl} {front : List Nat} {k : Nat} {as : List α}

theorem mem_numbered {x : List Nat × TypeDecl} :
    x ∈ numbered f front k as ↔ ∃ j a, as[j]? = some a ∧ x ∈ f (front ++ [k + j]) a := by
  induction as generalizing k with
  | nil => simp [numbered]
  | cons b rest ih =>
    rw [numbered, List.mem_append, ih]
    constructor
    · rintro (hx | ⟨j, a, ha, hx⟩)
      · exact ⟨0, b, rfl, hx⟩
      · exact ⟨j + 1, a, ha, by rwa [Nat.add_assoc, Nat.add_comm 1 j] at hx⟩
    · rintro ⟨j, a, ha, hx⟩
      cases j with
      | zero =>
        cases ha
        exact .inl hx
      | succ j => exact .inr ⟨j, a, ha, by rwa [Nat.add_assoc, Nat.add_comm 1 j]⟩

/-- What stands below an earlier number comes before what stands below a later one. -/
theorem comes_of_lt {j : Nat} (h : k < j) (path path' : List Nat) :
    Comes (front ++ [k] ++ path) (front ++ [j] ++ path') := by
  rw [List.append_assoc, List.append_assoc]
  exact Comes.append (.rel h) front

theorem sorted_numbered (h : ∀ a ∈ as, ∀ place, Fills (f place a) place (g a)) :
    (numbered f front k as).Pairwise fun x y => Comes x.1 y.1 := by
  induction as generalizing k with
  | nil => exact .nil
  | cons b rest ih =>
    rw [numbered, List.pairwise_append]
    refine ⟨(h b List.mem_cons_self _).sorted, ih fun a ha => h a (List.mem_cons_of_mem b ha), ?_⟩
    rintro ⟨a, d⟩ hx ⟨a', d'⟩ hy
    obtain ⟨path, rfl, -⟩ := ((h b List.mem_cons_self _).mem a d).1 hx
    obtain ⟨j, c, hc, hy⟩ := mem_numbered.1 hy
    have hcmem := List.mem_cons_of_mem b (List.mem_of_getElem? hc)
    obtain ⟨path', rfl, -⟩ := ((h c hcmem _).mem a' d').1 hy
    exact comes_of_lt (by omega) path path'

/-- Lists for the members of a list make up one for all of them. -/
theorem Fills.numbered (h : ∀ a ∈ as, ∀ place, Fills (f place a) place (g a)) :
    Fills (JavaAbi.numbered f front 0 as) front (followFrom g as) where
  mem a d := by
    rw [mem_numbered]
    constructor
    · rintro ⟨j, b, hb, hx⟩
      obtain ⟨path, rfl, hpath⟩ := ((h b (List.mem_of_getElem? hb) _).mem a d).1 hx
      rw [Nat.zero_add, List.append_assoc]
      exact ⟨j :: path, rfl, by rw [followFrom, hb, Option.bind_some, hpath]⟩
    · rintro ⟨path, rfl, hpath⟩
      cases path with
      | nil => cases hpath
      | cons j rest =>
        obtain ⟨b, hb, hpath⟩ := Option.bind_eq_some_iff.1 hpath
        refine ⟨j, b, hb, ((h b (List.mem_of_getElem? hb) _).mem _ d).2 ⟨rest, ?_, hpath⟩⟩
        rw [Nat.zero_add, List.append_assoc]
        rfl
  sorted := sorted_numbered h

theorem Member.allPlaced_eq {ms : List Member} :
    Member.allPlaced front k ms = JavaAbi.numbered Member.placed front k ms := by
  induction ms generalizing k with
  | nil => rw [allPlaced, JavaAbi.numbered]
  | cons m rest ih => rw [allPlaced, JavaAbi.numbered, ih]

end Numbered

/-- What is found below a member is found below what it declares. -/
def Member.follow? (m : Member) (path : List Nat) : Option TypeDecl :=
  m.declares?.bind (TypeDecl.follow? path)

theorem TypeDecl.follow?_cons (d : TypeDecl) (j : Nat) (rest : List Nat) :
    d.follow? (j :: rest) = followFrom Member.follow? d.members (j :: rest) := by
  rw [← List.singleton_append, follow?_append, follow?_one, Option.bind_assoc]
  rfl

mutual

theorem TypeDecl.fills_placed (place : List Nat) :
    (d : TypeDecl) → Fills (d.placed place) place fun path => d.follow? path
  | .mk head members => by
    have hmembers : Fills (Member.allPlaced place 0 members) place
        (followFrom Member.follow? members) := by
      rw [Member.allPlaced_eq]
      exact .numbered (Member.fills_allPlaced members)
    rw [TypeDecl.placed]
    constructor
    · intro a d
      rw [List.mem_cons, hmembers.mem]
      constructor
      · -- The empty path leads to the declaration itself, any other one into its members.
        rintro (hself | ⟨path, rfl, hpath⟩)
        · cases hself
          exact ⟨[], by simp, rfl⟩
        · cases path with
          | nil => cases hpath
          | cons j rest =>
            refine ⟨j :: rest, rfl, ?_⟩
            rw [TypeDecl.follow?_cons]
            exact hpath
      · rintro ⟨path, rfl, hpath⟩
        cases path with
        | nil =>
          cases hpath
          exact .inl (by simp)
        | cons j rest =>
          rw [TypeDecl.follow?_cons] at hpath
          exact .inr ⟨j :: rest, rfl, hpath⟩
    · -- The declaration stands before all that it encloses.
      refine List.pairwise_cons.2 ⟨?_, hmembers.sorted⟩
      rintro ⟨a, d⟩ hx
      obtain ⟨path, rfl, hpath⟩ := (hmembers.mem a d).1 hx
      cases path with
      | nil => cases hpath
      | cons j rest =>
        have hinside : Comes ([] : List Nat) (j :: rest) := .nil
        simpa using hinside.append place

theorem Member.fills_allPlaced : (ms : List Member) → ∀ m ∈ ms, ∀ place,
    Fills (m.placed place) place m.follow?
  | [] => fun _ hm => nomatch hm
  | m :: rest =>
    List.forall_mem_cons.2 ⟨fun place => Member.fills_placed place m, Member.fills_allPlaced rest⟩

theorem Member.fills_placed (place : List Nat) : (m : Member) →
    Fills (m.placed place) place m.follow?
  | .type d => by
    rw [Member.placed]
    exact d.fills_placed place
  | .constant n (some body) sp => by
    rw [Member.placed]
    exact body.fills_placed place
  | .constant n none sp => by
    rw [Member.placed]
    exact ⟨fun a d => by simp [Member.follow?, Member.declares?], .nil⟩
  | .field f => by
    rw [Member.placed]
    exact ⟨fun a d => by simp [Member.follow?, Member.declares?], .nil⟩

end

/-- **The list of all declarations** has one entry for each, and is in the order of positions. -/
theorem fills_placedDecls (units : List CompilationUnit) :
    Fills (placedDecls units) [] fun position => position.head?.bind fun unit =>
      treeAt units unit position.tail := by
  let inTypes (u : CompilationUnit) : List Nat → Option TypeDecl :=
    followFrom (fun d path => d.follow? path) u.types
  have hunits : Fills (placedDecls units) [] (followFrom inTypes units) :=
    .numbered fun u _ place => .numbered fun d _ place => d.fills_placed place
  have hfollow (position : List Nat) : followFrom inTypes units position =
      position.head?.bind fun unit => treeAt units unit position.tail := by
    match position with
    | [] => rfl
    | [unit] => exact Option.bind_fun_none _
    | unit :: k :: rest => rfl
  rw [← funext hfollow]
  exact hunits

/-- The top-level declarations are those at the top. -/
theorem mem_topDecls {units : List CompilationUnit} {a : List Nat} {d : TypeDecl} :
    (a, d) ∈ topDecls units ↔
      ∃ unit u k, units[unit]? = some u ∧ u.types[k]? = some d ∧ a = [unit, k] := by
  rw [topDecls, mem_numbered]
  constructor
  · rintro ⟨unit, u, hu, hd⟩
    obtain ⟨k, d', hd', hmem⟩ := mem_numbered.1 hd
    cases List.mem_singleton.1 hmem
    exact ⟨unit, u, k, hu, hd', by simp⟩
  · rintro ⟨unit, u, k, hu, hd, rfl⟩
    exact ⟨unit, u, hu, mem_numbered.2 ⟨k, d, hd, by simp⟩⟩

/-! ### Canonical names -/

section Names

variable (units : List CompilationUnit) (t : NameTable) (unit : Nat) (path : List Nat)

/-- The declaration at a position is the body of an enum constant. -/
def BodyAt : Prop :=
  ∃ around m tree n body sp, path = around ++ [m] ∧ treeAt units unit around = some tree ∧
    tree.members[m]? = some (.constant n body sp)

/-- The declaration at a position is the body of an enum constant, or lies inside one. -/
def InBody : Prop := ∃ q ∈ path.inits, BodyAt units unit q

/-- The segments of the package of a file. -/
def packageSegments : List Name :=
  ((units[unit]?).bind CompilationUnit.package).elim [] fun p => p.path.segments

/-- The names of the declarations on the way to a position, from the outermost one on. -/
def namesAt : List Name :=
  path.inits.filterMap fun q => (treeAt units unit q).bind fun d => d.head.name

/-- A name of the table `u` writes some names of the table `t`, joined by dots. -/
def NameTable.Joins (u t : NameTable) (segments : List Name) (n : Name) : Prop :=
  ".".intercalate (segments.map t.text) ≠ "" ∧
    u.resolve? n = some (".".intercalate (segments.map t.text))

/-- A name of the table `u` is the canonical one of a position; it is missing inside the body of a
    constant. -/
def Titled (u : NameTable) : QualifiedName → Prop
  | .named n => ¬InBody units unit path ∧
      u.Joins t (packageSegments units unit ++ namesAt units unit path) n
  | .anonymous => InBody units unit path
  | .notApplicable => False

variable {units t unit path}

theorem NameTable.Joins.le {u v : NameTable} {segments : List Name} {n : Name}
    (h : u.Joins t segments n) (hle : u.Le v) : v.Joins t segments n :=
  ⟨h.1, hle _ _ h.2⟩

theorem Titled.le {u v : NameTable} {q : QualifiedName} (h : Titled units t unit path u q)
    (hle : u.Le v) : Titled units t unit path v q := by
  cases q with
  | named n => exact ⟨h.1, h.2.le hle⟩
  | anonymous => exact h
  | notApplicable => exact h

/-- There is one more position on the way to a declaration below another. -/
theorem inits_below (path : List Nat) (k : Nat) :
    (path ++ [k]).inits = path.inits ++ [path ++ [k]] := by
  simp [List.inits_append]

theorem inBody_below (path : List Nat) (k : Nat) :
    InBody units unit (path ++ [k]) ↔ InBody units unit path ∨ BodyAt units unit (path ++ [k]) := by
  simp only [InBody, inits_below, List.mem_append, List.mem_singleton, or_and_right, exists_or,
    exists_eq_left]

theorem namesAt_below {tree : TypeDecl} {k : Nat}
    (h : treeAt units unit (path ++ [k]) = some tree) :
    namesAt units unit (path ++ [k]) = namesAt units unit path ++ tree.head.name.toList := by
  simp only [namesAt, inits_below, List.filterMap_append, List.filterMap_cons, h,
    Option.bind_some, List.filterMap_nil]
  cases tree.head.name <;> rfl

/-- Whether the declaration of a member is a body is known from the member. -/
theorem bodyAt_below {tree : TypeDecl} {m : Member} {k : Nat}
    (h : treeAt units unit path = some tree) (hk : tree.members[k]? = some m) :
    BodyAt units unit (path ++ [k]) ↔ ∃ n body sp, m = .constant n body sp := by
  constructor
  · rintro ⟨around, k', tree', n, body, sp, hpath, htree, hm⟩
    obtain ⟨rfl, hlast⟩ := List.append_inj' hpath rfl
    cases hlast
    rw [h] at htree
    cases htree
    rw [hk] at hm
    exact ⟨n, body, sp, Option.some.inj hm⟩
  · rintro ⟨n, body, sp, rfl⟩
    exact ⟨path, k, tree, n, body, sp, rfl, h, hk⟩

/-- A top-level declaration is no body. -/
theorem not_inBody_top (k : Nat) : ¬InBody units unit [k] := by
  rintro ⟨q, hq, around, m, tree, n, body, sp, rfl, htree, -⟩
  have hnil : around = [] := by simpa using ((List.mem_inits _ _).1 hq).length_le
  subst hnil
  cases htree

/-- One more name is joined by one more dot. -/
theorem joined_intercalate {xs : List String} (h : ".".intercalate xs ≠ "") (simple : String) :
    NameTable.joined (some (".".intercalate xs)) simple = ".".intercalate (xs ++ [simple]) := by
  have hne : xs ≠ [] := by
    rintro rfl
    simp at h
  rw [NameTable.joined, if_neg h, String.intercalate_append_of_ne_nil hne (by simp)]
  simp

end Names

end JavaAbi
