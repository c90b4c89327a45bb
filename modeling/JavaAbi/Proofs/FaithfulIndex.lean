import Mathlib.Data.List.Sort
import JavaAbi.Proofs.IndexOrder

namespace JavaAbi

/-!
# The index is faithful

An index says of a batch what is written in it, no more and no less: its numbers are the places of
the list of all declarations, its entries are the members of the trees, and its names are the dotted
ones. A name finds the first declaration that has it, and the others that contend for the name are
its duplicates.

* `DeclIndex.Contends` — the name of a declaration is its own, and nothing around it is a duplicate;
* `DeclIndex.Faithful` — what an index says of a batch;
* `Settled.reached_iff` — what is around a declaration is found by name unless it is a duplicate;
* `faithful_ofUnits` — the index of every parsed batch is faithful.
-/

namespace DeclIndex

/-! ### What is said of a batch -/

/-- What an index says of a number: the position of a declaration and the declaration. -/
def placed? (x : DeclIndex) (units : List CompilationUnit) (d : DeclId) :
    Option (List Nat × TypeDecl) := do
  let i ← x.get? d
  let tree ← x.tree? units d
  return (i.position, tree)

/-- The declaration `p` stands around the declaration `d`. -/
def Encloses (x : DeclIndex) (p d : DeclId) : Prop :=
  ∃ i j k rest, x.get? p = some i ∧ x.get? d = some j ∧ j.position = i.position ++ k :: rest

/-- A declaration is one of those that a name could find: it has the name, and no declaration around
    it is a duplicate. -/
def Contends (x : DeclIndex) (n : Name) (d : DeclId) : Prop :=
  (∃ i, x.get? d = some i ∧ i.qualifiedName = .named n) ∧
    ∀ e ∈ x.duplicates, ¬x.Encloses e.1 d

/-- **An index is faithful to a batch.** The table `base` is the one that the batch was read with,
    and the table `t` is the one of the names in the index. -/
structure Faithful (units : List CompilationUnit) (base t : NameTable) (x : DeclIndex) : Prop where
  /-- The numbers count all declarations, in order, and lead back to them. -/
  numbers : ∀ d, x.placed? units d = (placedDecls units)[d]?
  /-- A member leads to what it declares. -/
  child : ∀ p m i tree, x.get? p = some i → x.tree? units p = some tree →
    (x.child? p m).bind (x.tree? units) = (tree.members[m]?).bind Member.declares? ∧
      ∀ c, x.child? p m = some c ↔ ∃ j, x.get? c = some j ∧ j.position = i.position ++ [m]
  /-- The member types are those that the members declare as types, in order. -/
  memberTypes : ∀ p tree, x.tree? units p = some tree →
    x.memberTypes p = (List.range tree.members.length).filterMap (x.typeChild? tree p)
  /-- Inside the body of a constant nothing has a name. -/
  anonymous : ∀ d i, x.get? d = some i →
    (i.qualifiedName = .anonymous ↔ InBody units i.unit i.path)
  /-- Elsewhere the name is the dotted one. -/
  named : ∀ d i, x.get? d = some i → ¬InBody units i.unit i.path →
    ∃ n, i.qualifiedName = .named n ∧ t.resolve? n = some (".".intercalate
      ((packageSegments units i.unit ++ namesAt units i.unit i.path).map base.text))
  /-- A name finds the first declaration that contends for it. -/
  find : ∀ n d, x.find? n = some d ↔ x.Contends n d ∧ ∀ e, x.Contends n e → d ≤ e
  /-- The others are its duplicates. -/
  duplicates : ∀ d first, (d, first) ∈ x.duplicates ↔
    ∃ n, x.Contends n d ∧ x.find? n = some first ∧ d ≠ first
  /-- Duplicates are listed in order. -/
  inOrder : (x.duplicates.map Prod.fst).Pairwise (· < ·)

/-! ### Indexes of batches -/

/-- What is known of the index of a batch. -/
structure Settled (units : List CompilationUnit) (base t : NameTable) (x : DeclIndex) : Prop where
  sound : x.Sound units t
  entered : x.Entered x.size
  orderly : x.Orderly units base t
  complete : ∀ p < x.size, x.Complete units p
  top : List.Forall₂ x.StandsAt x.topLevel (topDecls units)

theorem settled_ofUnits {units : List CompilationUnit} {names : NameTable}
    (hs : ∀ u ∈ units, u.Sound names False) (hn : BatchNamed units) :
    (DeclIndex.ofUnits units names).1.Settled units names (DeclIndex.ofUnits units names).2 := by
  obtain ⟨-, hsound, hentered⟩ := sound_and_entered hs
  obtain ⟨horderly, hcomplete, htop⟩ := arranged_ofUnits hs hn
  exact ⟨hsound, hentered, horderly, hcomplete, htop⟩

section Known

variable {x : DeclIndex} {d p : DeclId} {i : DeclInfo}

theorem known?_of_get? (h : x.get? d = some i) : x.known? d = some i.fixed := by
  rw [known?, h]
  rfl

/-- What is known of a declaration is recorded of it. -/
theorem exists_get? (h : x.known? d = some i) : ∃ j, x.get? d = some j ∧ j.fixed = i :=
  Option.map_eq_some_iff.1 h

theorem encloses_iff : x.Encloses p d ↔ ∃ i j k rest, x.known? p = some i ∧ x.known? d = some j ∧
    j.position = i.position ++ k :: rest := by
  constructor
  · rintro ⟨i, j, k, rest, hi, hj, hpos⟩
    exact ⟨i.fixed, j.fixed, k, rest, known?_of_get? hi, known?_of_get? hj, hpos⟩
  · rintro ⟨_, _, k, rest, hi, hj, hpos⟩
    obtain ⟨i, hi', rfl⟩ := exists_get? hi
    obtain ⟨j, hj', rfl⟩ := exists_get? hj
    exact ⟨i, j, k, rest, hi', hj', hpos⟩

theorem placed?_eq_some {units : List CompilationUnit} {a : List Nat} {tree : TypeDecl} :
    x.placed? units d = some (a, tree) ↔
      ∃ i, x.known? d = some i ∧ i.position = a ∧ treeAt units i.unit i.path = some tree := by
  constructor
  · intro hplaced
    obtain ⟨i, hi, hplaced⟩ := Option.bind_eq_some_iff.1 hplaced
    obtain ⟨tree', htree, hpair⟩ := Option.bind_eq_some_iff.1 hplaced
    cases hpair
    rw [tree?, hi] at htree
    exact ⟨i.fixed, known?_of_get? hi, rfl, htree⟩
  · rintro ⟨i, hi, rfl, htree⟩
    obtain ⟨j, hj, rfl⟩ := exists_get? hi
    have htree' : x.tree? units d = some tree := by
      rw [tree?, hj]
      exact htree
    rw [placed?, hj, htree']
    rfl

theorem tree?_of_known? {units : List CompilationUnit} (hi : x.known? d = some i) :
    x.tree? units d = treeAt units i.unit i.path := by
  obtain ⟨j, hj, rfl⟩ := exists_get? hi
  rw [tree?, hj]
  rfl

end Known

/-- A sorted list is known from what it holds: numbers for that, in order, are places in it. -/
theorem eq_getElem?_of_sorted {α : Type} {r : α → α → Prop} {f : Nat → Option α} {size : Nat}
    {list : List α} (hasymm : ∀ a b, r a b → ¬r b a) (hf : ∀ d, (f d).isSome ↔ d < size)
    (hsorted : ∀ d e a b, f d = some a → f e = some b → d < e → r a b)
    (hmem : ∀ a, a ∈ list ↔ ∃ d, f d = some a) (hlist : list.Pairwise r) (d : Nat) :
    f d = list[d]? := by
  have : Std.Irrefl r := ⟨fun a ha => hasymm a a ha ha⟩
  have : Std.Antisymm r := ⟨fun a b hab hba => absurd hba (hasymm a b hab)⟩
  let counted : List α := List.ofFn fun d : Fin size => (f d).get ((hf d).2 d.isLt)
  have hcounted : counted = list := by
    refine List.Pairwise.eq_of_mem_iff (r := r) (List.pairwise_ofFn.2 fun d e hlt => ?_) hlist
      fun a => ?_
    · exact hsorted d e _ _ (Option.some_get _).symm (Option.some_get _).symm hlt
    · rw [hmem, List.mem_ofFn]
      constructor
      · rintro ⟨d, rfl⟩
        exact ⟨d, (Option.some_get _).symm⟩
      · rintro ⟨d, hd⟩
        refine ⟨⟨d, (hf d).1 (Option.isSome_of_mem hd)⟩, ?_⟩
        exact Option.get_of_mem _ hd
  rw [← hcounted, List.getElem?_ofFn]
  split
  · exact (Option.some_get _).symm
  · rename_i hd
    exact Option.not_isSome_iff_eq_none.1 fun hsome => hd ((hf d).1 hsome)

namespace Settled

variable {units : List CompilationUnit} {base t : NameTable} {x : DeclIndex} {d p c : DeclId}
  {i j : DeclInfo} {n : Name} {tree : TypeDecl}

/-! ### Numbers and positions -/

/-- A declaration stands at its position. -/
theorem exists_tree (h : x.Settled units base t) (hi : x.known? d = some i) :
    ∃ tree, treeAt units i.unit i.path = some tree := by
  obtain ⟨j, hj, rfl⟩ := exists_get? hi
  exact Option.isSome_iff_exists.1 (h.sound.infos d j hj).tree

theorem path_ne_nil (h : x.Settled units base t) (hi : x.known? d = some i) : i.path ≠ [] := by
  obtain ⟨tree, htree⟩ := h.exists_tree hi
  obtain ⟨k, rest, -, -, hpath, -⟩ := treeAt_eq_some.1 htree
  rw [hpath]
  exact List.cons_ne_nil k rest

/-- The declaration of a member of a declaration has a number. -/
theorem exists_child (h : x.Settled units base t) (hi : x.known? p = some i)
    (htree : treeAt units i.unit i.path = some tree) {m : Nat} {member : Member} {d : TypeDecl}
    (hm : tree.members[m]? = some member) (hd : member.declares? = some d) :
    ∃ c j, x.child? p m = some c ∧ x.known? c = some j ∧ j.position = i.position ++ [m] := by
  obtain ⟨i', hi', rfl⟩ := exists_get? hi
  have hp := x.lt_size_of_known? (Option.isSome_of_mem hi)
  obtain ⟨c, hc⟩ := (h.complete p hp i' tree hi' htree).1 m member d hm hd
  obtain ⟨i'', j, hi'', hj, hpos⟩ := h.orderly.children p m c hc
  rw [hi] at hi''
  cases hi''
  exact ⟨c, j, hc, hj, hpos⟩

theorem exists_top (h : x.Settled units base t) {a : List Nat} (ha : (a, tree) ∈ topDecls units) :
    ∃ d i, x.known? d = some i ∧ i.position = a := by
  obtain ⟨k, hk, heq⟩ := List.getElem_of_mem ha
  have hlen := h.top.length_eq ▸ hk
  obtain ⟨i, hi, hpos⟩ := List.Forall₂.get h.top hlen hk
  refine ⟨_, i, hi, hpos.trans ?_⟩
  exact congrArg Prod.fst heq

/-- Every declaration of the batch has a number. -/
theorem exists_number (h : x.Settled units base t) {unit : Nat} {path : List Nat}
    (htree : treeAt units unit path = some tree) :
    ∃ d i, x.known? d = some i ∧ i.position = unit :: path := by
  -- Along the path: a declaration below another one is that of a member.
  induction path using List.reverseRecOn generalizing tree with
  | nil => cases htree
  | append_singleton path k ih =>
    by_cases hpath : path = []
    · subst hpath
      obtain ⟨_, _, u, top, hk, hu, htop, -⟩ := treeAt_eq_some.1 htree
      cases hk
      exact h.exists_top (mem_topDecls.2 ⟨unit, u, k, hu, htop, rfl⟩)
    · obtain ⟨around, m, haround, hm, hd⟩ := exists_around htree hpath
      obtain ⟨p, i, hi, hpos⟩ := ih haround
      obtain ⟨rfl, rfl⟩ : i.unit = unit ∧ i.path = path := List.cons.inj hpos
      obtain ⟨c, j, -, hj, hposj⟩ := h.exists_child hi haround hm hd
      exact ⟨c, j, hj, hposj⟩

theorem isSome_placed? (h : x.Settled units base t) : (x.placed? units d).isSome ↔ d < x.size := by
  constructor
  · intro hd
    obtain ⟨⟨a, tree⟩, hplaced⟩ := Option.isSome_iff_exists.1 hd
    obtain ⟨i, hi, -⟩ := placed?_eq_some.1 hplaced
    exact x.lt_size_of_known? (Option.isSome_of_mem hi)
  · intro hd
    have hi := known?_of_get? (Array.getElem?_eq_getElem hd)
    obtain ⟨tree, htree⟩ := h.exists_tree hi
    exact Option.isSome_of_mem (placed?_eq_some.2 ⟨_, hi, rfl, htree⟩)

/-- Numbers are the places of the list of all declarations. -/
theorem numbers (h : x.Settled units base t) (d : DeclId) :
    x.placed? units d = (placedDecls units)[d]? := by
  obtain ⟨hmem, hsorted⟩ := fills_placedDecls units
  refine eq_getElem?_of_sorted (fun x y hxy hyx => Comes.irrefl _ (Comes.trans hxy hyx))
    (fun _ => h.isSome_placed?) ?_ ?_ hsorted d
  · rintro d e ⟨a, tree⟩ ⟨a', tree'⟩ hd he hlt
    obtain ⟨i, hi, rfl, -⟩ := placed?_eq_some.1 hd
    obtain ⟨j, hj, rfl, -⟩ := placed?_eq_some.1 he
    exact h.orderly.sorted d e i j hi hj hlt
  · rintro ⟨a, tree⟩
    rw [hmem]
    constructor
    · rintro ⟨_, rfl, htree⟩
      obtain ⟨unit, hunit, htree⟩ := Option.bind_eq_some_iff.1 htree
      obtain ⟨path, rfl⟩ := List.head?_eq_some_iff.1 hunit
      obtain ⟨d, i, hi, hpos⟩ := h.exists_number htree
      obtain ⟨rfl, rfl⟩ : i.unit = unit ∧ i.path = path := List.cons.inj hpos
      exact ⟨d, placed?_eq_some.2 ⟨i, hi, rfl, htree⟩⟩
    · rintro ⟨d, hplaced⟩
      obtain ⟨i, hi, rfl, htree⟩ := placed?_eq_some.1 hplaced
      exact ⟨i.position, rfl, htree⟩

/-! ### Members -/

/-- **A member leads to what it declares**, and to nothing else. -/
theorem child?_eq_some (h : x.Settled units base t) {m : Nat} (hi : x.known? p = some i) :
    x.child? p m = some c ↔ ∃ j, x.known? c = some j ∧ j.position = i.position ++ [m] := by
  constructor
  · intro hc
    obtain ⟨i', j, hi', hj, hpos⟩ := h.orderly.children p m c hc
    rw [hi] at hi'
    cases hi'
    exact ⟨j, hj, hpos⟩
  · rintro ⟨j, hj, hpos⟩
    obtain ⟨hunit, hpath⟩ : j.unit = i.unit ∧ j.path = i.path ++ [m] := List.cons.inj hpos
    obtain ⟨d, hd⟩ := h.exists_tree hj
    rw [hunit, hpath] at hd
    obtain ⟨tree, member, htree, hm, hdeclares⟩ := exists_around hd (h.path_ne_nil hi)
    obtain ⟨c', j', hc', hj', hpos'⟩ := h.exists_child hi htree hm hdeclares
    rw [hc', h.orderly.eq_of_position hj' hj (hpos'.trans hpos.symm)]

theorem tree?_child (h : x.Settled units base t) {m : Nat} (hi : x.known? p = some i)
    (htree : x.tree? units p = some tree) :
    (x.child? p m).bind (x.tree? units) = (tree.members[m]?).bind Member.declares? := by
  rw [tree?_of_known? hi] at htree
  cases hc : x.child? p m with
  | some c =>
    obtain ⟨j, hj, hpos⟩ := (h.child?_eq_some hi).1 hc
    obtain ⟨hunit, hpath⟩ : j.unit = i.unit ∧ j.path = i.path ++ [m] := List.cons.inj hpos
    rw [Option.bind_some, tree?_of_known? hj, hunit, hpath, treeAt_below htree]
  | none =>
    symm
    rw [Option.bind_none, Option.bind_eq_none_iff]
    intro member hm
    by_contra hd
    obtain ⟨d, hd⟩ := Option.ne_none_iff_exists'.1 hd
    obtain ⟨c, j, hc', -⟩ := h.exists_child hi htree hm hd
    rw [hc] at hc'
    cases hc'

theorem memberTypes_eq (h : x.Settled units base t) (htree : x.tree? units p = some tree) :
    x.memberTypes p = (List.range tree.members.length).filterMap (x.typeChild? tree p) := by
  obtain ⟨i, hi, htree⟩ := Option.bind_eq_some_iff.1 htree
  have hp := x.lt_size_of_known? (Option.isSome_of_mem (known?_of_get? hi))
  rw [memberTypes, hi]
  exact (h.complete p hp i tree hi htree).2

/-! ### Names -/

theorem anonymous_iff (h : x.Settled units base t) (hi : x.known? d = some i) :
    i.qualifiedName = .anonymous ↔ InBody units i.unit i.path := by
  have htitled := h.orderly.titled d i hi
  cases hname : i.qualifiedName with
  | named n =>
    rw [hname] at htitled
    exact ⟨nofun, fun hin => absurd hin htitled.1⟩
  | anonymous =>
    rw [hname] at htitled
    exact ⟨fun _ => htitled, fun _ => rfl⟩
  | notApplicable =>
    rw [hname] at htitled
    exact absurd htitled id

theorem exists_name (h : x.Settled units base t) (hi : x.known? d = some i)
    (hin : ¬InBody units i.unit i.path) : ∃ n, i.qualifiedName = .named n ∧
      t.Joins base (packageSegments units i.unit ++ namesAt units i.unit i.path) n := by
  have htitled := h.orderly.titled d i hi
  cases hname : i.qualifiedName with
  | named n =>
    rw [hname] at htitled
    exact ⟨n, rfl, htitled.2⟩
  | anonymous => exact absurd ((h.anonymous_iff hi).1 hname) hin
  | notApplicable =>
    rw [hname] at htitled
    exact absurd htitled id

/-- What stands around a declaration with a name has a name. -/
theorem exists_name_around (h : x.Settled units base t) (hi : x.known? p = some i)
    (hj : x.known? d = some j) {m : Nat} (hpos : j.position = i.position ++ [m])
    (hn : j.qualifiedName = .named n) : ∃ n, i.qualifiedName = .named n := by
  have hin : ¬InBody units j.unit j.path := by
    rw [← h.anonymous_iff hj, hn]
    nofun
  obtain ⟨hunit, hpath⟩ : j.unit = i.unit ∧ j.path = i.path ++ [m] := List.cons.inj hpos
  rw [hunit, hpath, inBody_below, not_or] at hin
  obtain ⟨n, hn, -⟩ := h.exists_name hi hin.1
  exact ⟨n, hn⟩

/-! ### What names find -/

/-- A name finds a declaration of that name if what is around it is found by name, unless it is a
    duplicate. -/
theorem find?_iff (h : x.Settled units base t) (hi : x.known? d = some i)
    (hn : i.qualifiedName = .named n) : x.find? n = some d ↔
      Reached x.known? x.find? i.parent ∧ ∀ e ∈ x.duplicates, e.1 ≠ d := by
  constructor
  · intro hfind
    obtain ⟨i', hi', -, -, hreached⟩ := h.sound.named n d hfind
    rw [hi] at hi'
    cases hi'
    refine ⟨hreached, ?_⟩
    rintro ⟨d', first⟩ he rfl
    -- A duplicate has the name of an earlier declaration, which is then the one found.
    obtain ⟨hlt, i', n', hi', hn', hfirst, -⟩ := h.entered.earlier _ he
    rw [hi] at hi'
    cases hi'
    rw [hn] at hn'
    cases hn'
    rw [hfind] at hfirst
    cases hfirst
    exact Nat.lt_irrefl _ hlt
  · rintro ⟨hreached, hno⟩
    have hd := x.lt_size_of_known? (Option.isSome_of_mem hi)
    rcases h.entered.reached d hd i n hi hn hreached with hfind | ⟨first, -, he⟩
    · exact hfind
    · exact absurd rfl (hno _ he)

/-- A declaration stands inside its parent and what is around that. -/
theorem encloses_below (hi : x.known? p = some i) (hj : x.known? d = some j) {m : Nat}
    (hpos : j.position = i.position ++ [m]) (h : x.Settled units base t) (e : DeclId) :
    x.Encloses e d ↔ e = p ∨ x.Encloses e p := by
  simp only [encloses_iff]
  constructor
  · rintro ⟨k, j', first, rest, hk, hj', hpos'⟩
    rw [hj] at hj'
    cases hj'
    rw [hpos] at hpos'
    rcases List.eq_nil_or_concat rest with rfl | ⟨front, last, rfl⟩
    · have hsame : i.position = k.position := (List.append_inj' hpos' rfl).1
      exact .inl (h.orderly.eq_of_position hk hi hsame.symm)
    · have hsplit : i.position ++ [m] = (k.position ++ first :: front) ++ [last] := by
        rw [hpos', List.concat_eq_append, List.append_assoc, List.cons_append]
      have hsame : i.position = k.position ++ first :: front := (List.append_inj' hsplit rfl).1
      exact .inr ⟨k, i, first, front, hk, hi, hsame⟩
  · rintro (rfl | ⟨k, i', first, rest, hk, hi', hpos'⟩)
    · exact ⟨i, j, m, [], hi, hj, hpos⟩
    · rw [hi] at hi'
      cases hi'
      exact ⟨k, j, first, rest ++ [m], hk, hj, by simp [hpos, hpos']⟩

/-- **What is around a declaration is found by name** unless one around it is a duplicate. -/
theorem reached_iff (h : x.Settled units base t) (hj : x.known? d = some j)
    (hn : j.qualifiedName = .named n) : Reached x.known? x.find? j.parent ↔
      ∀ e ∈ x.duplicates, ¬x.Encloses e.1 d := by
  -- From the outermost declaration on: the parent has an earlier number.
  induction d using Nat.strongRecOn generalizing j n with
  | ind d ih =>
    have hangs := h.orderly.hangs d j hj
    unfold DeclInfo.Hangs at hangs
    cases hparent : j.parent with
    | none =>
      rw [hparent] at hangs
      obtain ⟨k, hk⟩ := hangs
      have hreached : Reached x.known? x.find? none := by
        intro p hp
        cases hp
      refine ⟨fun _ e _ henc => ?_, fun _ => hreached⟩
      obtain ⟨i, j', first, rest, hi, hj', hpos⟩ := encloses_iff.1 henc
      rw [hj] at hj'
      cases hj'
      -- A declaration at the top has nothing around it.
      have htop : [k] = i.path ++ first :: rest := hk.symm.trans (List.cons.inj hpos).2
      have hlen := congrArg List.length htop
      have hpath := List.length_pos_iff.2 (h.path_ne_nil hi)
      simp only [List.length_append, List.length_cons, List.length_nil] at hlen
      omega
    | some p =>
      rw [hparent] at hangs
      obtain ⟨i, m, hi, hpos⟩ := hangs
      obtain ⟨n', hn'⟩ := h.exists_name_around hi hj hpos hn
      have hlt := h.sound.parent_lt hj hparent
      have hfound : Reached x.known? x.find? (some p) ↔ x.find? n' = some p := by
        constructor
        · intro hr
          obtain ⟨n'', i', hi', hname, hfind⟩ := hr p rfl
          rw [hi] at hi'
          cases hi'
          rw [hn'] at hname
          cases hname
          exact hfind
        · rintro hfind p' ⟨⟩
          exact ⟨n', i, hi, hn', hfind⟩
      rw [hfound, h.find?_iff hi hn', ih p hlt hi hn']
      constructor
      · rintro ⟨haround, hself⟩ e he henc
        rcases (encloses_below hi hj hpos h e.1).1 henc with heq | henc
        · exact hself e he heq
        · exact haround e he henc
      · intro hno
        exact ⟨fun e he henc => hno e he ((encloses_below hi hj hpos h e.1).2 (.inr henc)),
          fun e he heq => hno e he ((encloses_below hi hj hpos h e.1).2 (.inl heq))⟩

theorem contends_iff (h : x.Settled units base t) : x.Contends n d ↔
    ∃ i, x.known? d = some i ∧ i.qualifiedName = .named n ∧
      Reached x.known? x.find? i.parent := by
  constructor
  · rintro ⟨⟨i, hi, hn⟩, hno⟩
    have hi := known?_of_get? hi
    exact ⟨i.fixed, hi, hn, (h.reached_iff hi hn).2 hno⟩
  · rintro ⟨i, hi, hn, hreached⟩
    obtain ⟨i', hi', rfl⟩ := exists_get? hi
    exact ⟨⟨i', hi', hn⟩, (h.reached_iff hi hn).1 hreached⟩

theorem contends_of_find? (h : x.Settled units base t) (hfind : x.find? n = some d) :
    x.Contends n d := by
  obtain ⟨i, hi, hn, -, hreached⟩ := h.sound.named n d hfind
  exact h.contends_iff.2 ⟨i, hi, hn, hreached⟩

/-- A declaration that contends for a name is found, or it is a duplicate of the one found. -/
theorem find?_or_duplicate (h : x.Settled units base t) (hd : x.Contends n d) :
    x.find? n = some d ∨ ∃ first, x.find? n = some first ∧ (d, first) ∈ x.duplicates := by
  obtain ⟨i, hi, hn, hreached⟩ := h.contends_iff.1 hd
  have hsize := x.lt_size_of_known? (Option.isSome_of_mem hi)
  exact h.entered.reached d hsize i n hi hn hreached

/-- A name finds the first declaration that contends for it. -/
theorem find?_eq_some (h : x.Settled units base t) :
    x.find? n = some d ↔ x.Contends n d ∧ ∀ e, x.Contends n e → d ≤ e := by
  constructor
  · intro hfind
    refine ⟨h.contends_of_find? hfind, fun e he => ?_⟩
    rcases h.find?_or_duplicate he with hfind' | ⟨first, hfind', hdup⟩
    · rw [hfind] at hfind'
      cases hfind'
      exact Nat.le_refl d
    · rw [hfind] at hfind'
      cases hfind'
      exact Nat.le_of_lt (h.entered.earlier _ hdup).1
  · rintro ⟨hd, hfirst⟩
    rcases h.find?_or_duplicate hd with hfind | ⟨first, hfind, hdup⟩
    · exact hfind
    · have hle := hfirst first (h.contends_of_find? hfind)
      have hlt := (h.entered.earlier _ hdup).1
      exact absurd hlt (Nat.not_lt.2 hle)

/-- The duplicates are the others that contend for a name. -/
theorem mem_duplicates {first : DeclId} (h : x.Settled units base t) :
    (d, first) ∈ x.duplicates ↔ ∃ n, x.Contends n d ∧ x.find? n = some first ∧ d ≠ first := by
  constructor
  · intro hdup
    obtain ⟨hlt, i, n, hi, hn, hfind, hreached⟩ := h.entered.earlier _ hdup
    exact ⟨n, h.contends_iff.2 ⟨i, hi, hn, hreached⟩, hfind, Nat.ne_of_gt hlt⟩
  · rintro ⟨n, hd, hfind, hne⟩
    rcases h.find?_or_duplicate hd with hself | ⟨first', hfind', hdup⟩
    · rw [hfind] at hself
      exact absurd (Option.some.inj hself).symm hne
    · rw [hfind] at hfind'
      cases hfind'
      exact hdup

/-- **The index of a batch is faithful.** -/
theorem faithful (h : x.Settled units base t) : x.Faithful units base t where
  numbers := h.numbers
  child p m i tree hi htree := by
    have hi := known?_of_get? hi
    refine ⟨h.tree?_child hi htree, fun c => (h.child?_eq_some hi).trans ?_⟩
    constructor
    · rintro ⟨j, hj, hpos⟩
      obtain ⟨j', hj', rfl⟩ := exists_get? hj
      exact ⟨j', hj', hpos⟩
    · rintro ⟨j, hj, hpos⟩
      exact ⟨j.fixed, known?_of_get? hj, hpos⟩
  memberTypes p tree htree := h.memberTypes_eq htree
  anonymous d i hi := by
    have hiff := h.anonymous_iff (known?_of_get? hi)
    exact hiff
  named d i hi hin := by
    obtain ⟨n, hn, hjoins⟩ := h.exists_name (known?_of_get? hi) hin
    exact ⟨n, hn, hjoins.2⟩
  find _ _ := h.find?_eq_some
  duplicates _ _ := h.mem_duplicates
  inOrder := h.orderly.duplicates

end Settled

/-- **The index of a parsed batch is faithful.** It may be made with a table that has more names
    than those of the batch. -/
theorem faithful_ofUnits (files : Batch) {table : NameTable}
    (htable : (parseBatch files).2.1.Le table) :
    let units := (parseBatch files).1
    (DeclIndex.ofUnits units table).1.Faithful units table (DeclIndex.ofUnits units table).2 := by
  intro units
  have hsound : ∀ u ∈ units, u.Sound table False := fun u hu =>
    (parseBatch_sound files u hu).weaken htable False.elim
  have hnamed : BatchNamed units := (parseBatch_fields files).1
  exact (settled_ofUnits hsound hnamed).faithful

/-- A class with the name of an enum. The enum has a body of a constant with a member type, and both
    have a member type of one name. -/
theorem faithful_of_duplicate :
    let files : Batch := #[⟨"A.java", "package p; enum A { X { class In {} } class Y {} }"⟩,
      ⟨"B.java", "package p; class A { class Y {} }"⟩]
    let units := (parseBatch files).1
    let table := (parseBatch files).2.1
    let x := (DeclIndex.ofUnits units table).1
    table.Le table ∧ x.Faithful units table (DeclIndex.ofUnits units table).2 ∧
      x.size = 6 ∧ x.duplicates = [(4, 0)] := by
  intro files units table x
  exact ⟨.refl _, faithful_ofUnits files (.refl _), by decide +kernel, by decide +kernel⟩

end DeclIndex

end JavaAbi
