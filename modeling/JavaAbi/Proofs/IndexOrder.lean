import JavaAbi.Proofs.Positions

namespace JavaAbi

/-!
# The order of an index

Declarations are numbered in the order of their positions. When a declaration has been numbered with
all that it encloses, what is recorded of it is complete: its members lead to the declarations below
it.

* `DeclIndex.Orderly` — numbers follow positions, and entries lead one position down;
* `DeclIndex.Complete` — what is recorded of one declaration is all there is to record;
* `Indexing.addDecl_arranges` — numbering a declaration keeps the order, and completes it;
* `DeclIndex.arranged_ofUnits` — so the index of every batch is in order and complete.
-/

/-- A declaration stands at a member of its parent, or at the top. -/
def DeclInfo.Hangs (known : DeclId → Option DeclInfo) (i : DeclInfo) : Prop :=
  i.parent.elim (∃ k, i.path = [k]) fun p =>
    ∃ j m, known p = some j ∧ i.position = j.position ++ [m]

theorem DeclInfo.Hangs.extend {known known' : DeclId → Option DeclInfo} {i : DeclInfo}
    (h : i.Hangs known) (hext : Extends known known') : i.Hangs known' := by
  unfold DeclInfo.Hangs at h ⊢
  cases hp : i.parent with
  | none =>
    rw [hp] at h
    exact h
  | some p =>
    rw [hp] at h
    obtain ⟨j, m, hj, hpos⟩ := h
    exact ⟨j, m, hext p j hj, hpos⟩

namespace DeclIndex

variable {units : List CompilationUnit} {base t u : NameTable} {x y : DeclIndex}
  {d e p : DeclId} {i j info : DeclInfo}

/-! ### Order -/

/-- All declarations come before a position. -/
def Before (x : DeclIndex) (bound : List Nat) : Prop :=
  ∀ d i, x.known? d = some i → Comes i.position bound

theorem Before.trans {a b : List Nat} (h : x.Before a) (hab : Comes a b) : x.Before b :=
  fun d i hi => (h d i hi).trans hab

/-- A declaration stands at the place of an entry of a list. -/
def StandsAt (x : DeclIndex) (d : DeclId) (a : List Nat × TypeDecl) : Prop :=
  ∃ i, x.known? d = some i ∧ i.position = a.1

theorem StandsAt.extend {a : List Nat × TypeDecl} (h : x.StandsAt d a)
    (hext : Extends x.known? y.known?) : y.StandsAt d a := by
  obtain ⟨i, hi, hpos⟩ := h
  exact ⟨i, hext d i hi, hpos⟩

/-- **What is recorded stands in order.** The table `base` is the one of the trees. -/
structure Orderly (units : List CompilationUnit) (base t : NameTable) (x : DeclIndex) : Prop where
  sorted : ∀ d e i j, x.known? d = some i → x.known? e = some j → d < e →
    Comes i.position j.position
  hangs : ∀ d i, x.known? d = some i → i.Hangs x.known?
  titled : ∀ d i, x.known? d = some i → Titled units base i.unit i.path t i.qualifiedName
  children : ∀ p m c, x.child? p m = some c → ∃ i j, x.known? p = some i ∧
    x.known? c = some j ∧ j.position = i.position ++ [m]
  duplicates : (x.duplicates.map Prod.fst).Pairwise (· < ·)
  older : ∀ e ∈ x.duplicates, e.1 < x.size

/-- No two declarations stand at one position. -/
theorem Orderly.eq_of_position (h : x.Orderly units base t) (hi : x.known? d = some i)
    (hj : x.known? e = some j) (hpos : i.position = j.position) : d = e := by
  rcases Nat.lt_trichotomy d e with hlt | heq | hlt
  · exact absurd (hpos ▸ h.sorted d e i j hi hj hlt) (Comes.irrefl _)
  · exact heq
  · exact absurd (hpos ▸ h.sorted e d j i hj hi hlt) (Comes.irrefl _)

/-- Numbers are in the order of positions. -/
theorem Orderly.lt_iff (h : x.Orderly units base t) (hi : x.known? d = some i)
    (hj : x.known? e = some j) : d < e ↔ Comes i.position j.position := by
  refine ⟨h.sorted d e i j hi hj, fun hcomes => ?_⟩
  rcases Nat.lt_trichotomy d e with hlt | rfl | hlt
  · exact hlt
  · rw [hi] at hj
    cases hj
    exact absurd hcomes (Comes.irrefl _)
  · exact absurd (hcomes.trans (h.sorted e d j i hj hi hlt)) (Comes.irrefl _)

theorem Orderly.le (h : x.Orderly units base t) (hle : t.Le u) : x.Orderly units base u :=
  { h with titled := fun d i hi => (h.titled d i hi).le hle }

theorem Orderly.congr (h : x.Orderly units base t) (hknown : y.known? = x.known?)
    (hchild : y.child? = x.child?) (hdup : y.duplicates = x.duplicates) (hsize : y.size = x.size) :
    y.Orderly units base t where
  sorted := by rw [hknown]; exact h.sorted
  hangs := by rw [hknown]; exact h.hangs
  titled := by rw [hknown]; exact h.titled
  children := by rw [hknown, hchild]; exact h.children
  duplicates := by rw [hdup]; exact h.duplicates
  older := by rw [hdup, hsize]; exact h.older

theorem orderly_empty : Orderly units base t {} where
  sorted d e i j hi := by simp [known?, get?] at hi
  hangs d i hi := by simp [known?, get?] at hi
  titled d i hi := by simp [known?, get?] at hi
  children p m c hc := by simp [child?] at hc
  duplicates := .nil
  older e he := by simp at he

/-- A declaration is added that comes after all others. -/
theorem Orderly.push (h : x.Orderly units base t) (hm : info.memberTypes = [])
    (hbefore : x.Before info.position) (hangs : info.Hangs x.known?)
    (htitled : Titled units base info.unit info.path t info.qualifiedName) :
    Orderly units base t { x with decls := x.decls.push info } := by
  have hknown := Indexing.known?_push x hm
  have hext := Indexing.extends_push x hm
  constructor
  · intro d e i j hi hj hlt
    rw [hknown] at hi hj
    -- Of two declarations, the later one is the new one, or both were there.
    by_cases he : e = x.size
    · rw [if_pos he] at hj
      rw [if_neg (Nat.ne_of_lt (he ▸ hlt))] at hi
      cases hj
      exact hbefore d i hi
    · rw [if_neg he] at hj
      have hesize := x.lt_size_of_known? (Option.isSome_of_mem hj)
      rw [if_neg (Nat.ne_of_lt (Nat.lt_trans hlt hesize))] at hi
      exact h.sorted d e i j hi hj hlt
  · intro d i hi
    rw [hknown] at hi
    split at hi
    · cases hi
      exact hangs.extend hext
    · exact (h.hangs d i hi).extend hext
  · intro d i hi
    rw [hknown] at hi
    split at hi
    · cases hi
      exact htitled
    · exact h.titled d i hi
  · intro p m c hc
    obtain ⟨i, j, hi, hj, hpos⟩ := h.children p m c hc
    exact ⟨i, j, hext p i hi, hext c j hj, hpos⟩
  · exact h.duplicates
  · intro e he
    show e.1 < (x.decls.push info).size
    rw [Array.size_push]
    exact Nat.lt_succ_of_lt (h.older e he)

/-- The last declaration may be reported as a duplicate. -/
theorem Orderly.enter {byName : List (Name × DeclId)} {more : List (DeclId × DeclId)}
    (h : x.Orderly units base t) (hsize : x.size = d + 1) (hold : ∀ e ∈ x.duplicates, e.1 < d)
    (hmore : more = [] ∨ ∃ first, more = [(d, first)]) :
    Orderly units base t { x with byName, duplicates := x.duplicates ++ more } := by
  refine { h with duplicates := ?_, older := ?_ }
  · rcases hmore with rfl | ⟨first, rfl⟩
    · simpa using h.duplicates
    · simp only [List.map_append, List.map_cons, List.map_nil, List.pairwise_append]
      refine ⟨h.duplicates, List.pairwise_singleton _ _, fun a ha b hb => ?_⟩
      obtain ⟨e, he, rfl⟩ := List.mem_map.1 ha
      rw [List.mem_singleton.1 hb]
      exact hold e he
  · intro e he
    show e.1 < x.size
    rcases List.mem_append.1 he with he | he
    · exact h.older e he
    · rcases hmore with rfl | ⟨first, rfl⟩
      · cases he
      · rw [List.mem_singleton.1 he]
        exact hsize ▸ Nat.lt_succ_self d

/-- A member leads to a declaration one position down. -/
theorem Orderly.addChild {m : Nat} {c : DeclId} (h : x.Orderly units base t)
    (hi : x.known? p = some i) (hj : x.known? c = some j) (hpos : j.position = i.position ++ [m]) :
    Orderly units base t { x with children := x.children ++ [((p, m), c)] } ∧
      DeclIndex.child? { x with children := x.children ++ [((p, m), c)] } p m = some c ∧
      ∀ q n e, x.child? q n = some e →
        DeclIndex.child? { x with children := x.children ++ [((p, m), c)] } q n = some e := by
  have hchild : ∀ q n, DeclIndex.child? { x with children := x.children ++ [((p, m), c)] } q n =
      (x.child? q n).or (if (q, n) = (p, m) then some c else none) := by
    intro q n
    show (x.children ++ [((p, m), c)]).lookup (q, n) = _
    rw [List.lookup_append]
    by_cases hkey : (q, n) = (p, m)
    · simp [child?, hkey]
    · have hne : ((q, n) == (p, m)) = false := by simpa using hkey
      rw [if_neg hkey, List.lookup_cons, hne]
      rfl
  refine ⟨{ h with children := fun q n e he => ?_ }, ?_, fun q n e he => by rw [hchild, he]; rfl⟩
  · rw [hchild] at he
    cases hold : x.child? q n with
    | some e' =>
      rw [hold] at he
      cases he
      exact h.children q n e hold
    | none =>
      rw [hold, Option.none_or] at he
      split at he
      · rename_i hkey
        cases he
        cases hkey
        exact ⟨i, j, hi, hj, hpos⟩
      · cases he
  · rw [hchild, if_pos rfl]
    cases hold : x.child? p m with
    | none => rfl
    | some c' =>
      -- An earlier entry leads to the same position, and so to the same declaration.
      obtain ⟨i', j', hi', hj', hpos'⟩ := h.children p m c' hold
      rw [hi] at hi'
      cases hi'
      rw [h.eq_of_position hj' hj (hpos'.trans hpos.symm)]
      rfl

/-! ### Completeness -/

/-- The declaration of a member of `tree`, which has the number `p`, if it is a member type. -/
def typeChild? (x : DeclIndex) (tree : TypeDecl) (p : DeclId) (m : Nat) : Option DeclId :=
  if (tree.members[m]?).any Member.isType then x.child? p m else none

/-- **All is recorded of a declaration**: each member that declares a type leads to it, and the
    member types are listed in order. -/
def Complete (units : List CompilationUnit) (x : DeclIndex) (p : DeclId) : Prop :=
  ∀ i tree, x.get? p = some i → treeAt units i.unit i.path = some tree →
    (∀ (m : Nat) member d, tree.members[m]? = some member → member.declares? = some d →
      ∃ c, x.child? p m = some c) ∧
    i.memberTypes = (List.range tree.members.length).filterMap (x.typeChild? tree p)

end DeclIndex

/-- How an index grows while declarations are numbered: what is recorded of earlier ones stays. -/
structure IndexState.Arranges (s t : IndexState) : Prop where
  names : s.names.Le t.names
  size : s.index.size ≤ t.index.size
  get : ∀ d < s.index.size, t.index.get? d = s.index.get? d
  child : ∀ p m c, s.index.child? p m = some c → t.index.child? p m = some c

namespace IndexState.Arranges

variable {s t u : IndexState}

theorem refl (s : IndexState) : s.Arranges s :=
  ⟨.refl _, Nat.le_refl _, fun _ _ => rfl, fun _ _ _ h => h⟩

theorem trans (h : s.Arranges t) (h' : t.Arranges u) : s.Arranges u where
  names := h.names.trans h'.names
  size := Nat.le_trans h.size h'.size
  get d hd := (h'.get d (Nat.lt_of_lt_of_le hd h.size)).trans (h.get d hd)
  child p m c hc := h'.child p m c (h.child p m c hc)

theorem known (h : s.Arranges t) : Extends s.index.known? t.index.known? := by
  intro d i hi
  rw [DeclIndex.known?, h.get d (s.index.lt_size_of_known? (Option.isSome_of_mem hi))]
  exact hi

/-- A member that leads to its declaration leads to it later on. -/
theorem typeChild (h : s.Arranges t) {tree : TypeDecl} {p : DeclId} {m : Nat}
    (hm : ∀ member d, tree.members[m]? = some member → member.declares? = some d →
      ∃ c, s.index.child? p m = some c) :
    t.index.typeChild? tree p m = s.index.typeChild? tree p m := by
  unfold DeclIndex.typeChild?
  split
  · rename_i htype
    cases hmember : tree.members[m]? with
    | none => simp [hmember] at htype
    | some member =>
      rw [hmember] at htype
      cases member with
      | type d =>
        obtain ⟨c, hc⟩ := hm _ d hmember rfl
        rw [hc, h.child p m c hc]
      | field f => simp [Member.isType] at htype
      | constant n body sp => simp [Member.isType] at htype
  · rfl

/-- What is complete stays so. -/
theorem complete {units : List CompilationUnit} {p : DeclId} (h : s.Arranges t)
    (hp : p < s.index.size) (hc : s.index.Complete units p) : t.index.Complete units p := by
  intro i tree hi htree
  rw [h.get p hp] at hi
  obtain ⟨hdeclared, htypes⟩ := hc i tree hi htree
  refine ⟨fun m member d hm hd => ?_, ?_⟩
  · obtain ⟨c, hc⟩ := hdeclared m member d hm hd
    exact ⟨c, h.child p m c hc⟩
  · rw [htypes]
    exact List.filterMap_congr fun m _ => (h.typeChild (hdeclared m)).symm

end IndexState.Arranges

/-- The course of numbering: indexes in order, which grow. -/
def arranging (units : List CompilationUnit) (base : NameTable) : Course IndexState where
  Sound s := base.Le s.names ∧ s.index.Orderly units base s.names
  Grows := IndexState.Arranges
  refl := .refl
  trans := .trans

namespace Indexing

variable {units : List CompilationUnit} {base : NameTable} {s : IndexState}

/-! ### Names -/

/-- A name that is missing writes no names; another one writes some, joined by dots. -/
def Joined (u base : NameTable) (segments : List Name) (outer : Option Name) : Prop :=
  outer.elim (segments = []) (u.Joins base segments)

theorem qualify_arranges {outer : Option Name} {segments : List Name} {simple : Name}
    (ho : Joined s.names base segments outer) (hs : base.Proper simple) :
    (arranging units base).Yields s (qualify outer simple) fun n t =>
      t.index = s.index ∧ t.names.Joins base (segments ++ [simple]) n := by
  refine .sound fun ⟨hbase, _⟩ => ?_
  have hissued : ∀ o ∈ outer, s.names.Issued o := by
    rintro o rfl
    exact ⟨_, ho.2⟩
  have hproper := hs.le hbase
  obtain ⟨n, u, hq, hle, hn⟩ := NameTable.qualify?_eq_some hissued hproper.1 hproper.2
  have hq' : s.names.qualify outer simple = (n, u) := by rw [NameTable.qualify, hq]; rfl
  -- The joined text is that of all segments with dots between them.
  have htext : NameTable.joined (outer.map s.names.text) (s.names.text simple) =
      ".".intercalate ((segments ++ [simple]).map base.text) := by
    rw [NameTable.text_le hs.1 hbase]
    cases outer with
    | none =>
      have hnil : segments = [] := ho
      subst hnil
      simp [NameTable.joined]
    | some o =>
      rw [Option.map_some, NameTable.text_eq ho.2, joined_intercalate ho.1]
      simp
  have hne : ".".intercalate ((segments ++ [simple]).map base.text) ≠ "" := by
    rw [← htext]
    exact NameTable.joined_ne_empty _ (NameTable.text_ne_empty hproper.1 hproper.2)
  unfold qualify
  refine .step (fun ⟨hbase, h⟩ => ?_) (fun _ => ?_) fun _ => ?_
  · rw [hq']
    exact ⟨hbase.trans hle, h.le hle⟩
  · rw [hq']
    exact ⟨hle, Nat.le_refl _, fun _ _ => rfl, fun _ _ _ h => h⟩
  · rw [hq']
    exact ⟨rfl, hne, hn.trans (congrArg some htext)⟩

theorem qualifyPath_arranges {path : List Name} {outer : Option Name} {segments : List Name}
    (ho : Joined s.names base segments outer) (hs : ∀ n ∈ path, base.Proper n) :
    (arranging units base).Yields s (qualifyPath outer path) fun r t =>
      t.index = s.index ∧ Joined t.names base (segments ++ path) r := by
  induction path generalizing s outer segments with
  | nil =>
    rw [List.append_nil]
    exact .pure fun _ => ⟨rfl, ho⟩
  | cons first rest ih =>
    refine (qualify_arranges ho (hs first List.mem_cons_self)).bind fun n t _ _ ⟨hindex, hn⟩ => ?_
    have ho' : Joined t.names base (segments ++ [first]) (some n) := hn
    have hrest := ih ho' fun m hm => hs m (List.mem_cons_of_mem _ hm)
    rw [List.append_assoc] at hrest
    exact hrest.mono fun r u _ _ ⟨hu, hr⟩ => ⟨hu.trans hindex, hr⟩

/-- The name of a package. -/
theorem packageName_arranges {unit : Nat} {u : CompilationUnit} (hu : units[unit]? = some u)
    (hs : u.Sound base False) :
    (arranging units base).Yields s (packageName u.package) fun r t =>
      t.index = s.index ∧ Joined t.names base (packageSegments units unit) r := by
  have hsegments : packageSegments units unit = u.package.elim [] fun p => p.path.segments := by
    rw [packageSegments, hu]
    rfl
  rw [hsegments]
  unfold packageName
  cases hp : u.package with
  | none => exact .pure fun _ => ⟨rfl, rfl⟩
  | some p =>
    have hnone : Joined s.names base [] none := rfl
    exact qualifyPath_arranges hnone (hs.package p hp)

section At

variable {unit k : Nat} {path : List Nat} {tree d : TypeDecl}

/-- The name of a member type. -/
theorem memberName_arranges (hs : ∀ u ∈ units, u.Sound base False) (hn : BatchNamed units)
    {outer : QualifiedName} (h : treeAt units unit path = some tree)
    (hk : tree.members[k]? = some (.type d)) (ho : Titled units base unit path s.names outer) :
    (arranging units base).Yields s (memberName outer d.head.name) fun q t =>
      t.index = s.index ∧ Titled units base unit (path ++ [k]) t.names q := by
  obtain ⟨simple, hsimple, hproper⟩ := member_name hs hn h hk
  have hbelow : treeAt units unit (path ++ [k]) = some d := by
    rw [treeAt_below h, hk]
    rfl
  -- A member type is not the body of a constant.
  have hnobody : ¬BodyAt units unit (path ++ [k]) := by
    rw [bodyAt_below h hk]
    rintro ⟨n, body, sp, hm⟩
    cases hm
  rw [hsimple]
  cases outer with
  | named o =>
    obtain ⟨hout, hjoins⟩ := ho
    have hout' : Joined s.names base (packageSegments units unit ++ namesAt units unit path)
        (some o) := hjoins
    refine (qualify_arranges hout' hproper).bind
      fun n t _ _ ⟨hindex, hn⟩ => .pure fun _ => ⟨hindex, ?_, ?_⟩
    · rw [inBody_below]
      rintro (hin | hbody)
      · exact hout hin
      · exact hnobody hbody
    · rw [namesAt_below hbelow, hsimple, ← List.append_assoc]
      exact hn
  -- Inside of such a body there are no canonical names.
  | anonymous => exact .pure fun _ => ⟨rfl, (inBody_below path k).2 (.inl ho)⟩
  | notApplicable => exact absurd ho id

/-- The name of a top-level type. -/
theorem topName_arranges (hs : ∀ u ∈ units, u.Sound base False) (hn : BatchNamed units)
    {u : CompilationUnit} (hu : units[unit]? = some u) (hk : u.types[k]? = some d)
    {package : Option Name} (hp : Joined s.names base (packageSegments units unit) package) :
    (arranging units base).Yields s (topName package d.head.name) fun q t =>
      t.index = s.index ∧ Titled units base unit [k] t.names q := by
  obtain ⟨simple, hsimple, hproper⟩ := top_name hs hn hu hk
  have hat : treeAt units unit ([] ++ [k]) = some d :=
    treeAt_eq_some.2 ⟨k, [], u, d, rfl, hu, hk, rfl⟩
  have hnames : namesAt units unit [k] = [simple] := by
    have h := namesAt_below hat
    rw [hsimple] at h
    exact h
  rw [hsimple]
  refine (qualify_arranges hp hproper).bind
    fun n t _ _ ⟨hindex, hn⟩ => .pure fun _ => ⟨hindex, not_inBody_top k, ?_⟩
  rw [hnames]
  exact hn

end At

/-! ### Entries -/

/-- A declaration is numbered after all others. -/
theorem number_arranges {info : DeclInfo} {reachable : Bool} (hm : info.memberTypes = [])
    (hbefore : s.index.Before info.position) (hangs : info.Hangs s.index.known?)
    (htitled : Titled units base info.unit info.path s.names info.qualifiedName) :
    (arranging units base).Yields s (number info reachable) fun r t =>
      r.1 = s.index.size ∧ t.index.size = s.index.size + 1 ∧
        t.index.topLevel = s.index.topLevel ∧
        ∀ d, t.index.known? d = if d = s.index.size then some info else s.index.known? d := by
  rintro ⟨hbase, horder⟩
  let pushed : IndexState := { s with index.decls := s.index.decls.push info }
  obtain ⟨r, byName, more, hrun, hmore⟩ := enter_eq s.index.size info.qualifiedName reachable pushed
  let entered : IndexState := { pushed with
    index.byName := byName, index.duplicates := pushed.index.duplicates ++ more }
  have hsize : pushed.index.size = s.index.size + 1 := Array.size_push ..
  have hpushed : pushed.index.Orderly units base s.names := horder.push hm hbefore hangs htitled
  have hentered : entered.index.Orderly units base s.names :=
    hpushed.enter hsize (fun e he => horder.older e he) hmore
  have hgrows : s.Arranges entered :=
    { names := .refl _
      size := Nat.le_of_lt (hsize ▸ Nat.lt_succ_self _)
      get := fun d hd => (get?_push s.index info d).trans (if_neg (Nat.ne_of_lt hd))
      child := fun _ _ _ h => h }
  refine ⟨(s.index.size, r), entered, ?_, ⟨hbase, hentered⟩, hgrows, rfl, hsize,
    rfl, known?_push s.index hm⟩
  unfold number
  rw [StateT.run_bind]
  show ((enter s.index.size info.qualifiedName reachable >>= fun r =>
    pure (s.index.size, r)).run pushed) = _
  rw [StateT.run_bind, hrun]
  rfl

/-- A member leads to its declaration from now on. -/
theorem addChild_arranges {p c : DeclId} {m : Nat} {i j : DeclInfo}
    (hi : s.index.known? p = some i) (hj : s.index.known? c = some j)
    (hpos : j.position = i.position ++ [m]) :
    (arranging units base).Yields s (addChild p m c) fun _ t =>
      t.index.child? p m = some c ∧ t.index.known? = s.index.known? ∧
        t.index.size = s.index.size ∧ t.index.topLevel = s.index.topLevel := by
  have hchild := fun h : s.index.Orderly units base s.names => h.addChild hi hj hpos
  exact .step (fun ⟨hbase, h⟩ => ⟨hbase, (hchild h).1⟩)
    (fun ⟨_, h⟩ => ⟨.refl _, Nat.le_refl _, fun _ _ => rfl, (hchild h).2.2⟩)
    fun ⟨_, h⟩ => ⟨(hchild h).2.1, rfl, rfl, rfl⟩

/-! ### Declarations -/

/-- A place where a declaration of a batch is numbered next. -/
structure Place.Ready (units : List CompilationUnit) (base : NameTable) (s : IndexState)
    (place : Place) (tree : TypeDecl) (around : List Nat) (k : Nat) : Prop where
  path : place.path = around ++ [k]
  tree : treeAt units place.unit place.path = some tree
  before : s.index.Before (place.unit :: place.path)
  hangs : place.parent.elim (around = []) fun p =>
    ∃ j, s.index.known? p = some j ∧ j.position = place.unit :: around
  titled : Titled units base place.unit place.path s.names place.qualifiedName

/-- The declaration there has been numbered with all that it encloses. -/
structure Place.Taken (units : List CompilationUnit) (s : IndexState) (place : Place)
    (around : List Nat) (k : Nat) (id : DeclId) (t : IndexState) : Prop where
  info : ∃ i, t.index.known? id = some i ∧ i.position = place.unit :: place.path
  before : t.index.Before (place.unit :: (around ++ [k + 1]))
  complete : ∀ p, s.index.size ≤ p → p < t.index.size → t.index.Complete units p
  topLevel : t.index.topLevel = s.index.topLevel

/-- The place of a declaration that has its number, with itself as the parent. -/
structure Place.Open (units : List CompilationUnit) (base : NameTable) (s : IndexState)
    (outer : Place) (id : DeclId) (tree : TypeDecl) : Prop where
  tree : treeAt units outer.unit outer.path = some tree
  parent : outer.parent = some id
  known : ∃ i, s.index.known? id = some i ∧ i.position = outer.unit :: outer.path
  titled : Titled units base outer.unit outer.path s.names outer.qualifiedName

theorem Place.Open.grow {outer : Place} {id : DeclId} {tree : TypeDecl} {t : IndexState}
    (h : outer.Open units base s id tree) (hg : s.Arranges t) :
    outer.Open units base t id tree where
  tree := h.tree
  parent := h.parent
  known := by
    obtain ⟨i, hi, hpos⟩ := h.known
    exact ⟨i, hg.known id i hi, hpos⟩
  titled := h.titled.le hg.names

/-- Of the declaration `id`, `n` members from number `k` on have been gone through; `found` are the
    member types among them. -/
structure Place.Filled (units : List CompilationUnit) (s : IndexState) (outer : Place) (id : DeclId)
    (tree : TypeDecl) (k n : Nat) (found : List DeclId) (t : IndexState) : Prop where
  found : found = (List.range' k n).filterMap (t.index.typeChild? tree id)
  declared : ∀ m, k ≤ m → m < k + n → ∀ member d, tree.members[m]? = some member →
    member.declares? = some d → ∃ c, t.index.child? id m = some c
  before : t.index.Before (outer.unit :: (outer.path ++ [k + n]))
  complete : ∀ p, s.index.size ≤ p → p < t.index.size → t.index.Complete units p
  topLevel : t.index.topLevel = s.index.topLevel

section Filled

variable {outer : Place} {id : DeclId} {tree : TypeDecl} {k n : Nat} {found more : List DeclId}
  {t u : IndexState}

/-- No members are left. -/
theorem Place.Filled.none (h : s.index.Before (outer.unit :: (outer.path ++ [k]))) :
    outer.Filled units s id tree k 0 [] s where
  found := rfl
  declared _ hle hlt := absurd hlt (Nat.not_lt.2 hle)
  before := h
  complete _ hle hlt := absurd hlt (Nat.not_lt.2 hle)
  topLevel := rfl

/-- A member that declares nothing. -/
theorem Place.Filled.skip (h : s.index.Before (outer.unit :: (outer.path ++ [k]))) {m : Member}
    (hm : tree.members[k]? = some m) (hd : m.declares? = Option.none) :
    outer.Filled units s id tree k 1 [] s where
  found := by
    have htype : m.isType = false := by
      cases m with
      | type d => cases hd
      | field f => rfl
      | constant n body sp => rfl
    simp [DeclIndex.typeChild?, hm, htype]
  declared m' hle hlt member d hmember hdeclares := by
    obtain rfl : m' = k := by omega
    rw [hm] at hmember
    cases hmember
    rw [hd] at hdeclares
    cases hdeclares
  before := h.trans (comes_next (outer.unit :: outer.path) [] k)
  complete _ hle hlt := absurd hlt (Nat.not_lt.2 hle)
  topLevel := rfl

/-- A member that declares a type. -/
theorem Place.Filled.child {m : Member} {c : DeclId} {place : Place}
    (hm : tree.members[k]? = some m) (htaken : place.Taken units s outer.path k c t)
    (hplace : place.unit = outer.unit) (hg : t.Arranges u) (hsize : u.index.size = t.index.size)
    (hknown : u.index.known? = t.index.known?) (hc : u.index.child? id k = some c)
    (htop : u.index.topLevel = t.index.topLevel) :
    outer.Filled units s id tree k 1 (if m.isType then [c] else []) u where
  found := by
    simp only [List.range'_one, List.filterMap_cons, List.filterMap_nil, DeclIndex.typeChild?, hm,
      Option.any_some, hc]
    cases m.isType <;> rfl
  declared m' hle hlt _ _ _ _ := by
    obtain rfl : m' = k := by omega
    exact ⟨c, hc⟩
  before e i hi := by
    rw [hknown] at hi
    exact hplace ▸ htaken.before e i hi
  complete p hle hlt := by
    rw [hsize] at hlt
    exact hg.complete hlt (htaken.complete p hle hlt)
  topLevel := htop.trans htaken.topLevel

/-- One member, and then others. -/
theorem Place.Filled.append (h : outer.Filled units s id tree k 1 found t)
    (h' : outer.Filled units t id tree (k + 1) n more u) (hg : t.Arranges u) :
    outer.Filled units s id tree k (n + 1) (found ++ more) u where
  found := by
    have hsame : u.index.typeChild? tree id k = t.index.typeChild? tree id k :=
      hg.typeChild (h.declared k (Nat.le_refl k) (Nat.lt_succ_self k))
    rw [h.found, h'.found, List.range'_one, List.range'_succ, List.filterMap_cons,
      List.filterMap_cons, List.filterMap_nil, hsame]
    cases t.index.typeChild? tree id k <;> rfl
  declared m hle hlt member d hm hd := by
    rcases Nat.eq_or_lt_of_le hle with rfl | hk
    · obtain ⟨c, hc⟩ := h.declared k (Nat.le_refl k) (Nat.lt_succ_self k) member d hm hd
      exact ⟨c, hg.child id k c hc⟩
    · exact h'.declared m hk (by omega) member d hm hd
  before := by
    have hnext : k + (n + 1) = k + 1 + n := by omega
    rw [hnext]
    exact h'.before
  complete p hle hlt := by
    by_cases hp : p < t.index.size
    · exact hg.complete hp (h.complete p hle hp)
    · exact h'.complete p (Nat.le_of_not_lt hp) hlt
  topLevel := h'.topLevel.trans h.topLevel

end Filled

section Ready

variable {place : Place} {tree : TypeDecl} {around : List Nat} {k : Nat}

/-- What is entered hangs on the entry of the declaration around it. -/
theorem Place.Ready.entry_hangs (h : place.Ready units base s tree around k) (head : DeclHead) :
    (place.entry head).Hangs s.index.known? := by
  have hangs := h.hangs
  show place.parent.elim (∃ j, place.path = [j]) fun p => ∃ j m, s.index.known? p = some j ∧
    place.unit :: place.path = j.position ++ [m]
  cases hparent : place.parent with
  | none =>
    rw [hparent] at hangs
    obtain rfl : around = [] := hangs
    exact ⟨k, h.path⟩
  | some p =>
    rw [hparent] at hangs
    obtain ⟨j, hj, hpos⟩ := hangs
    exact ⟨j, k, hj, by rw [hpos, h.path]; rfl⟩

/-- All that has a number comes before the members of the declaration that is numbered last. -/
theorem Place.Ready.before_members {head : DeclHead} {u : IndexState}
    (h : place.Ready units base s tree around k)
    (hknown : ∀ d, u.index.known? d =
      if d = s.index.size then some (place.entry head) else s.index.known? d) :
    u.index.Before (place.unit :: (place.path ++ [0])) := by
  have hstep : Comes (place.unit :: place.path) (place.unit :: (place.path ++ [0])) :=
    comes_inside (place.unit :: place.path) 0
  intro d i hi
  rw [hknown] at hi
  split at hi
  · cases hi
    exact hstep
  · exact (h.before d i hi).trans hstep

/-- With its members a declaration is complete, once its member types have been recorded. -/
theorem Place.Ready.taken {u v : IndexState} {reachable : Bool} {types : List DeclId}
    (h : place.Ready units base s tree around k)
    (hself : v.index.known? s.index.size = some (place.entry tree.head))
    (hsize : u.index.size = s.index.size + 1) (htop : u.index.topLevel = s.index.topLevel)
    (hfilled : ({ place with parent := some s.index.size, reachable } : Place).Filled units u
      s.index.size tree 0 tree.members.length types v) :
    place.Taken units s around k s.index.size { v with
      index.decls :=
        v.index.decls.modify s.index.size fun i => { i with memberTypes := types } } := by
  let w : IndexState := { v with
    index.decls := v.index.decls.modify s.index.size fun i => { i with memberTypes := types } }
  have hknownw : w.index.known? = v.index.known? := known?_setMemberTypes v.index _ types
  have hsizew : w.index.size = v.index.size := Array.size_modify ..
  -- Only the entry of the declaration itself is another one now.
  have hgetw : ∀ d, w.index.get? d = if s.index.size = d then
      (v.index.get? d).map fun i => { i with memberTypes := types } else v.index.get? d :=
    fun d => get?_setMemberTypes v.index _ d types
  have hlast := comes_next (place.unit :: around) [0 + tree.members.length] k
  refine ⟨⟨_, hknownw ▸ hself, rfl⟩, ?_, fun p hle hlt => ?_, hfilled.topLevel.trans htop⟩
  · intro d i hi
    rw [hknownw] at hi
    have hbelow := hfilled.before d i hi
    change Comes i.position (place.unit :: (place.path ++ [0 + tree.members.length])) at hbelow
    rw [h.path, List.append_assoc] at hbelow
    exact hbelow.trans hlast
  · change p < w.index.size at hlt
    rw [hsizew] at hlt
    intro i found hi hfound
    change w.index.get? p = some i at hi
    rw [hgetw] at hi
    by_cases hp : s.index.size = p
    · subst hp
      rw [if_pos rfl] at hi
      obtain ⟨j, hj, rfl⟩ := Option.map_eq_some_iff.1 hi
      have hfixed : j.fixed = _ := Option.some.inj ((congrArg _ hj).symm.trans hself)
      have hunit : j.unit = place.unit := congrArg DeclInfo.unit hfixed
      have hpath : j.path = place.path := congrArg DeclInfo.path hfixed
      change treeAt units j.unit j.path = some found at hfound
      rw [hunit, hpath, h.tree] at hfound
      cases hfound
      have hfill := hfilled.found
      rw [← List.range_eq_range'] at hfill
      refine ⟨fun m member d hm hd => ?_, hfill⟩
      have hlen : m < tree.members.length := (List.getElem?_eq_some_iff.1 hm).1
      exact hfilled.declared m (Nat.zero_le m) (by omega) member d hm hd
    · rw [if_neg hp] at hi
      exact hfilled.complete p (hsize ▸ Nat.lt_of_le_of_ne hle hp) hlt i found hi hfound

end Ready

mutual

/-- **Numbering a declaration** keeps the order, and completes it and all that it encloses. -/
theorem addDecl_arranges (hs : ∀ u ∈ units, u.Sound base False) (hn : BatchNamed units)
    {place : Place} {tree : TypeDecl} {around : List Nat} {k : Nat} {s : IndexState}
    (hp : place.Ready units base s tree around k) :
    (arranging units base).Yields s (addDecl place tree) fun id t =>
      place.Taken units s around k id t := by
  match tree with
  | .mk head members =>
    intro hsound
    rw [addDecl_eq]
    obtain ⟨⟨id, reachable⟩, u, hnumber, hu, hgu, hid, hsizeu, htop, hknown⟩ :=
      @number_arranges units base s (place.entry head) place.reachable rfl hp.before
        (hp.entry_hangs head) hp.titled hsound
    obtain rfl : id = s.index.size := hid
    let outer : Place := { place with parent := some s.index.size, reachable }
    have hself : u.index.known? s.index.size = some _ := (hknown _).trans (if_pos rfl)
    have hopen : outer.Open units base u s.index.size (.mk head members) :=
      { tree := hp.tree
        parent := rfl
        known := ⟨_, hself, rfl⟩
        titled := hp.titled.le hgu.names }
    have hat (j : Nat) : members[j]? = (TypeDecl.mk head members).members[0 + j]? := by
      rw [Nat.zero_add]
      rfl
    obtain ⟨types, v, hmembers, hv, hgv, hfilled⟩ :=
      addMembers_arranges hs hn hopen hat (hp.before_members hknown) hu
    let w : IndexState := { v with
      index.decls := v.index.decls.modify s.index.size fun i => { i with memberTypes := types } }
    have hknownw : w.index.known? = v.index.known? := known?_setMemberTypes v.index _ types
    have hsizew : w.index.size = v.index.size := Array.size_modify ..
    have hsw := hgu.trans hgv
    refine ⟨s.index.size, w, ?_, ⟨hv.1, hv.2.congr hknownw rfl rfl hsizew⟩,
      { hsw with size := hsizew ▸ hsw.size, get := fun d hd => ?_ },
      hp.taken (hgv.known _ _ hself) hsizeu htop hfilled⟩
    · rw [StateT.run_bind, hnumber]
      show (addMembers outer s.index.size 0 members >>= fun types => do
        setMemberTypes s.index.size types
        return s.index.size).run u = _
      rw [StateT.run_bind, hmembers]
      rfl
    -- The declarations from before are not the one whose member types are recorded.
    · rw [get?_setMemberTypes, if_neg (Nat.ne_of_gt hd)]
      exact hsw.get d hd

theorem addMembers_arranges (hs : ∀ u ∈ units, u.Sound base False) (hn : BatchNamed units)
    {outer : Place} {id : DeclId} {tree : TypeDecl} {k : Nat} {ms : List Member} {s : IndexState}
    (ho : outer.Open units base s id tree) (hk : ∀ j, ms[j]? = tree.members[k + j]?)
    (hbefore : s.index.Before (outer.unit :: (outer.path ++ [k]))) :
    (arranging units base).Yields s (addMembers outer id k ms) fun found t =>
      outer.Filled units s id tree k ms.length found t := by
  match ms with
  | [] =>
    rw [addMembers]
    exact .pure fun _ => .none hbefore
  | m :: rest =>
    have hm : tree.members[k]? = some m := (hk 0).symm
    have hrest (j : Nat) : rest[j]? = tree.members[k + 1 + j]? := by
      rw [Nat.add_assoc, Nat.add_comm 1 j, ← hk (j + 1)]
      rfl
    rw [addMembers]
    refine (addMember_arranges hs hn ho hm hbefore).bind fun found t _ hg hfilled => ?_
    refine (addMembers_arranges hs hn (ho.grow hg) hrest hfilled.before).bind
      fun more u _ hg' hmore => .pure fun _ => ?_
    exact hfilled.append hmore hg'

theorem addMember_arranges (hs : ∀ u ∈ units, u.Sound base False) (hn : BatchNamed units)
    {outer : Place} {id : DeclId} {tree : TypeDecl} {k : Nat} {m : Member} {s : IndexState}
    (ho : outer.Open units base s id tree) (hm : tree.members[k]? = some m)
    (hbefore : s.index.Before (outer.unit :: (outer.path ++ [k]))) :
    (arranging units base).Yields s (addMember outer id k m) fun found t =>
      outer.Filled units s id tree k 1 found.toList t := by
  -- A type and the body of a constant stand at the same place; they differ in their names.
  have hready (name : QualifiedName) (constant : Option Nat) {d : TypeDecl} {t : IndexState}
      (hd : m.declares? = some d) (hindex : t.index = s.index)
      (hname : Titled units base outer.unit (outer.path ++ [k]) t.names name) :
      Place.Ready units base t
        { outer with path := outer.path ++ [k], qualifiedName := name, constant } d outer.path k :=
    { path := rfl
      tree := by
        dsimp only
        rw [treeAt_below ho.tree, hm]
        exact hd
      before := hindex ▸ hbefore
      hangs := by
        dsimp only
        rw [ho.parent, hindex]
        exact ho.known
      titled := hname }
  match m with
  | .type d =>
    rw [addMember]
    refine (memberName_arranges hs hn ho.tree hm ho.titled).bind
      fun name t _ hg ⟨hindex, hname⟩ => ?_
    refine (addDecl_arranges hs hn (hready name none rfl hindex hname)).bind
      fun child u _ hg' htaken => ?_
    obtain ⟨i, hi, hpos⟩ := ((ho.grow hg).grow hg').known
    obtain ⟨j, hj, hposj⟩ := htaken.info
    have hbelow : j.position = i.position ++ [k] := by rw [hposj, hpos]; rfl
    refine (addChild_arranges hi hj hbelow).bind
      fun _ v _ hg'' ⟨hc, hknown, hsize, htop⟩ => .pure fun _ => ?_
    have htaken' : Place.Taken units s _ outer.path k child u :=
      { htaken with complete := hindex ▸ htaken.complete, topLevel := hindex ▸ htaken.topLevel }
    exact Place.Filled.child hm htaken' rfl hg'' hsize hknown hc htop
  | .constant n (some body) sp =>
    have hbody : Titled units base outer.unit (outer.path ++ [k]) s.names .anonymous :=
      (inBody_below outer.path k).2 (.inr ((bodyAt_below ho.tree hm).2 ⟨n, some body, sp, rfl⟩))
    rw [addMember]
    refine (addDecl_arranges hs hn (hready .anonymous (some k) rfl rfl hbody)).bind
      fun child u _ hg' htaken => ?_
    obtain ⟨i, hi, hpos⟩ := (ho.grow hg').known
    obtain ⟨j, hj, hposj⟩ := htaken.info
    have hbelow : j.position = i.position ++ [k] := by rw [hposj, hpos]; rfl
    refine (addChild_arranges hi hj hbelow).bind
      fun _ v _ hg'' ⟨hc, hknown, hsize, htop⟩ => .pure fun _ => ?_
    exact Place.Filled.child hm htaken rfl hg'' hsize hknown hc htop
  | .constant n none sp =>
    rw [addMember]
    exact .pure fun _ => .skip hbefore hm rfl
  | .field f =>
    rw [addMember]
    exact .pure fun _ => .skip hbefore hm rfl

end

/-! ### Files -/

/-- Changes of what the index records of files keep the order of declarations. -/
theorem record_arranges {f : DeclIndex → DeclIndex} (hd : (f s.index).decls = s.index.decls)
    (hc : (f s.index).children = s.index.children)
    (hdup : (f s.index).duplicates = s.index.duplicates) :
    (arranging units base).Yields s (modify fun s => { s with index := f s.index }) fun _ t =>
      t.names = s.names ∧ t.index.known? = s.index.known? ∧ t.index.size = s.index.size ∧
        t.index.topLevel = (f s.index).topLevel := by
  have hget : (f s.index).get? = s.index.get? := by
    funext d
    rw [DeclIndex.get?, DeclIndex.get?, hd]
  have hknown : (f s.index).known? = s.index.known? := by
    funext d
    rw [DeclIndex.known?, DeclIndex.known?, hget]
  have hchild : (f s.index).child? = s.index.child? := by
    funext p m
    rw [DeclIndex.child?, DeclIndex.child?, hc]
  have hsize : (f s.index).size = s.index.size := congrArg Array.size hd
  refine .step (fun h => ⟨h.1, h.2.congr hknown hchild hdup hsize⟩)
    (fun _ => ⟨.refl _, Nat.le_of_eq hsize.symm, fun d _ => congrFun hget d, fun p m c hm => ?_⟩)
    fun _ => ⟨rfl, hknown, hsize, rfl⟩
  show (f s.index).child? p m = some c
  rw [hchild]
  exact hm

theorem addImports_arranges {is : List ImportDecl} {imports : UnitImports}
    (hn : ∀ i ∈ is, ∀ n ∈ i.path.segments, base.Proper n) :
    (arranging units base).Yields s (is.foldlM addImport imports) fun _ t =>
      t.index = s.index := by
  induction is generalizing s imports with
  | nil => exact .pure fun _ => rfl
  | cons i rest ih =>
    rw [List.foldlM_cons]
    have himport : (arranging units base).Yields s (addImport imports i) fun _ t =>
        t.index = s.index := by
      have hnone : Joined s.names base [] none := rfl
      refine (qualifyPath_arranges hnone (hn i List.mem_cons_self)).bind
        fun path t _ _ ⟨hindex, _⟩ => ?_
      split <;> exact .pure fun _ => hindex
    refine himport.bind fun _ t _ _ hindex => ?_
    exact (ih fun j hj => hn j (List.mem_cons_of_mem i hj)).mono
      fun _ u _ _ hu => hu.trans hindex

/-- The last ones of the top-level declarations are those of a list, in order. -/
def EndsWith (x : DeclIndex) (old : List DeclId) (places : List (List Nat × TypeDecl)) : Prop :=
  ∃ ds, x.topLevel = old ++ ds ∧ List.Forall₂ x.StandsAt ds places

theorem EndsWith.trans {x y : DeclIndex} {old : List DeclId} {as bs : List (List Nat × TypeDecl)}
    (h : EndsWith x old as) (h' : EndsWith y x.topLevel bs) (hext : Extends x.known? y.known?) :
    EndsWith y old (as ++ bs) := by
  obtain ⟨ds, htop, hds⟩ := h
  obtain ⟨es, htop', hes⟩ := h'
  refine ⟨ds ++ es, by rw [htop', htop, List.append_assoc], List.rel_append ?_ hes⟩
  exact hds.imp fun d a hd => hd.extend hext

/-- Top-level declarations of a file, from number `k` on, have been numbered. -/
structure Listed (units : List CompilationUnit) (s : IndexState) (unit k : Nat)
    (ds : List TypeDecl) (t : IndexState) : Prop where
  before : t.index.Before [unit, k + ds.length]
  complete : ∀ p, s.index.size ≤ p → p < t.index.size → t.index.Complete units p
  top : EndsWith t.index s.index.topLevel (numbered (fun place d => [(place, d)]) [unit] k ds)

theorem addTypes_arranges (hs : ∀ u ∈ units, u.Sound base False) (hn : BatchNamed units)
    {unit k : Nat} {package : Option Name} {u : CompilationUnit} {ds : List TypeDecl}
    (hu : units[unit]? = some u) (hk : ∀ j, ds[j]? = u.types[k + j]?)
    (hp : Joined s.names base (packageSegments units unit) package)
    (hbefore : s.index.Before [unit, k]) :
    (arranging units base).Yields s (addTypes unit package k ds) fun _ t =>
      Listed units s unit k ds t := by
  induction ds generalizing s k with
  | nil =>
    exact .pure fun _ => ⟨hbefore, fun p hle hlt => absurd hlt (Nat.not_lt.2 hle),
      [], (List.append_nil _).symm, .nil⟩
  | cons d rest ih =>
    have hd : u.types[k]? = some d := (hk 0).symm
    rw [addTypes]
    refine (topName_arranges hs hn hu hd hp).bind fun name t _ hg hnamed => ?_
    obtain ⟨hindex, hname⟩ := hnamed
    have hready : Place.Ready units base t ⟨unit, none, [k], name, none, true⟩ d [] k :=
      { path := rfl
        tree := treeAt_eq_some.2 ⟨k, [], u, d, rfl, hu, hd, rfl⟩
        before := hindex ▸ hbefore
        hangs := rfl
        titled := hname }
    refine (addDecl_arranges hs hn hready).bind fun id v _ hg' htaken => ?_
    refine (record_arranges (f := fun x => { x with topLevel := x.topLevel ++ [id] })
      rfl rfl rfl).bind fun _ w _ hg'' hrecord => ?_
    obtain ⟨hnames, hknown, hsize, htop⟩ := hrecord
    have hjoined : Joined w.names base (packageSegments units unit) package := by
      have hle := (hg.trans hg').names
      rw [hnames]
      cases package with
      | none => exact hp
      | some n => exact NameTable.Joins.le hp hle
    -- The next type comes after the first one and all that the first one encloses.
    have hnext : w.index.Before [unit, k + 1] := by
      intro e i hi
      rw [hknown] at hi
      exact htaken.before e i hi
    have hrest (j : Nat) : rest[j]? = u.types[k + 1 + j]? := by
      rw [Nat.add_assoc, Nat.add_comm 1 j, ← hk (j + 1)]
      rfl
    refine (ih hrest hjoined hnext).mono fun _ x _ hgx hlisted => ?_
    have hlen : k + (d :: rest).length = k + 1 + rest.length := by
      rw [List.length_cons]
      omega
    refine ⟨hlen ▸ hlisted.before, fun p hle hlt => ?_, ?_⟩
    · -- A declaration is one of the first type, complete since then, or one of the others.
      by_cases hpw : p < w.index.size
      · refine hgx.complete hpw (hg''.complete (hsize ▸ hpw) (htaken.complete p ?_ (hsize ▸ hpw)))
        rw [hindex]
        exact hle
      · exact hlisted.complete p (Nat.le_of_not_lt hpw) hlt
    · obtain ⟨i, hi, hpos⟩ := htaken.info
      have hfirst : EndsWith w.index s.index.topLevel [([unit, k], d)] := by
        refine ⟨[id], ?_, .cons ⟨i, hg''.known id i hi, hpos⟩ .nil⟩
        rw [htop, htaken.topLevel, hindex]
      exact hfirst.trans hlisted.top hgx.known

/-- Files from number `k` on have been indexed. -/
structure Indexed (units : List CompilationUnit) (s : IndexState) (k : Nat)
    (us : List CompilationUnit) (t : IndexState) : Prop where
  before : t.index.Before [k + us.length]
  complete : ∀ p, s.index.size ≤ p → p < t.index.size → t.index.Complete units p
  top : EndsWith t.index s.index.topLevel
    (numbered (fun place u => numbered (fun place d => [(place, d)]) place 0 u.types) [] k us)

theorem addUnit_arranges (hs : ∀ u ∈ units, u.Sound base False) (hn : BatchNamed units)
    {unit : Nat} {u : CompilationUnit} (hu : units[unit]? = some u)
    (hbefore : s.index.Before [unit]) :
    (arranging units base).Yields s (addUnit unit u) fun _ t => Indexed units s unit [u] t := by
  have hsound := hs u (List.mem_of_getElem? hu)
  unfold addUnit
  refine (packageName_arranges hu hsound).bind fun package t _ hg ⟨hindex, hpackage⟩ => ?_
  refine (record_arranges (f := fun x => { x with packages := x.packages ++ [package] })
    rfl rfl rfl).bind fun _ v _ hg₁ ⟨hnames₁, hknown₁, hsize₁, htop₁⟩ => ?_
  refine (addImports_arranges hsound.imports).bind fun imports w _ hg₂ hindex₂ => ?_
  refine (record_arranges (f := fun x => { x with imports := x.imports ++ [imports] })
    rfl rfl rfl).bind fun _ x _ hg₃ ⟨hnames₃, hknown₃, hsize₃, htop₃⟩ => ?_
  -- Recording the package and the imports changes no declaration.
  have hknown : x.index.known? = s.index.known? := by
    rw [hknown₃, hindex₂, hknown₁, hindex]
  have hsize : x.index.size = s.index.size := by
    rw [hsize₃, hindex₂, hsize₁, hindex]
  have htop : x.index.topLevel = s.index.topLevel := by
    rw [htop₃, hindex₂, htop₁, hindex]
  have hjoined : Joined x.names base (packageSegments units unit) package := by
    have hle := (hg₁.trans (hg₂.trans hg₃)).names
    cases package with
    | none => exact hpackage
    | some n => exact NameTable.Joins.le hpackage hle
  have hstart : x.index.Before [unit, 0] := by
    intro d i hi
    rw [hknown] at hi
    exact (hbefore d i hi).trans (comes_inside [unit] 0)
  refine (addTypes_arranges hs hn hu (fun j => by rw [Nat.zero_add]) hjoined hstart).mono
    fun _ y _ _ hlisted => ⟨?_, ?_, ?_⟩
  · exact hlisted.before.trans (comes_next [] [0 + u.types.length] unit)
  · rw [← hsize]
    exact hlisted.complete
  · rw [numbered, numbered, List.append_nil, ← htop]
    exact hlisted.top

theorem addUnits_arranges (hs : ∀ u ∈ units, u.Sound base False) (hn : BatchNamed units) {k : Nat}
    {us : List CompilationUnit} (hk : ∀ j, us[j]? = units[k + j]?)
    (hbefore : s.index.Before [k]) :
    (arranging units base).Yields s (addUnits k us) fun _ t =>
      Indexed units s k us t := by
  induction us generalizing s k with
  | nil =>
    exact .pure fun _ => ⟨hbefore, fun p hle hlt => absurd hlt (Nat.not_lt.2 hle),
      [], (List.append_nil _).symm, .nil⟩
  | cons u rest ih =>
    have hu : units[k]? = some u := (hk 0).symm
    have hrest (j : Nat) : rest[j]? = units[k + 1 + j]? := by
      rw [Nat.add_assoc, Nat.add_comm 1 j, ← hk (j + 1)]
      rfl
    rw [addUnits]
    refine (addUnit_arranges hs hn hu hbefore).bind fun _ t _ hg hfirst => ?_
    refine (ih hrest hfirst.before).mono fun _ v _ hg' hothers => ?_
    have hlen : k + (u :: rest).length = k + 1 + rest.length := by
      rw [List.length_cons]
      omega
    refine ⟨hlen ▸ hothers.before, fun p hle hlt => ?_, ?_⟩
    · by_cases hp : p < t.index.size
      · exact hg'.complete hp (hfirst.complete p hle hp)
      · exact hothers.complete p (Nat.le_of_not_lt hp) hlt
    · have hboth := hfirst.top.trans hothers.top hg'.known
      rw [numbered, numbered, List.append_nil] at hboth
      exact hboth

end Indexing

/-- **The index of a batch** is in order and complete, and starts from all top-level declarations, in
    order. -/
theorem DeclIndex.arranged_ofUnits {units : List CompilationUnit} {names : NameTable}
    (hs : ∀ u ∈ units, u.Sound names False) (hn : BatchNamed units) :
    let x := (DeclIndex.ofUnits units names).1
    x.Orderly units names (DeclIndex.ofUnits units names).2 ∧
      (∀ p < x.size, x.Complete units p) ∧ List.Forall₂ x.StandsAt x.topLevel (topDecls units) := by
  have hbefore : DeclIndex.Before {} [0] := by
    intro d i hi
    simp [known?, get?] at hi
  obtain ⟨_, t, hrun, ht, -, hindexed⟩ := Indexing.addUnits_arranges (s := { names }) hs hn (k := 0)
    (fun j => by rw [Nat.zero_add]) hbefore ⟨.refl _, orderly_empty⟩
  rw [DeclIndex.ofUnits, hrun]
  refine ⟨ht.2, fun p hp => hindexed.complete p (Nat.zero_le p) hp, ?_⟩
  obtain ⟨ds, htop, hds⟩ := hindexed.top
  rw [htop]
  exact hds

end JavaAbi
