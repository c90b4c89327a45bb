import JavaAbi.Proofs.Resolution

namespace JavaAbi

/-!
# Types of a session follow the rules

What is written in a scope is read as the rules say, and a type that a session holds looks the same in
symbols however the session has changed.

* `reads_scopeOf` — the scope inside a declaration;
* `Session.Holds`, `Session.view` — the types of a session, and what they look like in symbols;
* `typeOf_follows` — the type that is written in a scope.
-/

open Course Stage

/-! ### Trees -/

theorem TypeRef.Sound.withDimensions {t : NameTable} {r : TypeRef} (h : r.Sound t) (span : Span)
    (n : Nat) : (Element.withDimensions span n r).Sound t := by
  induction n generalizing r with
  | zero => exact h
  | succ n ih => exact ih (.array r span h)

theorem TypeDecl.Sound.head {t : NameTable} {c : Prop} {d : TypeDecl} (h : d.Sound t c) :
    d.head.Sound t c := by
  cases d with
  | mk head members =>
    rw [TypeDecl.Sound] at h
    exact h.1

theorem TypeDecl.Sound.member {t : NameTable} {c : Prop} {d : TypeDecl} (h : d.Sound t c) {m : Member}
    (hm : m ∈ d.members) : m.Sound t c := by
  cases d with
  | mk head members =>
    rw [TypeDecl.Sound] at h
    exact Member.allSound_iff.1 h.2 m hm

theorem TypeDecl.Sound.follow? {t : NameTable} {c : Prop} {d tree : TypeDecl} {path : List Nat}
    (h : d.Sound t c) (hp : d.follow? path = some tree) : tree.Sound t c := by
  induction path generalizing d with
  | nil =>
    cases hp
    exact h
  | cons i rest ih =>
    rw [TypeDecl.follow?] at hp
    split at hp
    · rename_i child hm
      have hc := h.member (List.mem_of_getElem? hm)
      rw [Member.Sound] at hc
      exact ih hc hp
    · rename_i n body sp hm
      have hc := h.member (List.mem_of_getElem? hm)
      rw [Member.Sound] at hc
      exact ih hc.2.2 hp
    · cases hp

/-- The trees that an index numbers are sound. -/
theorem DeclIndex.sound_of_tree? {x : DeclIndex} {units : List CompilationUnit} {t : NameTable}
    {c : Prop} {d : DeclId} {tree : TypeDecl} (h : ∀ u ∈ units, u.Sound t c)
    (hd : x.tree? units d = some tree) : tree.Sound t c := by
  obtain ⟨i, -, hi⟩ := Option.bind_eq_some_iff.1 hd
  cases hp : i.path with
  | nil => rw [hp] at hi; cases hi
  | cons k rest =>
    rw [hp] at hi
    obtain ⟨u, hu, hi⟩ := Option.bind_eq_some_iff.1 hi
    obtain ⟨top, htop, hi⟩ := Option.bind_eq_some_iff.1 hi
    exact ((h u (List.mem_of_getElem? hu)).types top (List.mem_of_getElem? htop)).follow? hi

/-- So are their members. -/
theorem World.member_sound {w : World} {t : NameTable} {c : Prop} {d : DeclId} {m : Nat} {x : Member}
    (h : ∀ u ∈ w.units, u.Sound t c) (hx : w.member? d m = some x) : x.Sound t c := by
  obtain ⟨tree, htree, hm⟩ := Option.bind_eq_some_iff.1 hx
  exact (DeclIndex.sound_of_tree? h htree).member (List.mem_of_getElem? hm)

/-- The name of a constant is one of the table. -/
theorem Member.Sound.constant_issued {t : NameTable} {c : Prop} {n : Name} {body : Option TypeDecl}
    {place : Span} (h : (Member.constant n body place).Sound t c) : t.Issued n := by
  cases body with
  | none =>
    rw [Member.Sound] at h
    exact h.1
  | some tree =>
    rw [Member.Sound] at h
    exact h.1.1

/-- So is that of a variable. -/
theorem Member.Sound.variable_issued {t : NameTable} {c : Prop} {f : FieldDecl} {v : Variable}
    (h : (Member.field f).Sound t c) (hv : v ∈ f.declarators) : t.Issued v.name := by
  rw [Member.Sound] at h
  exact (h.declarators v hv).1

/-! ### Scopes -/

namespace World

variable {w : World}

/-- The chain of a declaration does not depend on the bound, which suffices. -/
theorem chain_eq (hw : w.Sound) {d : DeclId} {n m : Nat} (hn : d < n) (hm : d < m) :
    w.chain n d = w.chain m d := by
  induction n generalizing d m with
  | zero => exact absurd hn (Nat.not_lt_zero _)
  | succ n ih =>
    cases m with
    | zero => exact absurd hm (Nat.not_lt_zero _)
    | succ m =>
      rw [chain, chain]
      cases hp : (w.index.get? d).bind DeclInfo.parent with
      | none => rfl
      | some p =>
        obtain ⟨i, hi, hip⟩ := Option.bind_eq_some_iff.1 hp
        have hlt := ((hw.index.infos d i hi).parent p hip).1
        dsimp only
        rw [ih (Nat.lt_of_lt_of_le hlt (Nat.le_of_lt_succ hn))
          (Nat.lt_of_lt_of_le hlt (Nat.le_of_lt_succ hm))]

theorem chain_parent (hw : w.Sound) {d p : DeclId} {i : DeclInfo} (hi : w.index.get? d = some i)
    (hp : i.parent = some p) : w.chain (d + 1) d = d :: w.chain (p + 1) p := by
  have hlt := ((hw.index.infos d i hi).parent p hp).1
  rw [chain, hi, Option.bind_some, hp]
  dsimp only
  rw [chain_eq hw hlt (Nat.lt_succ_self p)]

theorem chain_top {d : DeclId} {i : DeclInfo} (hi : w.index.get? d = some i)
    (hp : i.parent = none) : w.chain (d + 1) d = [d] := by
  rw [chain, hi, Option.bind_some, hp]

end World

variable {g : Stage} {w : World} {s : Session}

/-- The element of a declaration is a level of scopes. -/
theorem Session.Resolved.level (hs : s.Resolved w) {d : DeclId} {id : ElementId}
    (hp : s.index.Primary d) (hd : s.Denotes (s.index.keyOf d) id) : s.Level w (d, id) :=
  ⟨hp, ⟨_, hd, hs.of.symbol_keyOf hs.world d⟩, Session.isType_symbolOf _ _⟩

theorem reads_scopeChain (hs : s.Resolved w) {fuel : Nat} {d : DeclId} {id : ElementId}
    {i : DeclInfo} (hp : s.index.Primary d) (hd : s.Denotes (s.index.keyOf d) id)
    (hi : s.index.get? d = some i) (hf : id < fuel) :
    ∃ chain, Reads s (scopeChain fuel (some id)) (chain, some i.unit) ∧
      chain.map Prod.fst = w.chain (d + 1) d ∧ ∀ level ∈ chain, s.Level w level := by
  induction fuel using Nat.strongRecOn generalizing d id i with
  | ind fuel ih =>
    match fuel with
    | 0 => exact absurd hf (Nat.not_lt_zero _)
    | fuel + 1 =>
      obtain ⟨j, tree, e, he⟩ := hs.sound.isTree hp hd
      have hij : j = i := Option.some.inj (he.info.symm.trans hi)
      rw [hij] at he
      have hiw : w.index.get? d = some i := by rw [← hs.of.index]; exact hi
      -- what is around the declaration, and the chain from there on
      suffices houter : ∃ chain unit, Reads s (scopeChain fuel e.enclosing) (chain, unit) ∧
          d :: chain.map Prod.fst = w.chain (d + 1) d ∧ ∀ level ∈ chain, s.Level w level by
        obtain ⟨chain, unit, hreads, hchain, hlevels⟩ := houter
        refine ⟨(d, id) :: chain, ?_, hchain, ?_⟩
        · unfold scopeChain
          refine (reads_elementAt he.get).bind ?_
          rw [he.source]
          exact hreads.bind (.pure s _)
        · rintro level (_ | ⟨_, hl⟩)
          · exact hs.level hp hd
          · exact hlevels level hl
      have hnone : Reads s (scopeChain fuel none) ([], none) := by
        cases fuel <;> exact .pure s _
      have haround := he.around hs.sound
      generalize henc : e.enclosing = enc at haround
      cases haround with
      | nothing hparent =>
        exact ⟨[], none, hnone, (World.chain_top hiw hparent).symm, fun level hl => nomatch hl⟩
      | package hparent hget hkind hsource hout =>
        refine ⟨[], none, ?_, (World.chain_top hiw hparent).symm, fun level hl => nomatch hl⟩
        match fuel with
        | 0 => exact .pure s _
        | fuel + 1 =>
          unfold scopeChain
          refine (reads_elementAt hget).bind ?_
          rw [hsource]
          exact .pure s _
      | @constant p m c owner ec hparent hm hget hkind hsource howner hden hlt' =>
        have hlt := he.older c henc
        obtain ⟨body, hsource⟩ := hsource
        have hpp := hp.parent hs.sound.index hi hparent
        obtain ⟨k, hk⟩ := hpp.info
        match fuel with
        | 0 => exact absurd (Nat.lt_of_lt_of_le hlt (Nat.le_of_lt_succ hf)) (Nat.not_lt_zero _)
        | fuel + 1 =>
          have hf' : owner < fuel := by
            have := Nat.lt_of_lt_of_le hlt (Nat.le_of_lt_succ hf)
            exact Nat.lt_of_lt_of_le hlt' (Nat.le_of_lt_succ this)
          obtain ⟨chain, hreads, hchain, hlevels⟩ := ih fuel (by omega) hpp hden hk hf'
          refine ⟨chain, some k.unit, ?_, ?_, hlevels⟩
          · unfold scopeChain
            refine (reads_elementAt hget).bind ?_
            rw [hsource, howner]
            exact hreads
          · rw [hchain, World.chain_parent hs.world hiw hparent]
      | @type p owner hparent hm hden =>
        have hlt := he.older owner henc
        have hpp := hp.parent hs.sound.index hi hparent
        obtain ⟨k, hk⟩ := hpp.info
        obtain ⟨chain, hreads, hchain, hlevels⟩ := ih fuel (Nat.lt_succ_self _) hpp hden hk
          (Nat.lt_of_lt_of_le hlt (Nat.le_of_lt_succ hf))
        refine ⟨chain, some k.unit, hreads, ?_, hlevels⟩
        rw [hchain, World.chain_parent hs.world hiw hparent]

/-- **The scope inside a declaration.** -/
theorem reads_scopeOf (hs : s.Resolved w) {d : DeclId} {id : ElementId} (hp : s.index.Primary d)
    (hd : s.Denotes (s.index.keyOf d) id) :
    ∃ sc, Reads s (scopeOf id).run (.ok sc) ∧ sc.view = w.scopeOf d ∧ s.Scoped w sc := by
  obtain ⟨i, hi⟩ := hp.info
  obtain ⟨chain, hreads, hchain, hlevels⟩ := reads_scopeChain hs hp hd hi (hs.sound.lt_size hd)
  refine ⟨{ unit := i.unit, chain := chain }, ?_, ?_, hlevels⟩
  · exact Reads.queryGet (hreads.query (.pure s _))
  · rw [Scope.view, World.scopeOf, ← hchain, ← hs.of.index, hi]
    rfl

/-- The scope inside a field is that of its declaration. -/
theorem reads_scopeOf_field (hs : s.Resolved w) {d : DeclId} {m number : Nat} {id : ElementId}
    (hd : s.Denotes (.field d m number) id) :
    ∃ sc, Reads s (scopeOf id).run (.ok sc) ∧ sc.view = w.scopeOf d ∧ s.Scoped w sc := by
  obtain ⟨e, he, hdesc, hold⟩ := hs.sound.element _ _ hd
  obtain ⟨f, v, owner, -, -, hden, hb⟩ := hdesc.field_inv
  have henc : e.enclosing = some owner := congrArg Element.enclosing hb
  have hsource : e.source = .field (Element.withDimensions v.span v.dims f.type) :=
    congrArg Element.source hb
  have hp := (hs.sound.askable _ _ hd).1
  obtain ⟨i, hi⟩ := hp.info
  have hlt := hs.sound.lt_size hd
  obtain ⟨size, hsize⟩ := Nat.exists_eq_succ_of_ne_zero (Nat.ne_of_gt (Nat.zero_lt_of_lt hlt))
  obtain ⟨chain, hreads, hchain, hlevels⟩ := reads_scopeChain hs hp hden hi
    (Nat.lt_of_lt_of_le (hold owner henc) (Nat.le_of_lt_succ (hsize ▸ hlt)))
  refine ⟨{ unit := i.unit, chain := chain }, ?_, ?_, hlevels⟩
  · refine Reads.queryGet (Reads.query (a := (chain, some i.unit)) ?_ (.pure s _))
    rw [hsize]
    unfold scopeChain
    refine (reads_elementAt he).bind ?_
    rw [hsource, henc]
    exact hreads
  · rw [Scope.view, World.scopeOf, ← hchain, ← hs.of.index, hi]
    rfl

theorem reads_headerScopeOf (hs : s.Resolved w) {d : DeclId} {id : ElementId}
    (hp : s.index.Primary d) (hd : s.Denotes (s.index.keyOf d) id) :
    ∃ sc, Reads s (headerScopeOf id).run (.ok sc) ∧ sc.view = w.headerScopeOf d ∧
      s.Scoped w sc := by
  obtain ⟨sc, hreads, hview, hscoped⟩ := reads_scopeOf hs hp hd
  refine ⟨{ sc with header := true }, ?_, ?_, hscoped⟩
  · exact Reads.bind (f := ExceptT.bindCont _) hreads (.pure s _)
  · rw [World.headerScopeOf, ← hview]
    rfl

/-! ### Types of a session -/

/-- The cell of a type. -/
def ModelType.cell? : ModelType → Option Nat
  | declared _ (.written cell _) _ _ => some cell
  | _ => none

/-- The symbol of an element of a package or a type. -/
def Session.symbolAt (s : Session) (id : ElementId) : Symbol :=
  match s.elements.get? id with
  | none => default
  | some e =>
    match e.qualifiedName.name?, e.source with
    | some n, .package => .package (s.names.text n)
    | some n, _ => .type (s.names.text n)
    | none, .tree shape => .unnamed shape.decl
    | none, _ => default

theorem Session.symbolAt_eq (hs : s.Resolved w) {id : ElementId} {symbol : Symbol}
    (h : s.ShowsType symbol id) : s.symbolAt id = symbol := by
  cases hd : w.declOf? symbol with
  | some d =>
    obtain ⟨hp, rfl, hden⟩ := h.shows.tree hs.world hs.sound hs.of hd
    obtain ⟨i, tree, e, he⟩ := hs.sound.isTree hp hden
    rw [symbolAt, he.get, ← hs.of.symbol_keyOf hs.world, DeclIndex.keyOf_eq he.info, DeclInfo.key]
    dsimp only
    rw [he.qualifiedName, he.source]
    cases i.qualifiedName.name? <;> rfl
  | none =>
    cases symbol with
    | type name =>
      obtain ⟨n, d, e, hname, -, he⟩ := h.shows.described hs.world hs.sound hs.of hd
      rw [symbolAt, he.get]
      dsimp only
      rw [he.qualifiedName, he.source]
      exact congrArg Symbol.type hname
    | unnamed d => cases hd
    | _ => exact h.isType.elim

namespace Session

/-- The outcome of a reference became known, and agrees with the rules. -/
def Answered (w : World) (s : Session) (r : TypeReference) (x : Except ModelError ElementId) :
    Prop :=
  ∃ before : Session, before.Sound ∧ before.Keeps s ∧ before.KeepsLists s ∧
    ∃ y, outcomes w.provider.Excuses shown x y before ∧
      before.Concludes w (w.resolveReference r.view).run y

/-- What a type of a session names. -/
def HoldsTarget (w : World) (s : Session) : TypeTarget → Prop
  | .known id => ∃ symbol, s.ShowsType symbol id
  | .written cell r => s.Refers w r ∧ ∃ c, s.cells[cell]? = some c ∧ c.reference = r ∧
      ∀ x, c.outcome = some x → s.Answered w r x

mutual

/-- A type of a session. -/
def Holds (w : World) (s : Session) : ModelType → Prop
  | .declared origin target args enclosing =>
    origin = s.token ∧ s.HoldsTarget w target ∧ HoldsAll w s args ∧ Holds w s enclosing
  | .array component => Holds w s component
  | .typeVariable name owner => s.names.Issued name ∧ ∃ symbol, s.ShowsType symbol owner
  | .wildcard upper lower => HoldsBound w s upper ∧ HoldsBound w s lower
  | _ => True

/-- Types of a session. -/
def HoldsAll (w : World) (s : Session) : List ModelType → Prop
  | [] => True
  | t :: rest => Holds w s t ∧ HoldsAll w s rest

/-- A bound of a wildcard, if there is one. -/
def HoldsBound (w : World) (s : Session) : Option ModelType → Prop
  | none => True
  | some t => Holds w s t

end

/-- What a type target looks like in symbols. -/
def viewTarget (s : Session) : TypeTarget → TargetView
  | .known id => .known (s.symbolAt id)
  | .written _ r => .written r.view

mutual

/-- What a type looks like in symbols. -/
def view (s : Session) : ModelType → TypeView
  | .primitive p => .primitive p
  | .absent => .absent
  | .void => .void
  | .package => .package
  | .error => .error
  | .declared _ target args enclosing =>
    .declared (s.viewTarget target) (viewAll s args) (view s enclosing)
  | .array component => .array (view s component)
  | .typeVariable name owner => .typeVariable (s.names.text name) (s.symbolAt owner)
  | .wildcard upper lower => .wildcard (viewBound s upper) (viewBound s lower)

/-- What types look like in symbols. -/
def viewAll (s : Session) : List ModelType → List TypeView
  | [] => []
  | t :: rest => view s t :: viewAll s rest

/-- What a bound looks like in symbols. -/
def viewBound (s : Session) : Option ModelType → Option TypeView
  | none => none
  | some t => some (view s t)

end

/-! ### Growth -/

section Grow

variable {t : Session}

theorem Scoped.grow {sc : Scope} (hs : s.Sound) (h : s.Scoped w sc) (hk : s.Keeps t) :
    t.Scoped w sc := fun level hl => (h level hl).grow hs hk

theorem Refers.grow {r : TypeReference} (hs : s.Sound) (h : s.Refers w r) (hk : s.Keeps t) :
    t.Refers w r := ⟨h.scope.grow hs hk, h.path, h.names⟩

theorem Answered.grow {r : TypeReference} {x : Except ModelError ElementId}
    (h : s.Answered w r x) (hk : s.Keeps t) (hl : s.KeepsLists t) : t.Answered w r x := by
  obtain ⟨before, hbefore, hkeeps, hlists, h⟩ := h
  exact ⟨before, hbefore, hkeeps.trans hk, hlists.trans hl, h⟩

/-- What became known is still so. -/
theorem Answered.now {r : TypeReference} {x : Except ModelError ElementId}
    (h : s.Answered w r x) : ∃ y, outcomes w.provider.Excuses shown x y s ∧
      s.Concludes w (w.resolveReference r.view).run y := by
  obtain ⟨before, hbefore, hkeeps, hlists, y, hy, hset⟩ := h
  refine ⟨y, ?_, hset.mono hlists⟩
  match x, y, hy with
  | .ok id, .ok symbol, hy => exact ShowsType.grow hbefore hy hkeeps
  | .error e, .error e', hy => exact hy

theorem HoldsTarget.grow {target : TypeTarget} (hs : s.Sound) (h : s.HoldsTarget w target)
    (hg : s.Resolves t) : t.HoldsTarget w target := by
  match target with
  | .known id =>
    obtain ⟨symbol, hsymbol⟩ := h
    exact ⟨symbol, hsymbol.grow hs hg.toKeeps⟩
  | .written cell r =>
    obtain ⟨hr, c, hc, hcr, hx⟩ := h
    exact ⟨hr.grow hs hg.toKeeps, c, hg.cells cell c hc, hcr,
      fun x h => (hx x h).grow hg.toKeeps (hg.keepsLists hs)⟩

mutual

/-- A type that is held stays held, if that is so of what types name. -/
theorem Holds.carry {type : ModelType} (hs : s.Sound) (hk : s.Keeps t)
    (ht : ∀ target, s.HoldsTarget w target → t.HoldsTarget w target) (h : s.Holds w type) :
    t.Holds w type := by
  match type with
  | .declared origin target args enclosing =>
    rw [Holds] at h ⊢
    obtain ⟨horigin, htarget, hargs, henc⟩ := h
    have htoken : t.token = s.token := congrArg SessionBase.token hk.base
    exact ⟨horigin.trans htoken.symm, ht target htarget, HoldsAll.carry hs hk ht hargs,
      Holds.carry hs hk ht henc⟩
  | .array component =>
    rw [Holds] at h ⊢
    exact Holds.carry hs hk ht h
  | .typeVariable name owner =>
    rw [Holds] at h ⊢
    obtain ⟨hn, symbol, hsymbol⟩ := h
    exact ⟨hn.le hk.names, symbol, hsymbol.grow hs hk⟩
  | .wildcard upper lower =>
    rw [Holds] at h ⊢
    exact ⟨HoldsBound.carry hs hk ht h.1, HoldsBound.carry hs hk ht h.2⟩
  | .primitive _ | .absent | .void | .package | .error =>
    rw [Holds]
    all_goals first | trivial | nofun

theorem HoldsAll.carry {types : List ModelType} (hs : s.Sound) (hk : s.Keeps t)
    (ht : ∀ target, s.HoldsTarget w target → t.HoldsTarget w target) (h : s.HoldsAll w types) :
    t.HoldsAll w types := by
  match types with
  | [] => trivial
  | type :: rest =>
    rw [HoldsAll] at h ⊢
    exact ⟨Holds.carry hs hk ht h.1, HoldsAll.carry hs hk ht h.2⟩

theorem HoldsBound.carry {bound : Option ModelType} (hs : s.Sound) (hk : s.Keeps t)
    (ht : ∀ target, s.HoldsTarget w target → t.HoldsTarget w target) (h : s.HoldsBound w bound) :
    t.HoldsBound w bound := by
  match bound with
  | none => trivial
  | some type =>
    rw [HoldsBound] at h ⊢
    exact Holds.carry hs hk ht h

end

theorem Holds.grow {type : ModelType} (hs : s.Sound) (h : s.Holds w type) (hg : s.Resolves t) :
    t.Holds w type :=
  h.carry hs hg.toKeeps fun _ ht => ht.grow hs hg

theorem viewTarget_grow {target : TypeTarget} (hs : s.Resolved w) (ht : t.Resolved w)
    (hk : s.Keeps t) (h : s.HoldsTarget w target) : t.viewTarget target = s.viewTarget target := by
  match target with
  | .known id =>
    obtain ⟨symbol, hsymbol⟩ := h
    rw [viewTarget, viewTarget, symbolAt_eq hs hsymbol, symbolAt_eq ht (hsymbol.grow hs.sound hk)]
  | .written _ r => rfl

mutual

/-- **A type that is held looks the same for ever.** -/
theorem view_grow {type : ModelType} (hs : s.Resolved w) (ht : t.Resolved w) (hk : s.Keeps t)
    (h : s.Holds w type) : t.view type = s.view type := by
  match type with
  | .declared origin target args enclosing =>
    rw [Holds] at h
    rw [view, view, viewTarget_grow hs ht hk h.2.1, viewAll_grow hs ht hk h.2.2.1,
      view_grow hs ht hk h.2.2.2]
  | .array component =>
    rw [Holds] at h
    rw [view, view, view_grow hs ht hk h]
  | .typeVariable name owner =>
    rw [Holds] at h
    obtain ⟨hn, symbol, hsymbol⟩ := h
    rw [view, view, NameTable.text_le hn hk.names, symbolAt_eq hs hsymbol,
      symbolAt_eq ht (hsymbol.grow hs.sound hk)]
  | .wildcard upper lower =>
    rw [Holds] at h
    rw [view, view, viewBound_grow hs ht hk h.1, viewBound_grow hs ht hk h.2]
  | .primitive _ | .absent | .void | .package | .error => simp only [view]

theorem viewAll_grow {types : List ModelType} (hs : s.Resolved w) (ht : t.Resolved w)
    (hk : s.Keeps t) (h : s.HoldsAll w types) : t.viewAll types = s.viewAll types := by
  match types with
  | [] => rfl
  | type :: rest =>
    rw [HoldsAll] at h
    rw [viewAll, viewAll, view_grow hs ht hk h.1, viewAll_grow hs ht hk h.2]

theorem viewBound_grow {bound : Option ModelType} (hs : s.Resolved w) (ht : t.Resolved w)
    (hk : s.Keeps t) (h : s.HoldsBound w bound) : t.viewBound bound = s.viewBound bound := by
  match bound with
  | none => rfl
  | some type =>
    rw [HoldsBound] at h
    rw [viewBound, viewBound, view_grow hs ht hk h]

end

end Grow

end Session

/-! ### Type parameters -/

theorem reads_parameterLevel (hw : s.Of w) {name : Name} {levels : List (DeclId × ElementId)}
    (hl : ∀ level ∈ levels, s.index.Primary level.1) :
    Reads s (parameterLevel name levels) (w.parameterLevel name (levels.map Prod.fst)) := by
  induction levels with
  | nil => exact .pure s _
  | cons level rest ih =>
    obtain ⟨i, hi⟩ := (hl level List.mem_cons_self).info
    have hrest := ih fun l h => hl l (List.mem_cons_of_mem _ h)
    unfold parameterLevel
    refine (reads_declAt hi).bind ?_
    rw [List.map_cons, World.parameterLevel, ← hw.index, hi, Option.map_some, Option.any_some]
    split
    · exact .pure s _
    · exact hrest.bind (.pure s _)

section Types

variable {supertypesOf : ElementId → SessionM (List ElementId)}

theorem hidden_follows (hsup : g.Supplies supertypesOf) {name : Name}
    (hn : g.world.names.Proper name) {levels : List (DeclId × ElementId)}
    (hl : ∀ level ∈ levels, s.Level g.world level) :
    g.Follows s (hidden supertypesOf name levels) (g.world.hidden name (levels.map Prod.fst))
      same := by
  induction levels generalizing s with
  | nil => exact .pure fun _ => rfl
  | cons level rest ih =>
    refine .sound fun hs => ?_
    unfold hidden
    rw [List.map_cons, World.hidden]
    have h := memberTypeAt_obeys hsup hn (hl level List.mem_cons_self)
    refine Follows.bind (m := (memberTypeAt supertypesOf level name).run) h
      fun r r' t ht hg hr => ?_
    have hrest := ih fun l h => (hl l (List.mem_cons_of_mem _ h)).grow hs.sound hg.toKeeps
    match r, r', hr with
    | .ok (some id), .ok (some symbol), _ => exact .pure fun _ => rfl
    | .ok none, .ok none, _ => exact hrest
    | .error e, .error e', _ => exact hrest

/-- A type parameter stands for the one that the rules find. -/
def parameter (w : World) (a : Name × ElementId) (b : Name × Symbol) (t : Session) : Prop :=
  a.1 = b.1 ∧ w.names.Issued a.1 ∧ t.ShowsType b.2 a.2

theorem typeVariable?_follows (hsup : g.Supplies supertypesOf) {name : Name}
    (hn : g.world.names.Proper name) {sc : Scope} (hsc : s.Scoped g.world sc) :
    g.Follows s (typeVariable? supertypesOf name sc) (g.world.typeVariable? name sc.view)
      (optional (parameter g.world)) := by
  refine .sound fun hs => ?_
  unfold typeVariable? World.typeVariable?
  refine .reads (reads_parameterLevel hs.of fun level hl => (hsc level hl).1) ?_
  have hchain : sc.view.chain = sc.chain.map Prod.fst := rfl
  rw [hchain]
  cases hlevel : g.world.parameterLevel name (sc.chain.map Prod.fst) with
  | none => exact .pure fun _ => trivial
  | some level =>
    -- The levels inside the one of the parameter are those that could hide it.
    have hupto : sc.view.levelsUpTo level = (sc.levelsUpTo level).map Prod.fst := by
      unfold ScopeView.levelsUpTo Scope.levelsUpTo Scope.view
      dsimp only
      split
      · rw [List.map_drop, List.map_take]
      · rw [List.map_take]
    have hmem : ∀ l ∈ sc.levelsUpTo level, l ∈ sc.chain := by
      intro l hl
      rw [Scope.levelsUpTo] at hl
      split at hl
      · exact List.mem_of_mem_take (List.mem_of_mem_drop hl)
      · exact List.mem_of_mem_take hl
    dsimp only
    rw [hupto]
    refine (hidden_follows hsup hn fun l hl => hsc l (hmem l hl)).bind fun b b' t ht hg hb => ?_
    have hbb : b = b' := hb
    rw [← hbb]
    cases b with
    | true => exact .pure fun _ => trivial
    | false =>
      refine .pure fun _ => ?_
      rw [List.getElem?_map]
      cases hget : sc.chain[level]? with
      | none => trivial
      | some l =>
        exact ⟨rfl, hn.1, ((hsc l (List.mem_of_getElem? hget)).grow hs.sound hg.toKeeps).2⟩

/-! ### Written types -/

/-- Whether a written type is an array. -/
def TypeRef.isArray : TypeRef → Bool
  | .array .. => true
  | _ => false

/-- A type has the dimensions that are written. -/
inductive TypeRef.ReadAs : TypeRef → ModelType → Prop
  | array {component : TypeRef} {type : ModelType} {place : Span} (inner : component.ReadAs type) :
      ReadAs (.array component place) (.array type)
  | other {written : TypeRef} {type : ModelType} (plain : written.isArray = false) :
      ReadAs written type

/-- A type that is read is held and looks as the rules say; its cell, if it has one, is empty and not
    among the first ones. It is an error only where none could be parsed. -/
structure Held (w : World) (first : Nat) (written : TypeRef) (type : ModelType) (v : TypeView)
    (t : Session) : Prop where
  holds : t.Holds w type
  view : t.view type = v
  cell : ∀ c ∈ type.cell?, first ≤ c ∧ ∃ r, t.cells[c]? = some { reference := r }
  error : type = .error → written.isError = true
  readAs : written.ReadAs type

/-- The same for types in order, of which the cells do not matter. -/
def heldAll (w : World) (types : List ModelType) (vs : List TypeView) (t : Session) : Prop :=
  t.HoldsAll w types ∧ t.viewAll types = vs

/-- The segments of a class type are held. -/
def heldSegments (w : World) (a : List (Name × List ModelType)) (b : List (Name × List TypeView))
    (t : Session) : Prop :=
  List.Forall₂ (fun x y => x.1 = y.1 ∧ w.names.Proper x.1 ∧ heldAll w x.2 y.2 t) a b

theorem newCell_ends {r : TypeReference} :
    (resolving w).Ends s (newCell r) fun c t => c = s.cells.size ∧
      t.cells[c]? = some { reference := r } := by
  have hk : s.Keeps { s with cells := s.cells.push { reference := r } } :=
    ⟨rfl, .refl _, fun _ _ h => h, fun _ => rfl⟩
  refine .step (fun hs => ?_) (fun _ => ?_) fun _ => ⟨rfl, ?_⟩
  · exact hs.carry (hs.sound.carry_cache hk (fun _ => rfl) rfl rfl) hk hs.quiet fun _ _ h => h
  · refine { Session.Resolves.refl s with
      names := .refl _
      cells := fun c x hx => ?_ }
    have hlt := (Array.getElem?_eq_some_iff.1 hx).1
    show (s.cells.push { reference := r })[c]? = some x
    rw [Array.getElem?_push_lt hlt, ← hx, Array.getElem?_eq_getElem hlt]
  · show (s.cells.push { reference := r })[s.cells.size]? = _
    exact Array.getElem?_push_size

theorem Held.grow {t : Session} {first : Nat} {written : TypeRef} {type : ModelType} {v : TypeView}
    (hs : s.Resolved w) (ht : t.Resolved w) (h : Held w first written type v s)
    (hg : s.Resolves t) : Held w first written type v t where
  holds := h.holds.grow hs.sound hg
  view := (Session.view_grow hs ht hg.toKeeps h.holds).trans h.view
  cell c hc := by
    obtain ⟨hfirst, r, hr⟩ := h.cell c hc
    exact ⟨hfirst, r, hg.cells c _ hr⟩
  error := h.error
  readAs := h.readAs

theorem heldAll.grow {t : Session} {types : List ModelType} {vs : List TypeView}
    (hs : s.Resolved w) (ht : t.Resolved w) (h : heldAll w types vs s) (hg : s.Resolves t) :
    heldAll w types vs t :=
  ⟨h.1.carry hs.sound hg.toKeeps fun _ ht => ht.grow hs.sound hg,
    (Session.viewAll_grow hs ht hg.toKeeps h.1).trans h.2⟩

theorem heldAll.isEmpty_eq {types : List ModelType} {vs : List TypeView}
    (h : heldAll w types vs s) : types.isEmpty = vs.isEmpty := by
  obtain ⟨-, rfl⟩ := h
  cases types <;> rfl

theorem heldSegments.grow {t : Session} {a : List (Name × List ModelType)}
    {b : List (Name × List TypeView)} (hs : s.Resolved w) (ht : t.Resolved w)
    (h : heldSegments w a b s) (hg : s.Resolves t) : heldSegments w a b t :=
  List.Forall₂.imp (fun _ _ hx => ⟨hx.1, hx.2.1, hx.2.2.grow hs ht hg⟩) h

theorem heldSegments.isEmpty_eq {a : List (Name × List ModelType)}
    {b : List (Name × List TypeView)} (h : heldSegments w a b s) : a.isEmpty = b.isEmpty := by
  cases h <;> rfl

theorem enclosedTypes_ends {sc : Scope} {span : Span} {path : List Name} {enclosing : ModelType}
    {v : TypeView} {a : List (Name × List ModelType)} {b : List (Name × List TypeView)}
    {first : Nat} {written : TypeRef} (hsc : s.Scoped w sc) (hpath : ∀ n ∈ path, w.names.Proper n)
    (hsegments : heldSegments w a b s) (hencl : Held w first written enclosing v s)
    (hfirst : first ≤ s.cells.size) (hplain : written.isArray = false) :
    (resolving w).Ends s (enclosedTypes sc span path enclosing a)
      (Held w first written · (World.enclosedTypes sc.view span path v b)) := by
  induction a generalizing s path enclosing v b with
  | nil =>
    cases hsegments
    exact .pure fun _ => hencl
  | cons x rest ih =>
    refine .sound fun hs => ?_
    obtain ⟨name, args⟩ := x
    obtain _ | @⟨_, ⟨name', vargs⟩, _, vrest, hx, hrest⟩ := hsegments
    obtain ⟨hname, hproper, hargs⟩ := hx
    dsimp only at hname hproper hargs
    have hpath' : ∀ n ∈ path ++ [name], w.names.Proper n := by
      intro n hn
      rcases List.mem_append.1 hn with hn | hn
      · exact hpath n hn
      · rw [List.mem_singleton.1 hn]
        exact hproper
    unfold enclosedTypes World.enclosedTypes
    rw [← hname, ← hargs.isEmpty_eq, ← heldSegments.isEmpty_eq hrest]
    dsimp only
    split
    · -- A type is made for the segments so far: its cell is a new one, so nothing has resolved it.
      refine Ends.bind newCell_ends fun c t ht hg ⟨hc, hcell⟩ => .read fun _ => ?_
      have hencl' := hencl.grow hs ht hg
      have hargs' := hargs.grow hs ht hg
      have hscope := hsc.grow hs.sound hg.toKeeps
      have hlt := (Array.getElem?_eq_some_iff.1 hcell).1
      have htarget : t.HoldsTarget w (.written c ⟨sc, path ++ [name], span⟩) :=
        ⟨⟨hscope, by simp, hpath'⟩, _, hcell, rfl, nofun⟩
      refine ih hscope hpath' (heldSegments.grow hs ht hrest hg) ⟨?_, ?_, ?_, nofun, .other hplain⟩
        (by rw [hc] at hlt; omega)
      · rw [Session.Holds]
        exact ⟨rfl, htarget, hargs'.1, hencl'.holds⟩
      · rw [Session.view, hargs'.2, hencl'.view]
        rfl
      · rintro _ ⟨⟩
        refine ⟨?_, _, hcell⟩
        rw [hc]
        exact hfirst
    · -- A segment without arguments is but a part of the path.
      exact ih hsc hpath' hrest hencl hfirst

mutual

/-- **A written type is read as the rules say.** -/
theorem typeOf_follows (hsup : g.Supplies supertypesOf) {sc : Scope} {type : TypeRef} {s : Session}
    {first : Nat} (hsc : s.Scoped g.world sc) (ht : type.Sound g.world.names)
    (hfirst : first ≤ s.cells.size) :
    g.Follows s (typeOf supertypesOf sc type) (g.world.typeOf sc.view type)
      (Held g.world first type) := by
  refine .sound fun hs => ?_
  match type with
  | .primitive p _ =>
    rw [typeOf, World.typeOf]
    exact .pure fun _ => ⟨trivial, rfl, nofun, nofun, .other rfl⟩
  | .void _ =>
    rw [typeOf, World.typeOf]
    exact .pure fun _ => ⟨trivial, rfl, nofun, nofun, .other rfl⟩
  | .error _ =>
    rw [typeOf, World.typeOf]
    exact .pure fun _ => ⟨trivial, rfl, nofun, fun _ => rfl, .other rfl⟩
  | .wildcard _ =>
    rw [typeOf, World.typeOf]
    exact .pure fun _ => ⟨⟨trivial, trivial⟩, rfl, nofun, nofun, .other rfl⟩
  | .array component _ =>
    have hc : component.Sound g.world.names := by cases ht; assumption
    rw [typeOf, World.typeOf]
    refine (typeOf_follows hsup hsc hc hfirst).bind fun ty v t _ _ h => .pure fun _ => ?_
    exact ⟨h.holds, congrArg TypeView.array h.view, nofun, nofun, .array h.readAs⟩
  | .wildcardExtends bound _ =>
    have hb : bound.Sound g.world.names := by cases ht; assumption
    rw [typeOf, World.typeOf]
    refine (typeOf_follows hsup hsc hb hfirst).bind fun ty v t _ _ h => .pure fun _ => ?_
    exact ⟨⟨h.holds, trivial⟩, congrArg (fun v => TypeView.wildcard (some v) none) h.view, nofun,
      nofun, .other rfl⟩
  | .wildcardSuper bound _ =>
    have hb : bound.Sound g.world.names := by cases ht; assumption
    rw [typeOf, World.typeOf]
    refine (typeOf_follows hsup hsc hb hfirst).bind fun ty v t _ _ h => .pure fun _ => ?_
    exact ⟨⟨trivial, h.holds⟩, congrArg (fun v => TypeView.wildcard none (some v)) h.view, nofun,
      nofun, .other rfl⟩
  | .classType segments span =>
    have hseg : (∀ seg ∈ segments, g.world.names.Proper seg.name) ∧
        ∀ seg ∈ segments, ∀ a ∈ seg.args, a.Sound g.world.names := by
      cases ht with
      | classType _ _ _ hn ha => exact ⟨hn, ha⟩
    -- the rest is the same whether or not the path is a simple name
    have hrest : ∀ a b t, t.Resolved g.world → s.Resolves t →
        optional (parameter g.world) a b t → g.Follows t
          (match a with
            | some (name, owner) => return .typeVariable name owner
            | none => do
              enclosedTypes sc span [] .absent (← segmentsOf supertypesOf sc segments))
          (match b with
            | some (name, owner) => return .typeVariable (g.world.text name) owner
            | none => do
              return World.enclosedTypes sc.view span [] .absent
                (← g.world.segmentsOf sc.view segments))
          (Held g.world first (.classType segments span)) := by
      intro a b t ht hg hab
      match a, b, hab with
      | some (name, owner), some (_, symbol), ⟨rfl, hn, hshow⟩ =>
        refine .pure fun _ => ⟨⟨hn.le ht.of.names, symbol, hshow⟩, ?_, nofun, nofun, .other rfl⟩
        rw [Session.view, ht.of.text hn, Session.symbolAt_eq ht hshow]
      | none, none, _ =>
        have hsc' := hsc.grow hs.sound hg.toKeeps
        refine (segmentsOf_follows hsup hsc' hseg.1 hseg.2).bind fun a b u hu hg' hab => ?_
        have habsent : Held g.world first (.classType segments span) .absent .absent u :=
          ⟨trivial, rfl, nofun, nofun, .other rfl⟩
        refine .ends (enclosedTypes_ends (hsc'.grow ht.sound hg'.toKeeps)
          (fun n hn => absurd hn List.not_mem_nil) hab habsent
          (Nat.le_trans hfirst (Nat.le_trans hg.cells_size_le hg'.cells_size_le)) rfl)
          fun _ _ _ _ h => h
    unfold typeOf World.typeOf
    match segments, hseg, hrest with
    | [only], hseg, hrest =>
      exact (typeVariable?_follows hsup (hseg.1 _ List.mem_cons_self) hsc).bind hrest
    | [], _, hrest => exact hrest none none s hs (.refl s) trivial
    | _ :: _ :: _, _, hrest => exact hrest none none s hs (.refl s) trivial

theorem segmentsOf_follows (hsup : g.Supplies supertypesOf) {sc : Scope}
    {segments : List ClassSegment} {s : Session} (hsc : s.Scoped g.world sc)
    (hp : ∀ seg ∈ segments, g.world.names.Proper seg.name)
    (ht : ∀ seg ∈ segments, ∀ a ∈ seg.args, a.Sound g.world.names) :
    g.Follows s (segmentsOf supertypesOf sc segments) (g.world.segmentsOf sc.view segments)
      (heldSegments g.world) := by
  refine .sound fun hs => ?_
  match segments with
  | [] =>
    rw [segmentsOf, World.segmentsOf]
    exact .pure fun _ => .nil
  | .mk name args :: rest =>
    have hname : g.world.names.Proper name := hp _ List.mem_cons_self
    have hargs : ∀ a ∈ args, a.Sound g.world.names := ht _ List.mem_cons_self
    rw [segmentsOf, World.segmentsOf]
    refine (segmentsOf_follows hsup hsc (fun seg h => hp seg (List.mem_cons_of_mem _ h))
      fun seg h => ht seg (List.mem_cons_of_mem _ h)).bind fun later later' t ht' hg hlater => ?_
    refine (typesOf_follows hsup (hsc.grow hs.sound hg.toKeeps) hargs).bind
      fun as vs u hu hg' has => .pure fun _ => ?_
    exact .cons ⟨rfl, hname, has⟩ (heldSegments.grow ht' hu hlater hg')

theorem typesOf_follows (hsup : g.Supplies supertypesOf) {sc : Scope} {types : List TypeRef}
    {s : Session} (hsc : s.Scoped g.world sc) (ht : ∀ t ∈ types, t.Sound g.world.names) :
    g.Follows s (typesOf supertypesOf sc types) (g.world.typesOf sc.view types)
      (heldAll g.world) := by
  refine .sound fun hs => ?_
  match types with
  | [] =>
    rw [typesOf, World.typesOf]
    exact .pure fun _ => ⟨trivial, rfl⟩
  | type :: rest =>
    rw [typesOf, World.typesOf]
    refine (typeOf_follows hsup hsc (ht _ List.mem_cons_self) (Nat.zero_le _)).bind
      fun ty v t ht' hg hty => ?_
    refine (typesOf_follows hsup (hsc.grow hs.sound hg.toKeeps)
      fun t h => ht t (List.mem_cons_of_mem _ h)).bind fun tys vs u hu hg' htys => .pure fun _ => ?_
    have hty' := hty.grow ht' hu hg'
    exact ⟨⟨hty'.holds, htys.1⟩, by rw [Session.viewAll, hty'.view, htys.2]⟩

end

end Types

end JavaAbi
