import JavaAbi.Proofs.WrittenTypes

namespace JavaAbi

/-!
# Supertype lists follow the rules

The list that a session makes for a type is the one that the rules give, if they give one. Making a
list asks for other lists, and so on; the symbols whose lists are under construction are the stack of
a stage. No list on the stack is given by the rules at the level at which other lists are told there,
so a list that is found to be under construction is told as if it were empty only to the type that
it belongs to, or where the rules give nothing.

* `World.supertypesAt_mono`, `World.Settles.unique` — the rules give one list at most;
* `Stage.Fair`, `Stage.next` — the stages that occur, and how the next one arises;
* `computeSupertypes_follows` — the list of a type, by way of those of others;
* `supertypesWithin_supplies` — the lists of a session.
-/

open Course Stage

/-! ### What the rules give -/

namespace World

variable {α β : Type} {w : World} {symbol : Symbol}

theorem supertypesAt_succ {n : Nat} {l : List Symbol} (h : w.supertypesAt n symbol = some l) :
    w.supertypesAt (n + 1) symbol = some l := by
  induction n generalizing symbol l with
  | zero => cases h
  | succ n ih =>
    refine Inquiry.given_mono (fun other l hl => ?_) h
    split at hl
    · rename_i heq
      rw [if_pos heq]
      exact hl
    · rename_i hne
      rw [if_neg hne]
      exact ih hl

/-- **Longer chains of lists give the same lists.** -/
theorem supertypesAt_mono {n m : Nat} {l : List Symbol} (hnm : n ≤ m)
    (h : w.supertypesAt n symbol = some l) : w.supertypesAt m symbol = some l := by
  induction hnm with
  | refl => exact h
  | step _ ih => exact supertypesAt_succ ih

theorem supertypesAt_eq_none {n m : Nat} (hnm : n ≤ m) (h : w.supertypesAt m symbol = none) :
    w.supertypesAt n symbol = none := by
  cases hl : w.supertypesAt n symbol with
  | none => rfl
  | some l =>
    rw [supertypesAt_mono hnm hl] at h
    cases h

/-- A list that is given is given at a first level. -/
theorem exists_first_level {n : Nat} {l : List Symbol} (h : w.supertypesAt n symbol = some l) :
    ∃ j < n, w.supertypesAt j symbol = none ∧ w.supertypesAt (j + 1) symbol = some l := by
  induction n with
  | zero => cases h
  | succ n ih =>
    cases hn : w.supertypesAt n symbol with
    | none => exact ⟨n, Nat.lt_succ_self n, hn, h⟩
    | some l' =>
      obtain rfl : l' = l := by
        rw [supertypesAt_succ hn] at h
        exact Option.some.inj h
      obtain ⟨j, hj, hfirst⟩ := ih hn
      exact ⟨j, Nat.lt_succ_of_lt hj, hfirst⟩

namespace Settles

variable {i : Inquiry α} {f : α → Inquiry β} {a a' : α} {b : β}

/-- **The rules settle one answer at most.** -/
theorem unique (h : w.Settles i a) (h' : w.Settles i a') : a = a' := by
  obtain ⟨n, hn⟩ := h
  obtain ⟨m, hm⟩ := h'
  have hleft := Inquiry.given_mono (fun _ _ => supertypesAt_mono (Nat.le_max_left n m)) hn
  have hright := Inquiry.given_mono (fun _ _ => supertypesAt_mono (Nat.le_max_right n m)) hm
  exact Option.some.inj (hleft.symm.trans hright)

theorem pure_inv (h : w.Settles (pure a) a') : a' = a := by
  obtain ⟨n, hn⟩ := h
  exact (Option.some.inj hn).symm

theorem bind_inv (h : w.Settles (i >>= f) b) : ∃ a, w.Settles i a ∧ w.Settles (f a) b := by
  obtain ⟨n, hn⟩ := h
  rw [Inquiry.given_bind] at hn
  obtain ⟨a, ha, hb⟩ := Option.bind_eq_some_iff.1 hn
  exact ⟨a, ⟨n, ha⟩, n, hb⟩

theorem map (h : w.Settles i a) (g : α → β) : w.Settles (do return g (← i)) (g a) := by
  obtain ⟨n, hn⟩ := h
  refine ⟨n, ?_⟩
  rw [Inquiry.given_bind, hn]
  rfl

end Settles

theorem settles_listOf {l : List Symbol} :
    w.Settles (Inquiry.listOf symbol) l ↔ ∃ n, w.supertypesAt n symbol = some l := by
  simp only [Settles, Inquiry.given_listOf]

end World

namespace Session.Concludes

variable {α β : Type} {w : World} {s t : Session} {i : Inquiry α} {f : α → Inquiry β} {a : α} {b : β}

theorem pure (a : α) : s.Concludes w (Pure.pure a) a := ⟨fun _ h => h.pure_inv, Inquiry.finds_pure a⟩

/-- The answer of an inquiry that goes on. -/
theorem bind (h : s.Concludes w i a) (hl : s.KeepsLists t) (hf : t.Concludes w (f a) b) :
    t.Concludes w (i >>= f) b where
  settled x hx := by
    obtain ⟨a', ha', hf'⟩ := hx.bind_inv
    rw [h.settled a' ha'] at hf'
    exact hf.settled x hf'
  held := (h.held.mono hl).bind hf.held

end Session.Concludes

/-! ### Stages that occur -/

namespace Stage

/-- The lists that are told are empty for the symbols of the stack, or they are given by the rules at
    a level at which those of the stack are not. -/
structure Fair (g : Stage) : Prop where
  told : ∀ symbol l, g.lists symbol = some l → symbol ∈ g.stack ∧ l = [] ∨
    ∃ n, g.world.supertypesAt n symbol = some l ∧
      ∀ other ∈ g.stack, g.world.supertypesAt n other = none
  distinct : g.stack.Nodup
  declared : ∀ symbol ∈ g.stack, symbol ∈ (List.range g.world.index.size).map g.world.symbolOf

/-- There are at most as many lists under construction as declarations. -/
theorem Fair.length_le {g : Stage} (h : g.Fair) : g.stack.length ≤ g.world.index.size := by
  have hle := (h.distinct.subperm h.declared).length_le
  rwa [List.length_map, List.length_range] at hle

/-- The stage in which the list of an element is made: its own symbol is told to have none, and other
    lists are told at a level. -/
def next (g : Stage) (id : ElementId) (symbol : Symbol) (level : Nat) : Stage where
  world := g.world
  stack := symbol :: g.stack
  making := id :: g.making
  lists other := if other = symbol then some [] else g.world.supertypesAt level other

/-- The level at which other lists are told while a list is made: below the first one that gives the
    list, if there is one. -/
theorem Fair.exists_level {g : Stage} (h : g.Fair) {id : ElementId} {symbol : Symbol}
    (hnew : symbol ∉ g.stack)
    (hv : (g.lists symbol).isSome ∨ g.Calm) :
    ∃ j, (∀ other ∈ symbol :: g.stack, g.world.supertypesAt j other = none) ∧
      ((g.world.supertypesAt (j + 1) symbol).isSome ∨ (g.next id symbol j).Calm) := by
  -- the stack has no list at a level at which the symbol has one
  by_cases hgiven : ∃ n l, g.world.supertypesAt n symbol = some l ∧
      ∀ other ∈ g.stack, g.world.supertypesAt n other = none
  · obtain ⟨n, l, hl, hstack⟩ := hgiven
    obtain ⟨j, hj, hnone, hsome⟩ := World.exists_first_level hl
    refine ⟨j, ?_, .inl (hsome ▸ rfl)⟩
    rintro other (_ | ⟨_, hmem⟩)
    · exact hnone
    · exact World.supertypesAt_eq_none (Nat.le_of_lt hj) (hstack other hmem)
  · refine ⟨0, fun _ _ => rfl, .inr ?_⟩
    have hcalm : g.Calm := by
      refine hv.resolve_left fun hsome => hgiven ?_
      obtain ⟨l, hl⟩ := Option.isSome_iff_exists.1 hsome
      rcases h.told symbol l hl with ⟨hmem, -⟩ | ⟨n, hn⟩
      · exact absurd hmem hnew
      · exact ⟨n, l, hn⟩
    rintro other (_ | ⟨_, hmem⟩) n
    · show g.world.supertypesAt n symbol = none
      cases hn : g.world.supertypesAt n symbol with
      | none => rfl
      | some l => exact absurd ⟨n, l, hn, fun other hmem => hcalm other hmem n⟩ hgiven
    · exact hcalm other hmem n

theorem Fair.next {g : Stage} (h : g.Fair) {id : ElementId} {symbol : Symbol} {level : Nat}
    (hnew : symbol ∉ g.stack)
    (hdecl : symbol ∈ (List.range g.world.index.size).map g.world.symbolOf)
    (hlevel : ∀ other ∈ symbol :: g.stack, g.world.supertypesAt level other = none) :
    (g.next id symbol level).Fair where
  told other l hl := by
    dsimp only [Stage.next] at hl ⊢
    split at hl
    · rename_i heq
      cases hl
      exact .inl ⟨heq ▸ List.mem_cons_self, rfl⟩
    · exact .inr ⟨level, hl, hlevel⟩
  distinct := List.nodup_cons.2 ⟨hnew, h.distinct⟩
  declared := by
    rintro other (_ | ⟨_, hmem⟩)
    · exact hdecl
    · exact h.declared other hmem

end Stage

variable {g : Stage} {w : World} {s : Session}

/-! ### Elements that queries find -/

theorem collectFound_follows {α : Type} {query : α → Query (Option ElementId)}
    {rule : α → Rule (Option Symbol)} {as : List α}
    (h : ∀ a ∈ as, ∀ t, t.Resolved g.world → s.Resolves t →
      g.Obeys t (query a) (rule a) (optional shown))
    {t : Session} (ht : t.Resolved g.world) (hg : s.Resolves t) :
    g.Follows t (collectFound query as) (Rule.collectFound rule as) shownAll := by
  induction as generalizing t with
  | nil => exact .pure fun _ => .nil
  | cons a rest ih =>
    unfold collectFound Rule.collectFound
    refine Follows.bind (m := (query a).run) (i := (rule a).run) (h a List.mem_cons_self t ht hg) ?_
    intro r r' u hu hg' hr
    have hrest := ih (fun b hb => h b (List.mem_cons_of_mem _ hb)) hu (hg.trans hg')
    refine hrest.bind fun ids symbols v hv hg'' hall => .pure fun _ => ?_
    refine Session.ShowsAll.append ?_ hall
    match r, r', hr with
    | .ok (some id), .ok (some symbol), hr =>
      exact .cons (Session.ShowsType.grow hu.sound hr hg''.toKeeps) .nil
    | .ok none, .ok none, _ => exact .nil
    | .error e, .error e', _ => exact .nil

/-- The types of canonical names are looked up one by one. -/
theorem Rule.collectFound_lookup {α : Type} (w : World) (text : α → String) (as : List α) :
    Rule.collectFound (fun a => some <$> Rule.ofExcept (w.lookup (text a))) as =
      pure (w.found (as.map text)) := by
  induction as with
  | nil => rfl
  | cons a rest ih =>
    rw [Rule.collectFound, ih, List.map_cons]
    unfold World.found
    rw [List.filterMap_cons]
    cases w.lookup (text a) <;> rfl

theorem collectFound_names {α : Type} {query : α → Query ElementId} {text : α → String}
    {as : List α}
    (h : ∀ a ∈ as, ∀ t, t.Resolved g.world → s.Resolves t →
      g.Obeys t (query a) (Rule.ofExcept (g.world.lookup (text a))) shown)
    {t : Session} (ht : t.Resolved g.world) (hg : s.Resolves t) :
    g.Follows t (collectFound (fun a => some <$> query a) as)
      (pure (g.world.found (as.map text))) shownAll := by
  rw [← Rule.collectFound_lookup]
  refine collectFound_follows (s := s) (fun a ha u hu hg' => ?_) ht hg
  exact (h a ha u hu hg').map fun _ _ _ _ _ hshow => hshow

/-- The type of a name that the batch knows. -/
theorem findName_obeys {n : Name} (hn : g.world.names.Issued n) {t : Session}
    (ht : t.Resolved g.world) :
    g.Obeys t (findType n) (Rule.ofExcept (g.world.lookup (g.world.text n))) shown := by
  have h := findType_obeys (g := g) (hn.le ht.of.names)
  rw [ht.of.text hn] at h
  exact h

/-- The type of a canonical name as text. -/
theorem findText_obeys (name : String) {t : Session} :
    g.Obeys t (do findType (← internName name)) (Rule.ofExcept (g.world.lookup name)) shown := by
  refine .after (internName_ends name).resolving fun n u hu _ hn => ?_
  have h := findType_obeys (g := g) (s := u) ⟨name, hn⟩
  rw [NameTable.text_eq hn] at h
  exact h

/-! ### The list of a type -/

section Make

variable {symbol : Symbol} {id : ElementId} {supertypesOf : ElementId → SessionM (List ElementId)}

/-- What a declaration extends without writing it is seen from its element. -/
theorem Session.IsTree.implicitSupertype?_eq {d : DeclId} {i : DeclInfo} {tree : TypeDecl}
    {e : Element} (he : s.IsTree id d i tree e) (ho : s.Of w) :
    implicitSupertype? s.wellKnown e (s.shapeOf d i tree) = w.implicit? i tree.head := by
  rw [implicitSupertype?, World.implicit?, he.kind, he.qualifiedName, ho.wellKnown]
  cases tree.head.kind <;> rfl

theorem World.implicit?_issued (hw : w.Sound) {i : DeclInfo} {h : DeclHead} :
    ∀ n ∈ w.implicit? i h, w.names.Issued n := by
  have hk := hw.wellKnown
  intro n hn
  rw [World.implicit?] at hn
  split at hn
  case h_4 => split at hn <;> cases hn; exact hk.rootObject
  case h_1 => cases hn; exact hk.enumBase
  case h_2 => cases hn; exact hk.recordBase
  case h_3 => cases hn; exact hk.annotationBase
  case h_5 => cases hn

/-- The type around the body of a constant is found over the constant. -/
theorem constantOwner_follows {d : DeclId} {i : DeclInfo} {tree : TypeDecl} {e : Element}
    (he : s.IsTree id d i tree e) (hc : i.constant.isSome) :
    g.Follows s (match e.enclosing with
        | some constant => do return (← elementAt constant).enclosing.toList
        | none => return [])
      (pure (i.parent.map g.world.symbolOf).toList) shownAll := by
  refine .sound fun hs => ?_
  have haround := he.around hs.sound
  generalize e.enclosing = enc at haround
  cases haround with
  | nothing hparent =>
    rw [hparent]
    exact .pure fun _ => .nil
  | package hparent hget hkind hsource hout =>
    rw [hparent]
    refine .reads (reads_elementAt hget) (.pure fun _ => ?_)
    rw [hout]
    exact .nil
  | constant hparent hm hget hkind hsource howner hden hlt =>
    rw [hparent]
    refine .reads (reads_elementAt hget) (.pure fun _ => ?_)
    rw [howner]
    exact .cons (hs.level (he.primary.parent hs.sound.index he.info hparent) hden).2 .nil
  | type hparent hm hden =>
    rw [hm] at hc
    cases hc

end Make

/-! ### Written supertypes -/

theorem Rule.given_map {α β : Type} {lists : Symbol → Option (List Symbol)} (f : α → β)
    (rule : Rule α) : (f <$> rule).run.given lists = (rule.run.given lists).map (Except.map f) := by
  have hmap : (f <$> rule).run = rule.run >>= ExceptT.bindCont fun a => pure (f a) := rfl
  rw [hmap, Inquiry.given_bind]
  cases rule.run.given lists with
  | none => rfl
  | some r => cases r <;> rfl

theorem Rule.finds_map {α β : Type} {lists : Symbol → List Symbol → Prop} (f : α → β)
    {rule : Rule α} {y : Except ModelError α} (h : rule.run.Finds lists y) :
    (f <$> rule).run.Finds lists (y.map f) := by
  refine Inquiry.Finds.bind (i := rule.run) h ?_
  cases y <;> exact Inquiry.finds_pure _

theorem Session.keeps_cells (s : Session) (cells : Array Cell) : s.Keeps { s with cells } :=
  ⟨rfl, .refl _, fun _ _ h => h, fun _ => rfl⟩

/-- What a session keeps in its cells does not matter for its lists. -/
theorem Session.Resolved.with_cells (h : s.Resolved w) (cells : Array Cell) :
    Session.Resolved w { s with cells } :=
  h.carry (h.sound.carry_cache (s.keeps_cells cells) (fun _ => rfl) rfl rfl) (s.keeps_cells cells)
    h.quiet fun _ _ hl => hl

theorem Session.HoldsList.with_cells {symbol : Symbol} {l : List Symbol} (h : s.HoldsList symbol l)
    (hs : s.Sound) {cells : Array Cell} : Session.HoldsList { s with cells } symbol l := by
  obtain ⟨id, ids, hshow, hslot, hall⟩ := h
  exact ⟨id, ids, hshow.grow hs (s.keeps_cells cells), hslot, hall.grow hs (s.keeps_cells cells)⟩

theorem Session.keepsLists_cells (hs : s.Sound) (cells : Array Cell) :
    s.KeepsLists { s with cells } := fun _ _ h => h.with_cells hs

/-- A session may change the cells that were made since. -/
theorem Session.Resolves.modify_cell {t : Session} {cell : Nat} {f : Cell → Cell}
    (h : s.Resolves t) (hc : s.cells.size ≤ cell) :
    s.Resolves { t with cells := t.cells.modify cell f } :=
  { h with
    names := h.names
    cells := fun c x hx => by
      have hlt := (Array.getElem?_eq_some_iff.1 hx).1
      rw [Array.getElem?_modify, if_neg (by omega)]
      exact h.cells c x hx }

section Written

variable {supertypesOf : ElementId → SessionM (List ElementId)}

/-- The first request of a reference resolves it and keeps the outcome. -/
theorem run_resolveType {cell : Nat} {r : TypeReference} {args : List ModelType}
    {enclosing : ModelType} {t : Session} {x : Except ModelError ElementId}
    (hcell : s.cells[cell]? = some { reference := r })
    (hrun : (resolveReference supertypesOf r).run.run.run s = (.ok x, t)) :
    (resolveType supertypesOf (.declared s.token (.written cell r) args enclosing)).run.run.run s =
      (.ok (x.map some), { t with
        cells := t.cells.modify cell fun c => { c with outcome := some x } }) := by
  have hgiven : (s.cells[cell]?).bind Cell.outcome = none := by rw [hcell]; rfl
  have htarget : (resolveTarget supertypesOf (.written cell r)).run.run.run s =
      (.ok x, { t with cells := t.cells.modify cell fun c => { c with outcome := some x } }) := by
    unfold resolveTarget
    rw [Query.run_get_bind, hgiven]
    exact Query.run_attempt_bind hrun
  have hmap : (some <$> resolveTarget supertypesOf (.written cell r) : Query _) =
      resolveTarget supertypesOf (.written cell r) >>= fun id => pure (some id) := rfl
  show (if s.token = s.token then some <$> resolveTarget supertypesOf (.written cell r)
    else throw .foreignType : Query _).run.run.run s = _
  rw [if_pos rfl, hmap, Query.run_bind htarget]
  cases x <;> rfl

/-- **A supertype clause is resolved as the rules say.** What becomes known of its reference is kept
    in a cell that no one holds. -/
theorem writtenSupertype_obeys (hsup : g.Supplies supertypesOf) {sc : Scope} {type : TypeRef}
    (hsc : s.Scoped g.world sc) (ht : type.Sound g.world.names) :
    g.Obeys s (do resolveType supertypesOf (← typeOf supertypesOf sc type))
      (do g.world.resolveType (← g.world.typeOf sc.view type)) (optional shown) := by
  have hlift : g.Obeys s (liftM (typeOf supertypesOf sc type))
      (liftM (g.world.typeOf sc.view type)) (Held g.world s.cells.size type) :=
    Follows.bind (typeOf_follows hsup hsc ht (Nat.le_refl _)) fun _ _ _ _ _ h =>
      Follows.pure fun _ => h
  refine Follows.bind_since (m := (liftM (typeOf supertypesOf sc type) : Query ModelType).run)
    (i := (liftM (g.world.typeOf sc.view type) : Rule TypeView).run)
    (F := ExceptT.bindCont g.world.resolveType) hlift ?_
  intro r r' t ht hg hr
  -- If the type is written, it is resolved only where it refers to something.
  match r, r', hr with
  | .error e, .error e', hr =>
    have herror : g.Follows t (pure (.error e)) (pure (.error e'))
        (outcomes g.world.provider.Excuses (optional shown)) := Follows.pure fun _ => hr
    exact herror.since ht hg
  | .ok type, .ok v, ⟨hholds, hview, hcell, _, _⟩ =>
    subst hview
    -- No other type has an element.
    have habsent : g.FollowsSince s t (pure (.ok none)) (pure (.ok none))
        (outcomes g.world.provider.Excuses (optional shown)) :=
      (Follows.pure fun _ => trivial).since ht hg
    match type with
    | .declared origin (.known id) args enclosing =>
      rw [Session.Holds] at hholds
      obtain ⟨rfl, ⟨symbol, hsymbol⟩, -⟩ := hholds
      have hknown : g.Obeys t (resolveTarget supertypesOf (.known id))
          (g.world.resolveTarget (.known (t.symbolAt id))) shown :=
        .pure fun _ => by
          rw [Session.symbolAt_eq ht hsymbol]
          exact hsymbol
      refine Follows.since ?_ ht hg
      show g.Obeys t (get >>= fun st => if t.token = st.token then _ else _) _ _
      refine .read ?_
      rw [if_pos rfl]
      exact hknown.map fun _ _ _ _ _ h => h
    | .declared origin (.written cell r) args enclosing =>
      rw [Session.Holds] at hholds
      obtain ⟨rfl, ⟨hrefers, c, hc, rfl, -⟩, -⟩ := hholds
      -- The cell is one that this type was read with, so nothing has resolved it yet.
      obtain ⟨hfirst, r, hempty⟩ := hcell cell rfl
      obtain rfl : c = { reference := r } := Option.some.inj (hc.symm.trans hempty)
      intro hm hv
      have hgiven : (some <$> g.world.resolveReference r.view).run.given g.lists = _ :=
        Rule.given_map some (g.world.resolveReference r.view)
      have hv' : ((g.world.resolveReference r.view).run.given g.lists).isSome ∨ g.Calm := by
        refine hv.imp_left fun h => ?_
        rw [← Option.isSome_map, ← hgiven]
        exact h
      obtain ⟨_, u, hrun, hu, hg', x, rfl, y, hxy, hy⟩ :=
        resolveReference_obeys hsup hrefers hm hv' ht
      -- It is resolved now, and the cell keeps the outcome; no other cell and no list changes.
      refine ⟨_, _, run_resolveType hempty hrun, hu.with_cells _,
        (hg.trans hg').modify_cell hfirst, ?_, y.map some, ?_, ?_⟩
      · intro symbol symbols hlist
        exact (hg'.keepsLists ht.sound symbol symbols hlist).with_cells hu.sound
      · match x, y, hxy with
        | .ok id, .ok symbol, h => exact h.grow hu.sound (u.keeps_cells _)
        | .error e, .error e', h => exact h
      · refine ⟨fun z hz => ?_, fun hstack => ?_⟩
        · obtain ⟨z', hz', rfl⟩ := Option.map_eq_some_iff.1 (hgiven.symm.trans hz)
          rw [hy.told z' hz']
        · exact Rule.finds_map some
            ((hy.held hstack).mono fun _ _ hlist => hlist.with_cells hu.sound)
    | .primitive _ => exact habsent
    | .absent => exact habsent
    | .void => exact habsent
    | .package => exact habsent
    | .array _ => exact habsent
    | .typeVariable _ _ => exact habsent
    | .wildcard _ _ => exact habsent
    | .error => exact habsent

end Written

/-! ### Making a list -/

section Compute

variable {symbol : Symbol} {id : ElementId} {supertypesOf : ElementId → SessionM (List ElementId)}

/-- What the header of a declaration names. -/
theorem writtenSupertypes_follows (hsup : g.Supplies supertypesOf) {d : DeclId} {tree : TypeDecl}
    (hp : s.index.Primary d) (hd : s.Denotes (s.index.keyOf d) id)
    (htree : g.world.index.tree? g.world.units d = some tree) {implicit : List ElementId}
    {names : List Symbol} (himplicit : s.ShowsAll implicit names) :
    g.Follows s (do
        match ← (headerScopeOf id).run with
        | .ok sc =>
          let written ← collectFound
            (fun t => do resolveType supertypesOf (← typeOf supertypesOf sc t))
            (tree.head.extended ++ tree.head.implemented)
          return implicit ++ written
        | .error _ => return implicit)
      (do
        let written ← Rule.collectFound
          (fun t => do g.world.resolveType (← g.world.typeOf (g.world.headerScopeOf d) t))
          (tree.head.extended ++ tree.head.implemented)
        return names ++ written) shownAll := by
  refine .sound fun hs => ?_
  obtain ⟨sc, hreads, hview, hscoped⟩ := reads_headerScopeOf hs hp hd
  have hsound := (DeclIndex.sound_of_tree? hs.world.trees htree).head.supertypes
  refine .reads hreads ?_
  rw [← hview]
  refine (collectFound_follows (s := s) (fun type htype t ht hg => ?_) hs (.refl s)).bind
    fun ids symbols t ht hg hall => .pure fun _ => ?_
  · exact writtenSupertype_obeys hsup (hscoped.grow hs.sound hg.toKeeps) (hsound type htype)
  · exact (Session.ShowsAll.grow hs.sound himplicit hg.toKeeps).append hall

/-- **The list of a type is made as the rules say**, when the lists of others are. -/
theorem computeSupertypes_follows
    (hsup : (g.world.declOf? symbol).isSome → g.Supplies supertypesOf)
    (hshow : s.ShowsType symbol id) :
    g.Follows s (computeSupertypes supertypesOf id) (g.world.listing symbol) shownAll := by
  refine .sound fun hs => ?_
  unfold computeSupertypes World.listing
  cases hd : g.world.declOf? symbol with
  | some d =>
    obtain ⟨hp, -, hden⟩ := hshow.shows.tree hs.world hs.sound hs.of hd
    obtain ⟨i, tree, e, he⟩ := hs.sound.isTree hp hden
    have htree := he.tree_world hs.of
    refine .reads (reads_elementAt he.get) ?_
    rw [he.source]
    dsimp only
    rw [he.info_world hs.of, htree]
    dsimp only
    unfold World.declaredListing
    show g.Follows s (if i.constant.isSome then _ else _) _ _
    split
    · -- The body of a constant extends the enum around the constant.
      rename_i hc
      exact constantOwner_follows he hc
    · refine .read ?_
      rw [he.implicitSupertype?_eq hs.of]
      have hissued := World.implicit?_issued hs.world (i := i) (h := tree.head)
      -- The supertype that no clause names comes first, then those that are written.
      have hnames : g.Follows s
          (collectFound (fun n => some <$> findType n) (g.world.implicit? i tree.head).toList)
          (pure (g.world.found ((g.world.implicit? i tree.head).toList.map g.world.text)))
          shownAll := collectFound_names
        (fun n hn t ht _ => findName_obeys (hissued n (Option.mem_toList.1 hn)) ht) hs (.refl s)
      refine hnames.bind (F := fun names => do
        let written ← Rule.collectFound
          (fun t => do g.world.resolveType (← g.world.typeOf (g.world.headerScopeOf d) t))
          (tree.head.extended ++ tree.head.implemented)
        return names ++ written) fun ids names t ht hg hall => ?_
      have hp' : t.index.Primary d := by rw [hg.index]; exact hp
      have hden' : t.Denotes (t.index.keyOf d) id := by rw [hg.index]; exact hden.grow hg.toKeeps
      exact writtenSupertypes_follows (hsup (by rw [hd]; rfl)) hp' hden' htree hall
  | none =>
    cases symbol with
    | type name =>
      obtain ⟨n, d, e, hname, -, he⟩ := hshow.shows.described hs.world hs.sound hs.of hd
      have hdesc : g.world.descriptorOf? (.type name) = some d := by
        have hanswer := he.answer
        have hfree : g.world.find? name = none := hd
        rw [hname, hs.of.provider] at hanswer
        dsimp only [World.descriptorOf?]
        rw [hfree, hanswer]
        rfl
      refine .reads (reads_elementAt he.get) ?_
      rw [he.source, hdesc]
      have h := collectFound_names (g := g) (s := s)
        (fun name (_ : name ∈ d.superclass.toList ++ d.interfaces) t _ _ => findText_obeys name)
        hs (.refl s)
      rw [List.map_id'] at h
      exact h
    | unnamed d => cases hd
    | _ => exact hshow.isType.elim

end Compute

/-! ### The lists of a session -/

namespace Session

/-- A session that has requested a list of supertypes. -/
def listing (s : Session) (id : ElementId) : Session :=
  { s with supertypes := (s.supertypes.request id).2 }

/-- A session in which the making of a list has ended. -/
def listed (s : Session) (id : ElementId) (ids : List ElementId) : Session :=
  { s with supertypes := s.supertypes.finish id ids }

theorem keeps_listing (s : Session) (id : ElementId) : s.Keeps (s.listing id) :=
  ⟨rfl, .refl _, fun _ _ h => h, fun _ => rfl⟩

theorem keeps_listed (s : Session) (id : ElementId) (ids : List ElementId) :
    s.Keeps (s.listed id ids) :=
  ⟨rfl, .refl _, fun _ _ h => h, fun _ => rfl⟩

theorem Sound.listing (h : s.Sound) (id : ElementId) : (s.listing id).Sound :=
  h.carry_cache (s.keeps_listing id) (fun _ => rfl) rfl rfl

theorem Sound.listed (h : s.Sound) (id : ElementId) (ids : List ElementId) :
    (s.listed id ids).Sound :=
  h.carry_cache (s.keeps_listed id ids) (fun _ => rfl) rfl rfl

variable {id : ElementId} {symbol : Symbol} {stack : List Symbol} {making : List ElementId}

theorem slot?_listing (hnew : s.supertypes.slot? id = none ∨ s.supertypes.slot? id = some .vacant)
    (k : ElementId) : (s.listing id).supertypes.slot? k =
      if k = id then some .building else s.supertypes.slot? k := by
  rcases s.supertypes.request_eq id with ⟨v, hv, -, -⟩ | ⟨hb, -, -⟩ | ⟨-, -, h⟩
  · rw [hv] at hnew
    rcases hnew with hnew | hnew <;> cases hnew
  · rw [hb] at hnew
    rcases hnew with hnew | hnew <;> cases hnew
  · exact h k

theorem slot?_listed (s : Session) (id : ElementId) (ids : List ElementId) (k : ElementId) :
    (s.listed id ids).supertypes.slot? k =
      if k = id then some (.ready ids) else s.supertypes.slot? k :=
  Cache.slot?_finish ..

/-- A session that has begun a list makes one more. -/
theorem Makes.listing (h : s.Makes stack making) (hshow : s.Shows symbol id)
    (hnew : s.supertypes.slot? id = none ∨ s.supertypes.slot? id = some .vacant) (hs : s.Sound) :
    (s.listing id).Makes (symbol :: stack) (id :: making) where
  only k hk := by
    rw [slot?_listing hnew] at hk
    split at hk
    · rename_i heq
      rw [heq]
      exact ⟨symbol, List.mem_cons_self, hshow.grow hs (s.keeps_listing id)⟩
    · obtain ⟨other, hmem, hother⟩ := h.only k hk
      exact ⟨other, List.mem_cons_of_mem _ hmem, hother.grow hs (s.keeps_listing id)⟩
  all := by
    rintro other (_ | ⟨_, hmem⟩)
    · exact ⟨id, hshow.grow hs (s.keeps_listing id), (slot?_listing hnew id).trans (if_pos rfl)⟩
    · obtain ⟨k, hother, hk⟩ := h.all other hmem
      refine ⟨k, hother.grow hs (s.keeps_listing id), (slot?_listing hnew k).trans ?_⟩
      -- The lists that were being made are those of other elements.
      rw [if_neg]
      · exact hk
      · rintro rfl
        rw [hk] at hnew
        rcases hnew with hnew | hnew <;> cases hnew
  these k hk := by
    rw [slot?_listing hnew]
    split
    · rfl
    · rename_i hne
      exact h.these k ((List.mem_cons.1 hk).resolve_left hne)

theorem Resolved.listing (h : s.Resolved w)
    (hnew : s.supertypes.slot? id = none ∨ s.supertypes.slot? id = some .vacant) :
    (s.listing id).Resolved w := by
  refine h.carry (h.sound.listing id) (s.keeps_listing id) h.quiet fun k ids hk => ?_
  rw [slot?_listing hnew] at hk
  split at hk
  · cases hk
  · exact hk

/-- A request that starts nothing changes no slot. -/
theorem Resolved.listing_same (h : s.Resolved w)
    (hsame : (s.listing id).supertypes.slot? = s.supertypes.slot?) :
    (s.listing id).Resolved w ∧ s.Resolves (s.listing id) := by
  constructor
  · refine h.carry (h.sound.listing id) (s.keeps_listing id) h.quiet fun k ids hk => ?_
    rw [← hsame]
    exact hk
  · exact
      { Resolves.refl s with
        names := .refl _
        lists := fun k ids hk => by rw [hsame]; exact hk
        building := fun k => by rw [hsame] }

/-- A list that has been made is kept, if it is the one that the rules give. -/
theorem Resolved.listed {ids : List ElementId} (h : s.Resolved w) (hshow : s.ShowsType symbol id)
    (hl : s.Lists w symbol ids) : (s.listed id ids).Resolved w where
  world := h.world
  sound := h.sound.listed id ids
  quiet := h.quiet
  of := h.of.grow (s.keeps_listed id ids)
  lists k l hk := by
    have hkeeps := s.keeps_listed id ids
    rw [slot?_listed] at hk
    split at hk
    · rename_i heq
      cases hk
      rw [heq]
      exact ⟨symbol, hshow.grow h.sound hkeeps, hl.grow h.sound hkeeps⟩
    · obtain ⟨other, hother, hlist⟩ := h.lists k l hk
      exact ⟨other, hother.grow h.sound hkeeps, hlist.grow h.sound hkeeps⟩

/-- A list that was begun and has been made leaves no other one under construction. -/
theorem Resolves.listed {t : Session} {ids : List ElementId}
    (hnew : s.supertypes.slot? id = none ∨ s.supertypes.slot? id = some .vacant)
    (h : (s.listing id).Resolves t) : s.Resolves (t.listed id ids) where
  toKeeps := (s.keeps_listing id).trans (h.toKeeps.trans (t.keeps_listed id ids))
  elements := h.elements
  fresh := h.fresh
  cells := h.cells
  lists k l hk := by
    have hne : k ≠ id := by
      rintro rfl
      rw [hk] at hnew
      rcases hnew with hnew | hnew <;> cases hnew
    rw [slot?_listed, if_neg hne]
    exact h.lists k l (((slot?_listing hnew k).trans (if_neg hne)).trans hk)
  building k := by
    rw [slot?_listed]
    split
    · rename_i heq
      rw [heq]
      refine ⟨(fun h => by cases h), fun hb => ?_⟩
      rw [hb] at hnew
      rcases hnew with hnew | hnew <;> cases hnew
    · rename_i hne
      rw [h.building k, slot?_listing hnew, if_neg hne]

end Session

theorem run_requestSupertypes (s : Session) (id : ElementId) :
    (requestSupertypes id).run.run s = (.ok (s.supertypes.request id).1, s.listing id) := rfl

/-- What a request for a list does when the list is not there yet. -/
theorem run_supertypesWithin {fuel : Nat} {making : List ElementId} {id : ElementId}
    {ids : List ElementId} {t : Session} (hreq : (s.supertypes.request id).1 = .construct)
    (hfirst : making.contains id = false)
    (hrun : (computeSupertypes (supertypesWithin fuel (id :: making)) id).run.run (s.listing id) =
      (.ok ids, t)) :
    (supertypesWithin (fuel + 1) making id).run.run s = (.ok ids, t.listed id ids) := by
  unfold supertypesWithin
  rw [SessionM.run_bind (run_requestSupertypes s id), hreq]
  dsimp only
  rw [hfirst, if_neg Bool.false_ne_true]
  rw [SessionM.run_bind (run_guarded _ hrun)]
  rfl

section Supplies

variable {fuel : Nat} {making : List ElementId} {id : ElementId} {symbol : Symbol}

/-- The list of a symbol on the stack is under construction. -/
theorem Session.Makes.slot? {stack : List Symbol} (h : s.Makes stack making) (hs : s.Sound)
    (hshow : s.ShowsType symbol id) (hmem : symbol ∈ stack) :
    s.supertypes.slot? id = some .building := by
  obtain ⟨k, hk, hslot⟩ := h.all symbol hmem
  rw [hshow.shows.functional hs hk]
  exact hslot

/-- A list that is there is the one that the rules give. -/
theorem supertypesWithin_found (hfair : g.Fair) {ids : List ElementId}
    (hshow : s.ShowsType symbol id) (hslot : s.supertypes.slot? id = some (.ready ids)) :
    g.Follows s (supertypesWithin (fuel + 1) making id) (Inquiry.listOf symbol) shownAll := by
  intro hm _ hs
  rcases s.supertypes.request_eq id with ⟨ids', hslot', hreq, hsame⟩ | ⟨hslot', -, -⟩ | ⟨hnew, -, -⟩
  · obtain rfl : ids' = ids := by
      rw [hslot'] at hslot
      cases hslot
      rfl
    obtain ⟨hresolved, hgrows⟩ := hs.listing_same hsame
    obtain ⟨other, hother, symbols, hall, hset⟩ := hs.lists id ids' hslot
    obtain rfl := hshow.shows.unique hs.sound hother.shows
    have hall' := hall.grow hs.sound (s.keeps_listing id)
    refine ⟨.ok ids', s.listing id, ?_, hresolved, hgrows, ids', rfl, symbols, hall',
      fun l hl => ?_, fun _ => Inquiry.finds_listOf ⟨id, ids', ?_, ?_, hall'⟩⟩
    · unfold supertypesWithin
      rw [SessionM.run_bind (run_requestSupertypes s id), hreq]
      rfl
    · rw [Inquiry.given_listOf] at hl
      -- The rule is told a list that is being made, which this one is not, or one that has settled.
      rcases hfair.told symbol l hl with ⟨hmem, -⟩ | ⟨n, hn, -⟩
      · rw [hm.slot? hs.sound hshow hmem] at hslot
        cases hslot
      · exact hset l (World.settles_listOf.2 ⟨n, hn⟩)
    · exact hshow.grow hs.sound (s.keeps_listing id)
    · exact (congrFun hsame id).trans hslot
  · rw [hslot'] at hslot
    cases hslot
  · rw [hslot] at hnew
    rcases hnew with hnew | hnew <;> cases hnew

/-- A list that is under construction is told to be empty. -/
theorem supertypesWithin_reentrant (hfair : g.Fair) (hshow : s.ShowsType symbol id)
    (hslot : s.supertypes.slot? id = some .building) :
    g.Follows s (supertypesWithin (fuel + 1) making id) (Inquiry.listOf symbol) shownAll := by
  intro hm _ hs
  rcases s.supertypes.request_eq id with ⟨ids, hslot', -, -⟩ | ⟨-, hreq, hsame⟩ | ⟨hnew, -, -⟩
  · rw [hslot'] at hslot
    cases hslot
  · obtain ⟨hresolved, hgrows⟩ := hs.listing_same hsame
    obtain ⟨other, hmem, hother⟩ := hm.only id hslot
    obtain rfl := hother.unique hs.sound hshow.shows
    refine ⟨.ok [], s.listing id, ?_, hresolved, hgrows, [], rfl, [], .nil, fun l hl => ?_,
      fun hstack => ?_⟩
    · unfold supertypesWithin
      rw [SessionM.run_bind (run_requestSupertypes s id), hreq]
      rfl
    · rw [Inquiry.given_listOf] at hl
      rcases hfair.told other l hl with ⟨-, hnil⟩ | ⟨n, hn, hstack⟩
      · exact hnil
      · rw [hstack other hmem] at hn
        cases hn
    · rw [hstack] at hmem
      cases hmem
  · rw [hslot] at hnew
    rcases hnew with hnew | hnew <;> cases hnew

/-- A list that is not there yet is made, in the next stage. -/
theorem supertypesWithin_construct (hfair : g.Fair) (hshow : s.ShowsType symbol id)
    (hnew : s.supertypes.slot? id = none ∨ s.supertypes.slot? id = some .vacant)
    (hsup : ∀ j, (g.next id symbol j).Fair →
      (g.next id symbol j).Supplies (supertypesWithin fuel (id :: g.making))) :
    g.Follows s (supertypesWithin (fuel + 1) g.making id) (Inquiry.listOf symbol) shownAll := by
  intro hm hv hs
  rw [Inquiry.given_listOf] at hv
  have hnot : symbol ∉ g.stack := fun hmem => by
    rw [hm.slot? hs.sound hshow hmem] at hnew
    rcases hnew with hnew | hnew <;> cases hnew
  have hreq : (s.supertypes.request id).1 = .construct := by
    rcases s.supertypes.request_eq id with ⟨ids, hslot, -, -⟩ | ⟨hslot, -, -⟩ | ⟨-, hreq, -⟩
    · rw [hslot] at hnew
      rcases hnew with hnew | hnew <;> cases hnew
    · rw [hslot] at hnew
      rcases hnew with hnew | hnew <;> cases hnew
    · exact hreq
  -- the element is under construction if its list is being made
  have hfirst : g.making.contains id = false := by
    rw [Bool.eq_false_iff, Ne, List.contains_iff_mem]
    intro hmem
    rw [hm.these id hmem] at hnew
    rcases hnew with hnew | hnew <;> cases hnew
  obtain ⟨j, hlevel, hgiven⟩ := hfair.exists_level hnot hv
  have hnext : (g.world.declOf? symbol).isSome → (g.next id symbol j).Fair := fun hdecl => by
    obtain ⟨d, hd⟩ := Option.isSome_iff_exists.1 hdecl
    obtain ⟨hp, hsymbol, -⟩ := hshow.shows.tree hs.world hs.sound hs.of hd
    obtain ⟨i, hi⟩ := hp.info
    have hlt : d < g.world.index.size := by
      rw [← hs.of.index]
      exact (Array.getElem?_eq_some_iff.1 hi).1
    exact hfair.next hnot (List.mem_map.2 ⟨d, List.mem_range.2 hlt, hsymbol⟩) hlevel
  have hfollows := computeSupertypes_follows (g := g.next id symbol j)
    (fun hdecl => hsup j (hnext hdecl)) (hshow.grow hs.sound (s.keeps_listing id))
  obtain ⟨_, t, hrun, ht, hg, ids, rfl, symbols, hall, hx⟩ :=
    hfollows (hm.listing hshow.shows hnew hs.sound) hgiven (hs.listing hnew)
  -- the list is the one that the rules give, at whatever level
  have hset : ∀ n l, g.world.supertypesAt n symbol = some l → l = symbols := by
    intro n l hl
    rcases hgiven with hsome | hcalm
    · obtain ⟨l', hl'⟩ := Option.isSome_iff_exists.1 hsome
      rw [← hx.told l' hl']
      exact World.Settles.unique (World.settles_listOf.2 ⟨n, hl⟩)
        (World.settles_listOf.2 ⟨j + 1, hl'⟩)
    · have hnone := hcalm symbol List.mem_cons_self n
      cases hnone.symm.trans hl
  have hshow' := hshow.grow hs.sound ((s.keeps_listing id).trans hg.toKeeps)
  have hlists : t.Lists g.world symbol ids := ⟨symbols, hall, fun l hl =>
    have ⟨n, hn⟩ := World.settles_listOf.1 hl
    hset n l hn⟩
  have hall' := hall.grow ht.sound (t.keeps_listed id ids)
  refine ⟨.ok ids, t.listed id ids, run_supertypesWithin hreq hfirst hrun,
    Session.Resolved.listed ht hshow' hlists, Session.Resolves.listed hnew hg, ids, rfl, symbols,
    hall', fun l hl => ?_, fun _ => Inquiry.finds_listOf ⟨id, ids, ?_, ?_, hall'⟩⟩
  · rw [Inquiry.given_listOf] at hl
    rcases hfair.told symbol l hl with ⟨hmem, -⟩ | ⟨n, hn, -⟩
    · exact absurd hmem hnot
    · exact hset n l hn
  · exact hshow'.grow ht.sound (t.keeps_listed id ids)
  · exact (t.slot?_listed id ids id).trans (if_pos rfl)

/-- **The lists of a session follow the rules.** Types that a batch declares are made in a stage with
    one more list under construction; for others no list is asked for. -/
theorem supertypesWithin_supplies (hfair : g.Fair)
    (hfuel : g.world.index.size < fuel + g.stack.length) :
    g.Supplies (supertypesWithin fuel g.making) := by
  induction fuel generalizing g with
  | zero => exact absurd hfair.length_le (by omega)
  | succ fuel ih =>
    intro s id symbol hshow
    cases hslot : s.supertypes.slot? id with
    | none => exact supertypesWithin_construct hfair hshow (.inl hslot) fun j hj => ih hj (by
        simp only [Stage.next, List.length_cons]
        omega)
    | some slot =>
      cases slot with
      | ready ids => exact supertypesWithin_found hfair hshow hslot
      | building => exact supertypesWithin_reentrant hfair hshow hslot
      | vacant => exact supertypesWithin_construct hfair hshow (.inr hslot) fun j hj => ih hj (by
          simp only [Stage.next, List.length_cons]
          omega)

end Supplies

/-! ### Outside of lists under construction -/

/-- The stage in which no list is under construction, and the lists that can be made by way of chains
    of at most `n` are told. -/
def World.stage (w : World) (n : Nat) : Stage := ⟨w, [], [], w.supertypesAt n⟩

theorem World.fair_stage (w : World) (n : Nat) : (w.stage n).Fair where
  told _ _ hl := .inr ⟨n, hl, fun _ hmem => nomatch hmem⟩
  distinct := .nil
  declared _ hmem := nomatch hmem

theorem directSupertypes_supplies (w : World) (n : Nat) :
    (w.stage n).Supplies directSupertypes := by
  intro s id symbol hshow
  refine .sound fun hs => .read ?_
  have hbound : s.typeBound = w.index.size + w.provider.extent + 1 := by
    rw [Session.typeBound, hs.of.index, hs.of.provider]
    rfl
  have hlt : w.index.size < s.typeBound + 0 := by
    rw [hbound]
    omega
  exact supertypesWithin_supplies (w.fair_stage n) hlt s id symbol hshow

/-- **Answers that settle are given.** Work that follows a rule at all levels has the answer that the
    rule settles, if it settles one; in any case it has the one that the rule gives when told the
    lists that the session holds afterwards. -/
theorem Stage.Follows.settled {α β : Type} {m : SessionM α} {i : Inquiry β}
    {rel : α → β → Session → Prop} (h : ∀ n, (w.stage n).Follows s m i rel) (hm : s.Makes [] []) :
    (resolving w).Ends s m fun a t => ∃ b, rel a b t ∧ t.Concludes w i b := by
  have hcalm : ∀ n, (w.stage n).Calm := fun _ _ hmem => nomatch hmem
  by_cases hx : ∃ x, w.Settles i x
  · obtain ⟨x, n, hx⟩ := hx
    refine (h n hm (.inr (hcalm n))).mono fun a t _ _ ⟨b, hb, hb'⟩ =>
      ⟨b, hb, fun y hy => ?_, hb'.held rfl⟩
    rw [← hb'.told x hx]
    exact hy.unique ⟨n, hx⟩
  · refine (h 0 hm (.inr (hcalm 0))).mono fun a t _ _ ⟨b, hb, hb'⟩ =>
      ⟨b, hb, fun y hy => ?_, hb'.held rfl⟩
    exact absurd ⟨y, hy⟩ hx

end JavaAbi
