import JavaAbi.Proofs.Symbols
import Mathlib.Data.List.Forall2

namespace JavaAbi

/-!
# Following the rules

Work in a session follows a rule when it ends without a breach, with an answer that stands for some
answer in symbols; and for the one that the rule gives, if it gives one when told the lists that are
known at that point. A session keeps lists of supertypes, and some may be under construction. The
elements whose lists are under construction form a stack; what is told of the innermost one is that its
list is empty. Where the stack is empty, the answer is the one that the rule gives when told the lists
that the session holds afterwards.

* `resolving` — the course of resolving names;
* `Session.HoldsList` — the lists that a session holds;
* `Stage` — the world, the stack, and the lists that are told;
* `Stage.Follows`, `Stage.Obeys` — the judgements, for work and for queries;
* `Follows.bind`, `Obeys.bind` — their main rules.
-/

open Course

/-! ### Errors that a provider is to blame for -/

/-- The errors of look-ups: unknown symbols, and answers under another name. -/
def Provider.Excuses (p : Provider) (e : ModelError) : Prop :=
  e.isUnknownSymbol = true ∨
    ∃ name d, p.resolve? name = some d ∧ d.qualifiedName ≠ name ∧ e = .misnamed name d.qualifiedName

theorem Provider.excuses_unknown (p : Provider) (name : String) : p.Excuses (.unknown name) :=
  .inl rfl

theorem Provider.Excuses.located {p : Provider} {e : ModelError} (h : p.Excuses e) (place : Span) :
    p.Excuses (e.located place) := by
  rcases h with h | ⟨name, d, hp, hd, rfl⟩
  · cases e with
    | unknownSymbol n span => cases span <;> exact .inl rfl
    | _ => cases h
  · exact .inr ⟨name, d, hp, hd, rfl⟩

/-- **The errors of a look-up**: the name is unknown, or an answer bears another name. -/
theorem lookupOutcome_error {declared : String → Bool} {p : Provider} {e : ModelError}
    (name : String) (h : lookupOutcome declared p name = .error e) :
    e = .unknown name ∨ ∃ asked d, p.resolve? asked = some d ∧ d.qualifiedName ≠ asked ∧
      e = .misnamed asked d.qualifiedName := by
  cases hd : declared name with
  | true =>
    rw [lookupOutcome_declared hd] at h
    cases h
  | false =>
    cases hp : p.resolve? name with
    | none =>
      rw [lookupOutcome_unknown hd hp] at h
      cases h
      exact .inl rfl
    | some d =>
      by_cases hq : d.qualifiedName = name
      · cases ho : d.enclosingType? with
        | none =>
          rw [lookupOutcome_top hd hp hq ho] at h
          cases h
        | some outer =>
          rw [lookupOutcome_member hd hp hq ho] at h
          split at h
          · cases h
          · rename_i e' he'
            split at h
            · cases h
            · rename_i hknown
              cases h
              -- The error is that of the outer type, but not that it is unknown: then the type is a
              -- top-level one.
              refine .inr ((lookupOutcome_error outer he').resolve_left fun hunknown => ?_)
              exact hknown (hunknown ▸ rfl)
      · rw [lookupOutcome_misnamed hd hp hq] at h
        cases h
        exact .inr ⟨name, d, hp, hq, rfl⟩
  termination_by name.length
  decreasing_by exact hq ▸ d.length_lt_of_enclosingType? ho

theorem lookupOutcome_excused {declared : String → Bool} {p : Provider} {e : ModelError}
    (name : String) (h : lookupOutcome declared p name = .error e) : p.Excuses e :=
  (lookupOutcome_error name h).imp_left fun hunknown => by rw [hunknown]; rfl

/-! ### The course of resolving names -/

namespace Session

/-- Elements stand for symbols of types, in order. -/
def ShowsAll (s : Session) (ids : List ElementId) (symbols : List Symbol) : Prop :=
  List.Forall₂ (fun id symbol => s.ShowsType symbol id) ids symbols

/-- A list of supertypes is the one that the rules give, if they give one. -/
def Lists (s : Session) (w : World) (symbol : Symbol) (ids : List ElementId) : Prop :=
  ∃ symbols, s.ShowsAll ids symbols ∧
    ∀ x, w.Settles (Inquiry.listOf symbol) x → x = symbols

/-- The invariant of a session in which names are resolved. -/
structure Resolved (w : World) (s : Session) : Prop where
  world : w.Sound
  sound : s.Sound
  quiet : s.Quiet
  of : s.Of w
  lists : ∀ id ids, s.supertypes.slot? id = some (.ready ids) →
    ∃ symbol, s.ShowsType symbol id ∧ s.Lists w symbol ids

/-- How resolving names changes a session: lists whose construction it starts, it ends. -/
structure Resolves (s t : Session) : Prop extends Keeps s t where
  elements : ∀ id e, s.elements.get? id = some e → t.elements.get? id = some e
  fresh : ∀ id e, t.elements.get? id = some e → s.elements.get? id = some e ∨ e.bare = e
  cells : ∀ (c : Nat) x, s.cells[c]? = some x → t.cells[c]? = some x
  lists : ∀ id ids, s.supertypes.slot? id = some (.ready ids) →
    t.supertypes.slot? id = some (.ready ids)
  building : ∀ id, t.supertypes.slot? id = some .building ↔ s.supertypes.slot? id = some .building

variable {s t u : Session} {w : World}

theorem Resolves.refl (s : Session) : s.Resolves s where
  toKeeps := .refl s
  elements _ _ h := h
  fresh _ _ h := .inl h
  cells _ _ h := h
  lists _ _ h := h
  building _ := Iff.rfl

theorem Resolves.trans (h : s.Resolves t) (h' : t.Resolves u) : s.Resolves u where
  toKeeps := h.toKeeps.trans h'.toKeeps
  elements id e he := h'.elements id e (h.elements id e he)
  fresh id e he := (h'.fresh id e he).elim (h.fresh id e) .inr
  cells c x hx := h'.cells c x (h.cells c x hx)
  lists id ids hl := h'.lists id ids (h.lists id ids hl)
  building id := (h'.building id).trans (h.building id)

theorem Resolves.cells_size_le (h : s.Resolves t) : s.cells.size ≤ t.cells.size := by
  cases hn : s.cells.size with
  | zero => exact Nat.zero_le _
  | succ n =>
    have hlt : n < s.cells.size := by omega
    exact (Array.getElem?_eq_some_iff.1 (h.cells n _ (Array.getElem?_eq_getElem hlt))).1

theorem Builds.resolves (h : s.Builds t) : s.Resolves t where
  toKeeps := h.toKeeps
  elements := h.elements
  fresh := h.fresh
  cells c x hx := by rw [h.cells]; exact hx
  lists id ids hl := by rw [h.supertypes]; exact hl
  building id := by rw [h.supertypes]

theorem ShowsAll.grow {ids : List ElementId} {symbols : List Symbol} (hs : s.Sound)
    (h : s.ShowsAll ids symbols) (hk : s.Keeps t) : t.ShowsAll ids symbols :=
  List.Forall₂.imp (fun _ _ hx => ShowsType.grow hs hx hk) h

theorem Lists.grow {symbol : Symbol} {ids : List ElementId} (hs : s.Sound)
    (h : s.Lists w symbol ids) (hk : s.Keeps t) : t.Lists w symbol ids := by
  obtain ⟨symbols, hall, hset⟩ := h
  exact ⟨symbols, hall.grow hs hk, hset⟩

/-- The invariant, after a change that keeps what the lists are. -/
theorem Resolved.carry (h : s.Resolved w) (ht : t.Sound) (hk : s.Keeps t) (hq : t.Quiet)
    (hl : ∀ id ids, t.supertypes.slot? id = some (.ready ids) →
      s.supertypes.slot? id = some (.ready ids)) : t.Resolved w where
  world := h.world
  sound := ht
  quiet := hq
  of := h.of.grow hk
  lists id ids hid := by
    obtain ⟨symbol, hshow, hlist⟩ := h.lists id ids (hl id ids hid)
    exact ⟨symbol, hshow.grow h.sound hk, hlist.grow h.sound hk⟩

end Session

/-- The course of resolving names. -/
def resolving (w : World) : Course Session where
  Sound := Session.Resolved w
  Grows := Session.Resolves
  refl := .refl
  trans := .trans

section Resolving

variable {w : World} {s : Session} {α : Type} {m : SessionM α}

/-- Making elements is part of resolving names. -/
theorem Course.Ends.resolving {P : α → Session → Prop} (h : building.Ends s m P) :
    (resolving w).Ends s m P := by
  intro hs
  obtain ⟨r, t, hrun, ht, hg, hr⟩ := h hs.sound
  refine ⟨r, t, hrun, hs.carry ht hg.toKeeps (hs.quiet.grow hg) ?_, hg.resolves, hr⟩
  intro id ids hid
  rw [← hg.supertypes]
  exact hid

end Resolving

/-! ### Stages -/

/-- A list of supertypes that a session holds. -/
def Session.HoldsList (s : Session) (symbol : Symbol) (symbols : List Symbol) : Prop :=
  ∃ id ids, s.ShowsType symbol id ∧ s.supertypes.slot? id = some (.ready ids) ∧
    s.ShowsAll ids symbols

/-- A session goes on holding the lists of another. -/
def Session.KeepsLists (s t : Session) : Prop :=
  ∀ symbol symbols, s.HoldsList symbol symbols → t.HoldsList symbol symbols

theorem Session.Resolves.keepsLists {s t : Session} (h : s.Resolves t) (hs : s.Sound) :
    s.KeepsLists t := by
  rintro symbol symbols ⟨id, ids, hshow, hslot, hall⟩
  exact ⟨id, ids, hshow.grow hs h.toKeeps, h.lists id ids hslot, hall.grow hs h.toKeeps⟩

theorem Session.KeepsLists.refl (s : Session) : s.KeepsLists s := fun _ _ h => h

theorem Session.KeepsLists.trans {s t u : Session} (h : s.KeepsLists t) (h' : t.KeepsLists u) :
    s.KeepsLists u := fun symbol symbols hl => h' symbol symbols (h symbol symbols hl)

/-- **An answer agrees with a rule**: it is the one that the rule settles, if it settles one, and the
    one that the rule gives when told the lists that the session holds. -/
structure Session.Concludes (w : World) (s : Session) {α : Type} (i : Inquiry α) (a : α) : Prop where
  settled : ∀ x, w.Settles i x → x = a
  held : i.Finds s.HoldsList a

theorem Session.Concludes.mono {w : World} {s t : Session} {α : Type} {i : Inquiry α} {a : α}
    (h : s.Concludes w i a) (hl : s.KeepsLists t) : t.Concludes w i a := ⟨h.settled, h.held.mono hl⟩

/-- A session holds one list for a symbol. -/
theorem Session.HoldsList.unique {s : Session} {symbol : Symbol} {l l' : List Symbol} (hs : s.Sound)
    (h : s.HoldsList symbol l) (h' : s.HoldsList symbol l') : l = l' := by
  obtain ⟨id, ids, hshow, hslot, hall⟩ := h
  obtain ⟨id', ids', hshow', hslot', hall'⟩ := h'
  obtain rfl := hshow.shows.functional hs hshow'.shows
  obtain rfl : ids = ids' := by
    cases hslot.symm.trans hslot'
    rfl
  refine List.forall₂_eq_eq_eq ▸ ?_
  clear hslot hslot'
  induction hall generalizing l' with
  | nil =>
    cases hall'
    exact .nil
  | cons hx _ ih =>
    cases hall' with
    | cons hx' hrest' => exact .cons (hx.shows.unique hs hx'.shows) (ih hrest')

/-- Where the resolution of names stands: the symbols whose lists are under construction, the
    innermost one first, their elements, and the lists that are told. -/
structure Stage where
  world : World
  stack : List Symbol
  making : List ElementId
  lists : Symbol → Option (List Symbol)

/-- The lists under construction are those of some symbols, and of these elements at least. -/
structure Session.Makes (s : Session) (stack : List Symbol) (making : List ElementId) : Prop where
  only : ∀ id, s.supertypes.slot? id = some .building → ∃ symbol ∈ stack, s.Shows symbol id
  all : ∀ symbol ∈ stack, ∃ id, s.Shows symbol id ∧ s.supertypes.slot? id = some .building
  these : ∀ id ∈ making, s.supertypes.slot? id = some .building

theorem Session.Makes.grow {stack : List Symbol} {making : List ElementId} {s t : Session}
    (h : s.Makes stack making) (hs : s.Sound) (hg : s.Resolves t) : t.Makes stack making where
  only id hid := by
    obtain ⟨symbol, hmem, hshow⟩ := h.only id ((hg.building id).1 hid)
    exact ⟨symbol, hmem, hshow.grow hs hg.toKeeps⟩
  all symbol hmem := by
    obtain ⟨id, hshow, hid⟩ := h.all symbol hmem
    exact ⟨id, hshow.grow hs hg.toKeeps, (hg.building id).2 hid⟩
  these id hid := (hg.building id).2 (h.these id hid)

/-- No list is under construction. -/
theorem Session.makes_nil {s : Session} :
    s.Makes [] [] ↔ ∀ id, s.supertypes.slot? id ≠ some .building := by
  constructor
  · intro h id hid
    obtain ⟨_, hmem, -⟩ := h.only id hid
    cases hmem
  · intro h
    constructor
    · exact fun id hid => absurd hid (h id)
    · exact List.forall_mem_nil _
    · exact List.forall_mem_nil _

namespace Stage

/-- The rules give no list for a symbol whose list is under construction. -/
def Calm (g : Stage) : Prop := ∀ symbol ∈ g.stack, ∀ n, g.world.supertypesAt n symbol = none

variable {α β γ δ : Type}

/-- An answer is the one that the rule gives, when told the lists of the stage, if it gives one; and
    when told the lists that the session holds, if none is under construction. -/
structure Tells (g : Stage) (t : Session) (i : Inquiry β) (b : β) : Prop where
  told : ∀ x, i.given g.lists = some x → x = b
  held : g.stack = [] → i.Finds t.HoldsList b

/-- **Work follows a rule.** Where the rule gives no answer, because a list is missing, the lists that
    are made in the meantime must not matter: the stage has to be calm. -/
def Follows (g : Stage) (s : Session) (m : SessionM α) (i : Inquiry β)
    (rel : α → β → Session → Prop) : Prop :=
  s.Makes g.stack g.making → (i.given g.lists).isSome ∨ g.Calm →
    (resolving g.world).Ends s m fun a t => ∃ b, rel a b t ∧ g.Tells t i b

/-- Work follows a rule, and whatever else it does, it keeps what the session had learnt at first, and
    the lists that it has learnt since. -/
def FollowsSince (g : Stage) (first s : Session) (m : SessionM α) (i : Inquiry β)
    (rel : α → β → Session → Prop) : Prop :=
  s.Makes g.stack g.making → (i.given g.lists).isSome ∨ g.Calm →
    ∃ a t, m.run.run s = (.ok a, t) ∧ t.Resolved g.world ∧ first.Resolves t ∧ s.KeepsLists t ∧
      ∃ b, rel a b t ∧ g.Tells t i b

/-- Outcomes agree: answers, or the same error, which has to be excused. -/
def outcomes (excused : ModelError → Prop) (rel : α → β → Session → Prop) :
    Except ModelError α → Except ModelError β → Session → Prop
  | .ok a, .ok b, t => rel a b t
  | .error e, .error e', _ => e = e' ∧ excused e
  | _, _, _ => False

theorem outcomes.imp {excused : ModelError → Prop} {rel : α → β → Session → Prop}
    {x : Except ModelError α} {y : Except ModelError β} {s t : Session}
    (h : outcomes excused rel x y s) (hrel : ∀ a b, rel a b s → rel a b t) :
    outcomes excused rel x y t := by
  match x, y, h with
  | .ok a, .ok b, h => exact hrel a b h
  | .error e, .error e', h => exact h

/-- Both or neither. -/
def optional (rel : α → β → Session → Prop) : Option α → Option β → Session → Prop
  | some a, some b, t => rel a b t
  | none, none, _ => True
  | _, _, _ => False

theorem optional.imp {rel : α → β → Session → Prop} {a : Option α} {b : Option β} {s t : Session}
    (h : optional rel a b s) (hrel : ∀ a b, rel a b s → rel a b t) : optional rel a b t := by
  match a, b, h with
  | some a, some b, h => exact hrel a b h
  | none, none, _ => trivial

/-- An element stands for the symbol of a type. -/
def shown (id : ElementId) (symbol : Symbol) (t : Session) : Prop := t.ShowsType symbol id

/-- Elements stand for symbols, in order. -/
def shownAll (ids : List ElementId) (symbols : List Symbol) (t : Session) : Prop :=
  t.ShowsAll ids symbols

/-- The answer is the same. -/
def same (a b : α) (_ : Session) : Prop := a = b

/-- **A query obeys a rule.** -/
def Obeys (g : Stage) (s : Session) (q : Query α) (rule : Rule β)
    (rel : α → β → Session → Prop) : Prop :=
  g.Follows s q.run rule.run (outcomes g.world.provider.Excuses rel)

variable {g : Stage} {s : Session}

theorem Tells.pure (b : β) : g.Tells s (pure b) b where
  told _ hx := (Option.some.inj hx).symm
  held _ := Inquiry.finds_pure b

/-- The answer of an inquiry that goes on. -/
theorem Tells.bind {t : Session} {i : Inquiry β} {F : β → Inquiry δ} {b : β} {d : δ}
    (h : g.Tells s i b) (hk : s.KeepsLists t) (hF : g.Tells t (F b) d) : g.Tells t (i >>= F) d where
  told x hx := by
    rw [Inquiry.given_bind] at hx
    obtain ⟨b', hb', hx⟩ := Option.bind_eq_some_iff.1 hx
    rw [h.told b' hb'] at hx
    exact hF.told x hx
  held hg := ((h.held hg).mono hk).bind (hF.held hg)

/-! ### Work -/

section Follows

variable {m : SessionM α} {i : Inquiry β} {rel : α → β → Session → Prop}
  {rel' : γ → δ → Session → Prop}

theorem Follows.pure {a : α} {b : β} (h : s.Resolved g.world → rel a b s) :
    g.Follows s (pure a) (pure b) rel := fun _ _ =>
  Ends.pure fun hs => ⟨b, h hs, .pure b⟩

theorem Follows.sound (h : s.Resolved g.world → g.Follows s m i rel) : g.Follows s m i rel :=
  fun hm hv => Ends.sound fun hs => h hs hm hv

/-- Work after other work that may undo what the session has learnt in the meantime. What follows the
    first answer is compared with the rule for the symbols that this answer stands for, whether or not
    the rule gives them. -/
theorem Follows.bind_since {f : α → SessionM γ} {F : β → Inquiry δ} (h : g.Follows s m i rel)
    (hf : ∀ a b t, t.Resolved g.world → s.Resolves t → rel a b t →
      g.FollowsSince s t (f a) (F b) rel') :
    g.Follows s (m >>= f) (i >>= F) rel' := by
  intro hm hv hs
  have hgiven : (i >>= F).given g.lists = (i.given g.lists).bind fun b => (F b).given g.lists :=
    Inquiry.given_bind i F
  -- If the rule gives all with the lists at hand, it gives the first part.
  have hv₁ : (i.given g.lists).isSome ∨ g.Calm := by
    rcases hv with hv | hv
    · rw [hgiven] at hv
      refine .inl ?_
      cases hi : i.given g.lists with
      | none => rw [hi] at hv; cases hv
      | some b => rfl
    · exact .inr hv
  obtain ⟨_, t, hrun, ht, hg, a, rfl, b, hrel, hb⟩ := h hm hv₁ hs
  -- What the rule goes on with is told by its first part.
  have hv₂ : ((F b).given g.lists).isSome ∨ g.Calm := by
    rcases hv with hv | hv
    · rw [hgiven] at hv
      refine .inl ?_
      cases hi : i.given g.lists with
      | none => rw [hi] at hv; cases hv
      | some b' =>
        rw [hi, Option.bind_some, hb.told b' hi] at hv
        exact hv
    · exact .inr hv
  obtain ⟨c, u, hrun', hu, hg', hk, d, hd, hx⟩ := hf a b t ht hg hrel (hm.grow hs.sound hg) hv₂
  exact ⟨_, u, (SessionM.run_bind hrun).trans hrun', hu, hg', c, rfl, d, hd, hb.bind hk hx⟩

theorem Follows.since {first : Session} (h : g.Follows s m i rel) (hs : s.Resolved g.world)
    (hg : first.Resolves s) : g.FollowsSince first s m i rel := by
  intro hm hv
  obtain ⟨_, t, hrun, ht, hg', a, rfl, hb⟩ := h hm hv hs
  exact ⟨a, t, hrun, ht, hg.trans hg', hg'.keepsLists hs.sound, hb⟩

/-- Work after other work. -/
theorem Follows.bind {f : α → SessionM γ} {F : β → Inquiry δ} (h : g.Follows s m i rel)
    (hf : ∀ a b t, t.Resolved g.world → s.Resolves t → rel a b t → g.Follows t (f a) (F b) rel') :
    g.Follows s (m >>= f) (i >>= F) rel' :=
  h.bind_since fun a b t ht hg hrel => (hf a b t ht hg hrel).since ht hg

/-- Work of which the answer is known. -/
theorem Follows.ends {P : α → Session → Prop} {b : β} (h : (resolving g.world).Ends s m P)
    (hp : ∀ a t, t.Resolved g.world → s.Resolves t → P a t → rel a b t) :
    g.Follows s m (Pure.pure b) rel := fun _ _ =>
  h.mono fun a t ht hg ha => ⟨b, hp a t ht hg ha, .pure b⟩

/-- Work after work that the rule does not mention. -/
theorem Follows.after {f : α → SessionM γ} {i : Inquiry δ} {P : α → Session → Prop}
    (h : (resolving g.world).Ends s m P)
    (hf : ∀ a t, t.Resolved g.world → s.Resolves t → P a t → g.Follows t (f a) i rel') :
    g.Follows s (m >>= f) i rel' := by
  have hb : g.Follows s m (Pure.pure ()) (fun a (_ : Unit) t => P a t) :=
    .ends h fun _ _ _ _ ha => ha
  exact hb.bind (F := fun _ => i) fun a _ t ht hg ha => hf a t ht hg ha

theorem Follows.reads {f : α → SessionM γ} {i : Inquiry δ} {a : α} (h : Reads s m a)
    (hf : g.Follows s (f a) i rel') : g.Follows s (m >>= f) i rel' :=
  .after h.ends fun _ _ _ _ ⟨ha, ht⟩ => by
    rw [ha, ht]
    exact hf

theorem Follows.read {f : Session → SessionM γ} {i : Inquiry δ}
    (h : g.Follows s (f s) i rel') : g.Follows s (get >>= f) i rel' := fun hm hv =>
  Ends.read fun _ => h hm hv

end Follows

/-! ### Queries -/

section Obeys

variable {q : Query α} {rule : Rule β} {rel : α → β → Session → Prop}
  {rel' : γ → δ → Session → Prop}

theorem Obeys.pure {a : α} {b : β} (h : s.Resolved g.world → rel a b s) :
    g.Obeys s (pure a) (pure b) rel :=
  Follows.pure h

theorem Obeys.throw {e : ModelError} (h : g.world.provider.Excuses e) :
    g.Obeys s (throw e : Query α) (throw e : Rule β) rel :=
  Follows.pure (a := (Except.error e : Except ModelError α))
    (b := (Except.error e : Except ModelError β)) fun _ => ⟨rfl, h⟩

theorem Obeys.sound (h : s.Resolved g.world → g.Obeys s q rule rel) : g.Obeys s q rule rel :=
  Follows.sound h

theorem Obeys.bind {f : α → Query γ} {F : β → Rule δ} (h : g.Obeys s q rule rel)
    (hf : ∀ a b t, t.Resolved g.world → s.Resolves t → rel a b t → g.Obeys t (f a) (F b) rel') :
    g.Obeys s (q >>= f) (rule >>= F) rel' := by
  refine Follows.bind (m := q.run) (i := rule.run) (F := ExceptT.bindCont F) h ?_
  rintro (e | a) (e' | b) t ht hg hrel
  · obtain ⟨rfl, he⟩ := hrel
    exact Follows.pure fun _ => ⟨rfl, he⟩
  · exact hrel.elim
  · exact hrel.elim
  · exact hf a b t ht hg hrel

theorem Obeys.map {f : α → γ} {F : β → δ} (h : g.Obeys s q rule rel)
    (hf : ∀ a b t, t.Resolved g.world → s.Resolves t → rel a b t → rel' (f a) (F b) t) :
    g.Obeys s (f <$> q) (F <$> rule) rel' := by
  have hq : f <$> q = q >>= fun a => Pure.pure (f a) := rfl
  have hr : F <$> rule = rule >>= fun b => Pure.pure (F b) := rfl
  rw [hq, hr]
  exact h.bind fun a b t ht hg hab => .pure fun _ => hf a b t ht hg hab

/-- Work in a query. -/
theorem Obeys.lift {m : SessionM α} {i : Inquiry β} {f : α → Query γ} {F : β → Rule δ}
    (h : g.Follows s m i rel)
    (hf : ∀ a b t, t.Resolved g.world → s.Resolves t → rel a b t → g.Obeys t (f a) (F b) rel') :
    g.Obeys s (liftM m >>= f) (liftM i >>= F) rel' := by
  have hl : g.Obeys s (liftM m) (liftM i) rel :=
    Follows.bind h fun a b t _ _ hab => Follows.pure fun _ => hab
  exact hl.bind hf

/-- Work in a query that the rule does not mention. -/
theorem Obeys.after {m : SessionM α} {P : α → Session → Prop} {f : α → Query γ} {rule : Rule δ}
    (h : (resolving g.world).Ends s m P)
    (hf : ∀ a t, t.Resolved g.world → s.Resolves t → P a t → g.Obeys t (f a) rule rel') :
    g.Obeys s (liftM m >>= f) rule rel' := by
  refine Follows.after (m := Except.ok <$> m) (P := fun r t => ∃ a, r = .ok a ∧ P a t) ?_ ?_
  · exact Ends.bind (m := m) h fun a _ _ _ ha => Ends.pure fun _ => ⟨a, rfl, ha⟩
  · rintro _ t ht hg ⟨a, rfl, ha⟩
    exact hf a t ht hg ha

theorem Obeys.reads {m : SessionM α} {f : α → Query γ} {rule : Rule δ} {a : α} (h : Reads s m a)
    (hf : g.Obeys s (f a) rule rel') : g.Obeys s (liftM m >>= f) rule rel' :=
  .after h.ends fun _ _ _ _ ⟨ha, ht⟩ => by
    rw [ha, ht]
    exact hf

theorem Obeys.read {f : Session → Query γ} {rule : Rule δ} (h : g.Obeys s (f s) rule rel') :
    g.Obeys s (get >>= f) rule rel' := fun hm hv =>
  Ends.read fun _ => h hm hv

/-- A query whose outcome is known. -/
theorem Obeys.answers {r : Except ModelError β} {R : Except ModelError α → Session → Prop}
    (h : (resolving g.world).Answers s q R)
    (hr : ∀ a t, t.Resolved g.world → s.Resolves t → R a t → outcomes g.world.provider.Excuses rel a r t) :
    g.Obeys s q (Rule.ofExcept r) rel :=
  Follows.ends h hr

/-- The outcome of a query. -/
theorem Obeys.attempt {f : Except ModelError α → Query γ} {F : Except ModelError β → Rule δ}
    (h : g.Obeys s q rule rel)
    (hf : ∀ r r' t, t.Resolved g.world → s.Resolves t → outcomes g.world.provider.Excuses rel r r' t →
      g.Obeys t (f r) (F r') rel') :
    g.Obeys s (Query.attempt q >>= f) (liftM rule.run >>= F) rel' :=
  Obeys.lift (m := q.run) h hf

/-- Work on the error of a query. -/
theorem Obeys.handle {f : ModelError → Query α} {F : ModelError → Rule β} (h : g.Obeys s q rule rel)
    (hf : ∀ e t, t.Resolved g.world → s.Resolves t → g.world.provider.Excuses e →
      g.Obeys t (f e) (F e) rel) :
    g.Obeys s (tryCatch q f) (tryCatch rule F) rel := by
  refine Follows.bind (m := q.run) (i := rule.run) h ?_
  rintro (e | a) (e' | b) t ht hg hrel
  · obtain ⟨rfl, he⟩ := hrel
    exact hf e t ht hg he
  · exact hrel.elim
  · exact hrel.elim
  · exact Follows.pure fun _ => hrel

end Obeys

end Stage

end JavaAbi
