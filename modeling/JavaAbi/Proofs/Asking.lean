import JavaAbi.Proofs.CollectedElements
import JavaAbi.Proofs.ElementRules
import JavaAbi.Proofs.InnerTypes
import JavaAbi.Proofs.SupertypeLists

namespace JavaAbi

/-!
# Between questions

Elements keep the answers that they have given, and the cells of references keep what they were
resolved to. What is kept agrees with the rules wherever the rules settle an answer, and it is all
that a question changes of what was there before.

* `Session.Idle` — the invariant of a session between questions;
* `asking` — the course of questions;
* `World.Heeds`, `World.Honours` — work that agrees with a rule where the rule settles an answer.
-/

open Course Stage

/-- A type is held and looks as the rules say. -/
def viewed (w : World) (type : ModelType) (v : TypeView) (t : Session) : Prop :=
  t.Holds w type ∧ t.view type = v

/-- The same for types in order. -/
def viewedAll (w : World) (types : List ModelType) (vs : List TypeView) (t : Session) : Prop :=
  List.Forall₂ (fun type v => viewed w type v t) types vs

/-- The errors of supertypes: those of look-ups, and that a supertype could not be parsed. -/
def World.ExcusesOf (w : World) (symbol : Symbol) (e : ModelError) : Prop :=
  w.provider.Excuses e ∨ (e = .unparsableSupertype ∧ w.Unparsed symbol)

variable {w : World} {s t u : Session} {α β γ δ : Type}

namespace Session

/-! ### Answers that are kept -/

/-- The own type of an element is held and looks as the rules say; where it is written, it has the
    dimensions that are written, and it is read by way of the lists that the session holds. For types
    and constants it is the one that the elements around give. -/
structure OwnTypeAs (w : World) (s : Session) (symbol : Symbol) (type : ModelType) : Prop where
  holds : s.Holds w type
  rule : ∀ v, w.OwnTypeIs symbol v → s.view type = v
  written : ∀ written ∈ w.written? symbol, written.ReadAs type
  held : ∀ reading ∈ w.reading? symbol, reading.Finds s.HoldsList (s.view type)
  own : ∃ id, s.Shows symbol id ∧ ∀ e, s.elements.get? id = some e →
    e.kind ≠ .package → e.kind ≠ .field → s.IsOwnType id type

/-- The outcome of a query agrees with a rule. -/
def OutcomeAs (w : World) (s : Session) (excused : ModelError → Prop)
    (rel : α → β → Session → Prop) (rule : Rule β) (r : Except ModelError α) : Prop :=
  ∃ y, outcomes excused rel r y s ∧ s.Concludes w rule.run y

/-- What an element encloses has elements, for a declaration those of its members, and for a package
    those of the top-level declarations in it. -/
def EnclosedAs (s : Session) (e : Element) (r : Except ModelError (List ElementId)) : Prop :=
  ∃ ids, r = .ok ids ∧ (∀ id ∈ ids, id < s.elements.size) ∧
    (∀ shape, e.source = .tree shape →
      List.Forall₂ (fun id key => s.Denotes key id) ids shape.members) ∧
    (e.source = .package → s.Collects (s.index.inPackage e.qualifiedName.name?) ids)

/-- The answers that the element of a symbol keeps. -/
structure Recalls (w : World) (s : Session) (symbol : Symbol) (e : Element) : Prop where
  ownType : ∀ type, e.ownType = some type → s.OwnTypeAs w symbol type
  superclass : ∀ r, e.superclass = some r →
    s.OutcomeAs w (w.ExcusesOf symbol) (viewed w) (w.superclassOf symbol) r
  interfaces : ∀ r, e.interfaces = some r →
    s.OutcomeAs w (w.ExcusesOf symbol) (viewedAll w) (w.interfacesOf symbol) r
  enclosed : ∀ r, e.enclosed = some r → s.EnclosedAs e r

/-- **The invariant of a session between questions.** -/
structure Idle (w : World) (s : Session) : Prop where
  resolved : s.Resolved w
  making : s.Makes [] []
  recalls : ∀ symbol id e, s.Shows symbol id → s.elements.get? id = some e → s.Recalls w symbol e

/-- How questions change a session: elements change the answers that they keep, and cells their
    outcome. -/
structure Learns (w : World) (s t : Session) : Prop extends Keeps s t where
  lists : s.KeepsLists t
  elements : ∀ id e, s.elements.get? id = some e →
    ∃ e', t.elements.get? id = some e' ∧ e'.bare = e.bare
  cells : ∀ (c : Nat) x, s.cells[c]? = some x → ∃ y, t.cells[c]? = some y ∧
    y.reference = x.reference ∧
      ∀ r, y.outcome = some r → x.outcome = some r ∨ t.Answered w x.reference r

theorem Learns.refl (s : Session) : s.Learns w s where
  toKeeps := .refl s
  lists := .refl s
  elements _ e h := ⟨e, h, rfl⟩
  cells _ x h := ⟨x, h, rfl, fun _ hr => .inl hr⟩

theorem Learns.trans (h : s.Learns w t) (h' : t.Learns w u) : s.Learns w u where
  toKeeps := h.toKeeps.trans h'.toKeeps
  lists := h.lists.trans h'.lists
  elements id e he := by
    obtain ⟨e', he', hb⟩ := h.elements id e he
    obtain ⟨e'', he'', hb'⟩ := h'.elements id e' he'
    exact ⟨e'', he'', hb'.trans hb⟩
  cells c x hx := by
    obtain ⟨y, hy, hxy, hr⟩ := h.cells c x hx
    obtain ⟨z, hz, hyz, hr'⟩ := h'.cells c y hy
    refine ⟨z, hz, hyz.trans hxy, fun r hzr => ?_⟩
    rcases hr' r hzr with hyr | hanswered
    · exact (hr r hyr).imp_right fun hanswered => hanswered.grow h'.toKeeps h'.lists
    · rw [hxy] at hanswered
      exact .inr hanswered

theorem Resolves.learns (h : s.Resolves t) (hs : s.Sound) : s.Learns w t where
  toKeeps := h.toKeeps
  lists := h.keepsLists hs
  elements id e he := ⟨e, h.elements id e he, rfl⟩
  cells c x hx := ⟨x, h.cells c x hx, rfl, fun _ hr => .inl hr⟩

theorem Learns.size_le (h : s.Learns w t) : s.elements.size ≤ t.elements.size := by
  cases hn : s.elements.size with
  | zero => exact Nat.zero_le _
  | succ n =>
    have hlt : n < s.elements.items.size := by
      rw [show s.elements.items.size = n + 1 from hn]
      exact Nat.lt_succ_self n
    obtain ⟨e, he, -⟩ := h.elements n _ (Array.getElem?_eq_getElem hlt)
    exact (Array.getElem?_eq_some_iff.1 he).1

/-! ### What is kept stays true -/

section Grow

theorem HoldsTarget.learn {target : TypeTarget} (hs : s.Sound) (h : s.HoldsTarget w target)
    (hg : s.Learns w t) : t.HoldsTarget w target := by
  match target with
  | .known id =>
    obtain ⟨symbol, hsymbol⟩ := h
    exact ⟨symbol, hsymbol.grow hs hg.toKeeps⟩
  | .written cell r =>
    obtain ⟨hr, c, hc, rfl, hx⟩ := h
    obtain ⟨c', hc', href, hx'⟩ := hg.cells cell c hc
    refine ⟨hr.grow hs hg.toKeeps, c', hc', href, fun x h => ?_⟩
    exact (hx' x h).elim (fun h => (hx x h).grow hg.toKeeps hg.lists) id

theorem Holds.learn {type : ModelType} (hs : s.Sound) (h : s.Holds w type) (hg : s.Learns w t) :
    t.Holds w type :=
  h.carry hs hg.toKeeps fun _ ht => ht.learn hs hg

theorem HoldsAll.learn {types : List ModelType} (hs : s.Sound) (h : s.HoldsAll w types)
    (hg : s.Learns w t) : t.HoldsAll w types :=
  h.carry hs hg.toKeeps fun _ ht => ht.learn hs hg

theorem HoldsBound.learn {bound : Option ModelType} (hs : s.Sound) (h : s.HoldsBound w bound)
    (hg : s.Learns w t) : t.HoldsBound w bound :=
  h.carry hs hg.toKeeps fun _ ht => ht.learn hs hg

theorem viewed_learn {type : ModelType} {v : TypeView} (hs : s.Resolved w) (ht : t.Resolved w)
    (h : viewed w type v s) (hg : s.Learns w t) : viewed w type v t :=
  ⟨h.1.learn hs.sound hg, (view_grow hs ht hg.toKeeps h.1).trans h.2⟩

theorem viewedAll_learn {types : List ModelType} {vs : List TypeView} (hs : s.Resolved w)
    (ht : t.Resolved w) (h : viewedAll w types vs s) (hg : s.Learns w t) :
    viewedAll w types vs t :=
  List.Forall₂.imp (fun _ _ hx => viewed_learn hs ht hx hg) h

theorem OwnTypeAs.learn {symbol : Symbol} {type : ModelType} (hs : s.Resolved w)
    (ht : t.Resolved w) (h : s.OwnTypeAs w symbol type) (hg : s.Learns w t) :
    t.OwnTypeAs w symbol type where
  holds := h.holds.learn hs.sound hg
  rule v hv := (view_grow hs ht hg.toKeeps h.holds).trans (h.rule v hv)
  written := h.written
  held reading hreading := by
    rw [view_grow hs ht hg.toKeeps h.holds]
    exact (h.held reading hreading).mono hg.lists
  own := by
    obtain ⟨id, hshow, hown⟩ := h.own
    refine ⟨id, hshow.grow hs.sound hg.toKeeps, fun e' he' hpackage hfield => ?_⟩
    obtain ⟨e, he⟩ := hshow.get? hs.sound
    obtain ⟨e'', he'', hb⟩ := hg.elements id e he
    cases he'.symm.trans he''
    rw [Element.kind_of_bare hb] at hpackage hfield
    exact (hown e he hpackage hfield).grow hs.sound (congrArg SessionBase.token hg.base) hg.elements

theorem OwnTypeAs.isOwnType {symbol : Symbol} {type : ModelType} {id : ElementId} {e : Element}
    (hs : s.Sound) (h : s.OwnTypeAs w symbol type) (hshow : s.Shows symbol id)
    (he : s.elements.get? id = some e) (hpackage : e.kind ≠ .package) (hfield : e.kind ≠ .field) :
    s.IsOwnType id type := by
  obtain ⟨id', hshow', hown⟩ := h.own
  obtain rfl := hshow'.functional hs hshow
  exact hown e he hpackage hfield

theorem OutcomeAs.learn {excused : ModelError → Prop} {rel : α → β → Session → Prop}
    {rule : Rule β} {r : Except ModelError α} (h : s.OutcomeAs w excused rel rule r)
    (hg : s.Learns w t) (hrel : ∀ a b, rel a b s → rel a b t) : t.OutcomeAs w excused rel rule r := by
  obtain ⟨y, hy, hset⟩ := h
  exact ⟨y, hy.imp hrel, hset.mono hg.lists⟩

/-- Elements that are no declarations and no packages enclose nothing. -/
theorem EnclosedAs.nil {e : Element} (htree : ∀ shape, e.source ≠ .tree shape)
    (hpackage : e.source ≠ .package) : s.EnclosedAs e (.ok []) :=
  ⟨[], rfl, List.forall_mem_nil _, fun shape h => absurd h (htree shape), fun h => absurd h hpackage⟩

/-- What an element encloses does not depend on the answers that it keeps. -/
theorem EnclosedAs.of_bare {e e' : Element} {r : Except ModelError (List ElementId)}
    (hb : e'.bare = e.bare) (h : s.EnclosedAs e r) : s.EnclosedAs e' r := by
  have hsource : e'.source = e.source := show e'.bare.source = e.bare.source from hb ▸ rfl
  have hname : e'.qualifiedName = e.qualifiedName :=
    show e'.bare.qualifiedName = e.bare.qualifiedName from hb ▸ rfl
  rwa [EnclosedAs, hsource, hname]

theorem EnclosedAs.learn {e : Element} {r : Except ModelError (List ElementId)}
    (h : s.EnclosedAs e r) (hg : s.Learns w t) : t.EnclosedAs e r := by
  obtain ⟨ids, rfl, hlt, hden, hpackage⟩ := h
  refine ⟨ids, rfl, fun id hid => Nat.lt_of_lt_of_le (hlt id hid) hg.size_le, fun shape hs => ?_,
    fun hs => ?_⟩
  · exact List.Forall₂.imp (fun _ _ hd => Denotes.grow hd hg.toKeeps) (hden shape hs)
  · rw [hg.toKeeps.index]
    exact (hpackage hs).grow hg.toKeeps

theorem Recalls.learn {symbol : Symbol} {e : Element} (hs : s.Resolved w) (ht : t.Resolved w)
    (h : s.Recalls w symbol e) (hg : s.Learns w t) : t.Recalls w symbol e where
  ownType type htype := (h.ownType type htype).learn hs ht hg
  superclass r hr := (h.superclass r hr).learn hg fun _ _ hx => viewed_learn hs ht hx hg
  interfaces r hr := (h.interfaces r hr).learn hg fun _ _ hx => viewedAll_learn hs ht hx hg
  enclosed r hr := (h.enclosed r hr).learn hg

/-- An element that has given no answers keeps none. -/
theorem Recalls.of_bare {symbol : Symbol} {e : Element} (h : e.bare = e) :
    s.Recalls w symbol e := by
  rw [← h]
  constructor <;> nofun

/-- Elements have symbols. -/
theorem Sound.exists_shows {id : ElementId} {e : Element} (hs : s.Sound)
    (he : s.elements.get? id = some e) : ∃ symbol, s.Shows symbol id := by
  obtain ⟨key, hd⟩ := hs.covered id (Array.getElem?_eq_some_iff.1 he).1
  exact ⟨_, key, hd, rfl⟩

/-- The invariant, after a change of which the new answers are known. -/
theorem Idle.carry (h : s.Idle w) (ht : t.Resolved w) (hm : t.Makes [] []) (hg : s.Learns w t)
    (he : ∀ id e, t.elements.get? id = some e → s.elements.get? id = some e ∨
      ∀ symbol, t.Shows symbol id → t.Recalls w symbol e) : t.Idle w where
  resolved := ht
  making := hm
  recalls symbol id e hshow hget := by
    rcases he id e hget with hold | hnew
    · obtain ⟨other, hother⟩ := h.resolved.sound.exists_shows hold
      obtain rfl := (hother.grow h.resolved.sound hg.toKeeps).unique ht.sound hshow
      exact (h.recalls other id e hother hold).learn h.resolved ht hg
    · exact hnew symbol hshow

theorem Idle.resolves (h : s.Idle w) (ht : t.Resolved w) (hg : s.Resolves t) : t.Idle w :=
  h.carry ht (h.making.grow h.resolved.sound hg) (hg.learns h.resolved.sound) fun id e he =>
    (hg.fresh id e he).imp_right fun hb _ _ => .of_bare hb

end Grow

end Session

/-! ### The course of questions -/

/-- The course of questions. -/
def asking (w : World) : Course Session where
  Sound := Session.Idle w
  Grows := Session.Learns w
  refl := .refl
  trans := .trans

section Asking

variable {m : SessionM α} {P : α → Session → Prop}

/-- Resolving names is part of answering. -/
theorem Course.Ends.asking (h : (JavaAbi.resolving w).Ends s m P) :
    (JavaAbi.asking w).Ends s m P := by
  intro hs
  obtain ⟨r, t, hrun, ht, hg, hr⟩ := h hs.resolved
  exact ⟨r, t, hrun, hs.resolves ht hg, hg.learns hs.resolved.sound, hr⟩

/-- A session in which an element has been replaced. -/
def Session.replaced (s : Session) (id : ElementId) (e : Element) : Session :=
  { s with elements := (s.elements.set? id e).getD s.elements }

theorem run_updateElement {id : ElementId} {e : Element} {f : Element → Element}
    (he : s.elements.get? id = some e) :
    (updateElement id f).run.run s = (.ok (), s.replaced id (f e)) := by
  unfold updateElement
  rw [SessionM.run_bind (reads_elementAt he)]
  rfl

/-- **An element comes to keep an answer.** -/
theorem updateElement_ends {id : ElementId} {e : Element} {f : Element → Element}
    (he : s.elements.get? id = some e) (hbare : (f e).bare = e.bare)
    (hrec : ∀ symbol, s.Shows symbol id → s.Recalls w symbol (f e)) :
    (asking w).Ends s (updateElement id f) fun _ t => t.elements.get? id = some (f e) := by
  intro hs
  have hget := s.elements.get?_set? (f e) (Array.getElem?_eq_some_iff.1 he).1
  have hk : s.Keeps (s.replaced id (f e)) := ⟨rfl, .refl _, fun _ _ h => h, fun _ => rfl⟩
  -- But for the answers that they keep, all elements stay as they are.
  have hbares : ∀ k, ((s.replaced id (f e)).elements.get? k).map Element.bare =
      (s.elements.get? k).map Element.bare := fun k => by
    refine (congrArg _ (hget k)).trans ?_
    split
    · rename_i heq
      rw [← heq, he, Option.map_some, Option.map_some, hbare]
    · rfl
  have hlearns : s.Learns w (s.replaced id (f e)) :=
    { hk with
      lists := fun symbol l ⟨k, ids, hshow, hslot, hall⟩ =>
        ⟨k, ids, hshow.grow hs.resolved.sound hk, hslot, hall.grow hs.resolved.sound hk⟩
      elements := fun k e' he' => by
        have hb := hbares k
        rw [he'] at hb
        exact Option.map_eq_some_iff.1 hb
      cells := fun c x hx => ⟨x, hx, rfl, fun _ hr => .inl hr⟩ }
  have hresolved : (s.replaced id (f e)).Resolved w :=
    hs.resolved.carry (hs.resolved.sound.carry_cache hk hbares rfl rfl) hk hs.resolved.quiet
      fun _ _ hl => hl
  have hmakes : (s.replaced id (f e)).Makes [] [] :=
    Session.makes_nil.2 ((Session.makes_nil (s := s)).1 hs.making)
  refine ⟨.ok (), s.replaced id (f e), run_updateElement he, ?_, hlearns, (), rfl,
    (hget id).trans (if_pos rfl)⟩
  refine hs.carry hresolved hmakes hlearns fun k e' he' => ?_
  have hk' := (hget k).symm.trans he'
  -- The element keeps the new answer, which is right for the one symbol that it shows.
  split at hk'
  · rename_i heq
    cases hk'
    refine .inr fun symbol hshow => ?_
    obtain ⟨other, hother⟩ := hs.resolved.sound.exists_shows he
    obtain rfl := (heq ▸ hother.grow hs.resolved.sound hk).unique hresolved.sound hshow
    exact (hrec other hother).learn hs.resolved hresolved hlearns
  · exact .inl hk'

end Asking

/-! ### Agreeing with a rule -/

namespace World

/-- **Work heeds a rule.** It ends without a breach, with an answer that agrees with the rule. -/
def Heeds (w : World) (s : Session) (m : SessionM α) (i : Inquiry β)
    (rel : α → β → Session → Prop) : Prop :=
  (asking w).Ends s m fun a t => ∃ b, rel a b t ∧ t.Concludes w i b

/-- **A query honours a rule.** Its errors have to be excused. -/
def Honours (w : World) (s : Session) (q : Query α) (rule : Rule β) (excused : ModelError → Prop)
    (rel : α → β → Session → Prop) : Prop :=
  w.Heeds s q.run rule.run (outcomes excused rel)

section Heeds

variable {m : SessionM α} {i : Inquiry β} {rel : α → β → Session → Prop}
  {rel' : γ → δ → Session → Prop}

theorem Heeds.pure {a : α} {b : β} (h : s.Idle w → rel a b s) :
    w.Heeds s (pure a) (pure b) rel :=
  Ends.pure fun hs => ⟨b, h hs, .pure b⟩

theorem Heeds.sound (h : s.Idle w → w.Heeds s m i rel) : w.Heeds s m i rel := Ends.sound h

/-- Work after other work. -/
theorem Heeds.bind {f : α → SessionM γ} {F : β → Inquiry δ} (h : w.Heeds s m i rel)
    (hf : ∀ a b t, t.Idle w → s.Learns w t → rel a b t → w.Heeds t (f a) (F b) rel') :
    w.Heeds s (m >>= f) (i >>= F) rel' := by
  refine Ends.bind h fun a t ht hg ⟨b, hrel, hb⟩ => ?_
  exact (hf a b t ht hg hrel).mono fun c u _ hg' ⟨d, hd, hx⟩ => ⟨d, hd, hb.bind hg'.lists hx⟩

theorem Heeds.mono {rel₂ : α → β → Session → Prop} (h : w.Heeds s m i rel)
    (hm : ∀ a b t, t.Idle w → s.Learns w t → rel a b t → rel₂ a b t) : w.Heeds s m i rel₂ :=
  Ends.mono h fun a t ht hg ⟨b, hb, hx⟩ => ⟨b, hm a b t ht hg hb, hx⟩

/-- Work of which the answer is known. -/
theorem Heeds.ends {P : α → Session → Prop} {b : β} (h : (asking w).Ends s m P)
    (hp : ∀ a t, t.Idle w → s.Learns w t → P a t → rel a b t) :
    w.Heeds s m (Pure.pure b) rel :=
  h.mono fun a t ht hg ha => ⟨b, hp a t ht hg ha, .pure b⟩

/-- Work after work that the rule does not mention. -/
theorem Heeds.after {f : α → SessionM γ} {i : Inquiry δ} {P : α → Session → Prop}
    (h : (asking w).Ends s m P)
    (hf : ∀ a t, t.Idle w → s.Learns w t → P a t → w.Heeds t (f a) i rel') :
    w.Heeds s (m >>= f) i rel' :=
  Ends.bind h hf

theorem Heeds.reads {f : α → SessionM γ} {i : Inquiry δ} {a : α} (h : Reads s m a)
    (hf : w.Heeds s (f a) i rel') : w.Heeds s (m >>= f) i rel' :=
  Ends.reads h hf

/-- Work that follows a rule in the resolution of names. -/
theorem Heeds.of_follows (h : ∀ n, (w.stage n).Follows s m i rel) : w.Heeds s m i rel :=
  Ends.sound fun hs => Ends.asking (Stage.Follows.settled h hs.making)

/-- Work for each of a list that heeds rules, in order. -/
theorem Heeds.mapM {xs : List γ} {f : γ → SessionM α} {F : γ → Inquiry β}
    {agree : α → β → Prop}
    (h : ∀ x ∈ xs, ∀ t, s.Learns w t → w.Heeds t (f x) (F x) fun a b _ => agree a b) :
    w.Heeds s (xs.mapM f) (xs.mapM F) fun as bs _ => List.Forall₂ agree as bs := by
  induction xs generalizing s with
  | nil =>
    rw [List.mapM_nil, List.mapM_nil]
    exact .pure fun _ => .nil
  | cons x rest ih =>
    rw [List.mapM_cons, List.mapM_cons]
    refine (h x List.mem_cons_self s (.refl s)).bind fun a b t _ hg hab => ?_
    have hrest := ih fun y hy u hu => h y (List.mem_cons_of_mem _ hy) u (hg.trans hu)
    exact hrest.bind fun as bs u _ _ hall => .pure fun _ => .cons hab hall

end Heeds

section Honours

variable {q : Query α} {rule : Rule β} {excused : ModelError → Prop}
  {rel : α → β → Session → Prop} {rel' : γ → δ → Session → Prop}

theorem Honours.pure {a : α} {b : β} (h : s.Idle w → rel a b s) :
    w.Honours s (pure a) (pure b) excused rel :=
  Heeds.pure h

theorem Honours.throw {e : ModelError} (h : excused e) :
    w.Honours s (throw e : Query α) (throw e : Rule β) excused rel :=
  Heeds.pure (a := (Except.error e : Except ModelError α))
    (b := (Except.error e : Except ModelError β)) fun _ => ⟨rfl, h⟩

theorem Honours.sound (h : s.Idle w → w.Honours s q rule excused rel) :
    w.Honours s q rule excused rel :=
  Heeds.sound h

theorem Honours.bind {f : α → Query γ} {F : β → Rule δ} (h : w.Honours s q rule excused rel)
    (hf : ∀ a b t, t.Idle w → s.Learns w t → rel a b t →
      w.Honours t (f a) (F b) excused rel') :
    w.Honours s (q >>= f) (rule >>= F) excused rel' := by
  refine Heeds.bind (m := q.run) (i := rule.run) (F := ExceptT.bindCont F) h ?_
  rintro (e | a) (e' | b) t ht hg hrel
  · obtain ⟨rfl, he⟩ := hrel
    exact Heeds.pure fun _ => ⟨rfl, he⟩
  · exact hrel.elim
  · exact hrel.elim
  · exact hf a b t ht hg hrel

theorem Honours.mono {excused₂ : ModelError → Prop} {rel₂ : α → β → Session → Prop}
    (h : w.Honours s q rule excused rel) (he : ∀ e, excused e → excused₂ e)
    (hm : ∀ a b t, t.Idle w → s.Learns w t → rel a b t → rel₂ a b t) :
    w.Honours s q rule excused₂ rel₂ :=
  Heeds.mono h fun r r' t ht hg hr => by
    match r, r', hr with
    | .ok a, .ok b, hr => exact hm a b t ht hg hr
    | .error e, .error e', ⟨heq, hex⟩ => exact ⟨heq, he e hex⟩

/-- Work in a query. -/
theorem Honours.lift {m : SessionM α} {i : Inquiry β} {f : α → Query γ} {F : β → Rule δ}
    (h : w.Heeds s m i rel)
    (hf : ∀ a b t, t.Idle w → s.Learns w t → rel a b t →
      w.Honours t (f a) (F b) excused rel') :
    w.Honours s (liftM m >>= f) (liftM i >>= F) excused rel' := by
  have hl : w.Honours s (liftM m) (liftM i) excused rel :=
    Heeds.bind h fun a b t _ _ hab => Heeds.pure fun _ => hab
  exact hl.bind hf

/-- Work in a query that the rule does not mention. -/
theorem Honours.after {m : SessionM α} {P : α → Session → Prop} {f : α → Query γ} {rule : Rule δ}
    (h : (asking w).Ends s m P)
    (hf : ∀ a t, t.Idle w → s.Learns w t → P a t → w.Honours t (f a) rule excused rel') :
    w.Honours s (liftM m >>= f) rule excused rel' := by
  refine Heeds.after (m := Except.ok <$> m) (P := fun r t => ∃ a, r = .ok a ∧ P a t) ?_ ?_
  · exact Ends.bind (m := m) h fun a _ _ _ ha => Ends.pure fun _ => ⟨a, rfl, ha⟩
  · rintro _ t ht hg ⟨a, rfl, ha⟩
    exact hf a t ht hg ha

theorem Honours.reads {m : SessionM α} {f : α → Query γ} {rule : Rule δ} {a : α} (h : Reads s m a)
    (hf : w.Honours s (f a) rule excused rel') :
    w.Honours s (liftM m >>= f) rule excused rel' := by
  refine .after h.ends ?_
  rintro _ _ - - ⟨rfl, rfl⟩
  exact hf

/-- The outcome of a query that only reads. -/
theorem Honours.reads_ok {f : α → Query γ} {rule : Rule δ} {a : α} (h : Reads s q.run (.ok a))
    (hf : w.Honours s (f a) rule excused rel') : w.Honours s (q >>= f) rule excused rel' :=
  Heeds.reads (m := q.run) (f := ExceptT.bindCont f) h hf

theorem Honours.read {f : Session → Query γ} {rule : Rule δ}
    (h : w.Honours s (f s) rule excused rel') : w.Honours s (get >>= f) rule excused rel' :=
  Ends.read fun _ => h

/-- A choice that both make alike. -/
theorem Honours.ite {c c' : Prop} [Decidable c] [Decidable c'] {q' : Query α} {rule' : Rule β}
    (hc : c ↔ c') (h : c' → w.Honours s q rule excused rel)
    (h' : ¬c' → w.Honours s q' rule' excused rel) :
    w.Honours s (if c then q else q') (if c' then rule else rule') excused rel := by
  by_cases hc' : c'
  · rw [if_pos (hc.2 hc'), if_pos hc']
    exact h hc'
  · rw [if_neg (fun h => hc' (hc.1 h)), if_neg hc']
    exact h' hc'

/-- Work in a query of which the answer is known. -/
theorem Honours.ends {m : SessionM α} {P : α → Session → Prop} {b : β}
    (h : (asking w).Ends s m P) (hp : ∀ a t, t.Idle w → s.Learns w t → P a t → rel a b t) :
    w.Honours s (liftM m) (Pure.pure b) excused rel := by
  exact Ends.bind (m := m) h fun a t ht hg ha => Ends.pure fun _ => ⟨.ok b, hp a t ht hg ha, .pure _⟩

/-- A query that obeys a rule in the resolution of names. -/
theorem Honours.of_obeys (h : ∀ n, (w.stage n).Obeys s q rule rel) :
    w.Honours s q rule w.provider.Excuses rel :=
  Heeds.of_follows h

/-- Work on the error of a query. -/
theorem Honours.handle {f : ModelError → Query α} {F : ModelError → Rule β}
    (h : w.Honours s q rule excused rel)
    (hf : ∀ e t, t.Idle w → s.Learns w t → excused e →
      w.Honours t (f e) (F e) excused rel) :
    w.Honours s (tryCatch q f) (tryCatch rule F) excused rel := by
  refine Heeds.bind (m := q.run) (i := rule.run) h ?_
  rintro (e | a) (e' | b) t ht hg hrel
  · obtain ⟨rfl, he⟩ := hrel
    exact hf e t ht hg he
  · exact hrel.elim
  · exact hrel.elim
  · exact Heeds.pure fun _ => hrel

/-- A query for each of a list, in order. -/
theorem Honours.mapM {xs : List γ} {f : γ → Query α} {F : γ → Rule β}
    (hgrow : ∀ a b t u, t.Idle w → u.Idle w → t.Learns w u → rel a b t → rel a b u)
    (h : ∀ x ∈ xs, ∀ t, s.Learns w t → w.Honours t (f x) (F x) excused rel) :
    w.Honours s (xs.mapM f) (xs.mapM F) excused
      fun as bs t => List.Forall₂ (fun a b => rel a b t) as bs := by
  induction xs generalizing s with
  | nil =>
    rw [List.mapM_nil, List.mapM_nil]
    exact .pure fun _ => .nil
  | cons x rest ih =>
    rw [List.mapM_cons, List.mapM_cons]
    refine (h x List.mem_cons_self s (.refl s)).bind fun a b t ht hg hab => ?_
    have hrest := ih fun y hy u hu => h y (List.mem_cons_of_mem _ hy) u (hg.trans hu)
    refine hrest.bind fun as bs u hu hg' hall => .pure fun _ => ?_
    exact .cons (hgrow a b t u ht hu hg' hab) hall

end Honours

end World

end JavaAbi
