import JavaAbi.Proofs.Extraction
import JavaAbi.Proofs.LookupOrder

namespace JavaAbi

/-!
# Errors that an extraction reports

An extraction only adds to what was reported before. What it adds for a type are the errors of the
references in it, one for each reference that does not resolve, in the order in which they are
written. The lists of supertypes that count are those that the session holds afterwards.

* `Course.Emits` — extraction that ends without a breach, and what it reports;
* `TypeView.references` — the references that are resolved for a type;
* `World.Failures` — the errors of references;
* `World.HeaderShown` — what is shown and reported of the supertypes of a declaration;
* `reportedText_emits`, `extractSuperclass_emits`, `extractInterfaces_emits` — what extractions
  report.
-/

open Course Stage

variable {w : World} {s t : Session} {α β : Type} {lists lists' : Symbol → List Symbol → Prop}

/-! ### What extractions report -/

/-- From a sound session, an extraction ends without a breach, and it adds diagnostics to those that
    were there. -/
def Course.Emits (C : Course Session) (s : Session) (m : Extraction α)
    (post : α → List Diagnostic → Session → Prop) : Prop :=
  ∀ found : Array Diagnostic, C.Ends s (m.run found) fun r t =>
    ∃ new, r.2.toList = found.toList ++ new ∧ post r.1 new t

namespace Course

variable {C : Course Session} {P P' : α → List Diagnostic → Session → Prop}
  {Q : β → List Diagnostic → Session → Prop}

theorem Emits.pure {a : α} (h : C.Sound s → P a [] s) :
    C.Emits s (Pure.pure a : Extraction α) P :=
  fun _ => .pure fun hs => ⟨[], (List.append_nil _).symm, h hs⟩

/-- What one extraction reports comes before what the next one does. -/
theorem Emits.bind {m : Extraction α} {f : α → Extraction β} (h : C.Emits s m P)
    (hf : ∀ a new t, C.Sound t → C.Grows s t → P a new t →
      C.Emits t (f a) fun b more u => Q b (new ++ more) u) : C.Emits s (m >>= f) Q := by
  refine fun found => (h found).bind fun r t ht hg hr => ?_
  obtain ⟨a, reported⟩ := r
  obtain ⟨new, hnew, ha⟩ := hr
  refine (hf a new t ht hg ha reported).mono fun r u _ _ hu => ?_
  obtain ⟨more, hmore, hb⟩ := hu
  exact ⟨new ++ more, by rw [hmore, hnew, List.append_assoc], hb⟩

theorem Emits.mono {m : Extraction α} (h : C.Emits s m P)
    (hm : ∀ a new t, C.Sound t → C.Grows s t → P a new t → P' a new t) : C.Emits s m P' := by
  refine fun found => (h found).mono fun r t ht hg hr => ?_
  obtain ⟨new, hnew, ha⟩ := hr
  exact ⟨new, hnew, hm r.1 new t ht hg ha⟩

theorem Emits.sound {m : Extraction α} (h : C.Sound s → C.Emits s m P) : C.Emits s m P :=
  fun found => .sound fun hs => h hs found

/-- Session work reports nothing. -/
theorem Emits.lift {m : SessionM α} {R : α → Session → Prop} {f : α → Extraction β}
    (h : C.Ends s m R) (hf : ∀ a t, C.Sound t → C.Grows s t → R a t → C.Emits t (f a) Q) :
    C.Emits s (liftM m >>= f) Q := by
  refine .bind (P := fun a new t => new = [] ∧ R a t) (fun found => ?_) ?_
  · exact h.bind fun a t _ _ ha => .pure fun _ => ⟨[], (List.append_nil _).symm, rfl, ha⟩
  · rintro a _ t ht hg ⟨rfl, ha⟩
    exact (hf a t ht hg ha).mono fun _ _ _ _ _ hq => hq

theorem Emits.report {d : Diagnostic} : C.Emits s (report d) fun _ new t => new = [d] ∧ t = s :=
  fun _ => .pure fun _ => ⟨[d], Array.toList_push, rfl, rfl⟩

end Course

/-! ### References -/

mutual

/-- The references that are resolved for a type, in order: its own, and those in its arguments. The
    type around it is not looked at. -/
def TypeView.references : TypeView → List ReferenceView
  | .declared (.written r) args _ => r :: TypeView.allReferences args
  | .declared (.known _) args _ => TypeView.allReferences args
  | .array component => component.references
  | .wildcard upper lower => TypeView.boundReferences upper ++ TypeView.boundReferences lower
  | _ => []

/-- Those for types in order. -/
def TypeView.allReferences : List TypeView → List ReferenceView
  | [] => []
  | v :: rest => v.references ++ TypeView.allReferences rest

/-- Those for a bound. -/
def TypeView.boundReferences : Option TypeView → List ReferenceView
  | none => []
  | some v => v.references

end

namespace World

/-- **The errors of references** that do not resolve, each as a diagnostic, in order. -/
inductive Failures (w : World) (lists : Symbol → List Symbol → Prop) (place : Span) :
    List ReferenceView → List Diagnostic → Prop
  | nil : Failures w lists place [] []
  | resolves {r : ReferenceView} {rest : List ReferenceView} {ds : List Diagnostic}
      {symbol : Symbol} (found : (w.resolveReference r).run.Finds lists (.ok symbol))
      (others : Failures w lists place rest ds) : Failures w lists place (r :: rest) ds
  | fails {r : ReferenceView} {rest : List ReferenceView} {ds : List Diagnostic} {e : ModelError}
      (found : (w.resolveReference r).run.Finds lists (.error e)) (excused : w.provider.Excuses e)
      (others : Failures w lists place rest ds) :
      Failures w lists place (r :: rest) (e.diagnostic place :: ds)

section Failures

variable {place : Span} {refs refs' : List ReferenceView} {ds ds' : List Diagnostic}

theorem Failures.append (h : w.Failures lists place refs ds)
    (h' : w.Failures lists place refs' ds') :
    w.Failures lists place (refs ++ refs') (ds ++ ds') := by
  induction h with
  | nil => exact h'
  | resolves found _ ih => exact .resolves found ih
  | fails found excused _ ih => exact .fails found excused ih

theorem Failures.mono (hl : ∀ symbol l, lists symbol l → lists' symbol l)
    (h : w.Failures lists place refs ds) : w.Failures lists' place refs ds := by
  induction h with
  | nil => exact .nil
  | resolves found _ ih => exact .resolves (found.mono hl) ih
  | fails found excused _ ih => exact .fails (found.mono hl) excused ih

/-- Every reference has an outcome. -/
theorem Failures.exists_outcome (h : w.Failures lists place refs ds) :
    ∀ r ∈ refs, ∃ y, (w.resolveReference r).run.Finds lists y := by
  induction h with
  | nil => exact List.forall_mem_nil _
  | resolves found _ ih => exact List.forall_mem_cons.2 ⟨⟨_, found⟩, ih⟩
  | fails found _ _ ih => exact List.forall_mem_cons.2 ⟨⟨_, found⟩, ih⟩

/-- Every error is one of a look-up. -/
theorem Failures.exists_error (h : w.Failures lists place refs ds) :
    ∀ d ∈ ds, ∃ e, w.provider.Excuses e ∧ d = e.diagnostic place := by
  induction h with
  | nil => exact List.forall_mem_nil _
  | resolves _ _ ih => exact ih
  | fails _ excused _ ih => exact List.forall_mem_cons.2 ⟨⟨_, excused, rfl⟩, ih⟩

/-- **What is reported** are the errors of the references, and nothing else. -/
theorem Failures.mem_iff (hl : ∀ symbol l l', lists symbol l → lists symbol l' → l = l')
    (h : w.Failures lists place refs ds) (d : Diagnostic) : d ∈ ds ↔
      ∃ r ∈ refs, ∃ e, (w.resolveReference r).run.Finds lists (.error e) ∧
        d = e.diagnostic place := by
  induction h with
  | nil => simp
  | resolves found _ ih =>
    rw [ih, List.exists_mem_cons_iff]
    refine (or_iff_right ?_).symm
    rintro ⟨e, he, -⟩
    cases found.unique hl he
  | @fails r _ _ e found _ _ ih =>
    rw [List.mem_cons, ih, List.exists_mem_cons_iff]
    refine or_congr_left ⟨fun heq => ⟨e, found, heq⟩, ?_⟩
    rintro ⟨e', he', rfl⟩
    cases found.unique hl he'
    rfl

end Failures

end World

/-! ### Types -/

/-- How the outcome for a type depends on its target. -/
theorem World.finds_resolveType {target : TargetView} {args : List TypeView} {enclosing : TypeView}
    {y : Except ModelError (Option Symbol)}
    (h : (w.resolveType (.declared target args enclosing)).run.Finds lists y) :
    (∃ e, (w.resolveTarget target).run.Finds lists (.error e) ∧ y = .error e) ∨
      ∃ symbol, (w.resolveTarget target).run.Finds lists (.ok symbol) ∧ y = .ok (some symbol) := by
  have hbind : ((w.resolveTarget target) >>= fun symbol => (pure (some symbol) : Rule _)).run.Finds
      lists y := h
  rcases Rule.finds_bind_inv hbind with herror | ⟨symbol, hsymbol, hy⟩
  · exact .inl herror
  · exact .inr ⟨symbol, hsymbol, hy.pure_inv⟩

mutual

/-- **What does not resolve in a type** is reported. -/
theorem reportUnresolved_emits {place : Span} {type : ModelType} {s : Session}
    (h : s.Holds w type) : (asking w).Emits s (reportUnresolved place type) fun _ new t =>
      w.Failures t.HoldsList place (s.view type).references new := by
  match type with
  | .declared origin target args enclosing =>
    have helement := elementOfType_honours h
    rw [Session.Holds] at h
    obtain ⟨-, -, hargs, -⟩ := h
    unfold reportUnresolved
    refine .sound fun hs => ?_
    -- The arguments come after the type itself.
    have hrest (t : Session) (ht : t.Idle w) (hg : s.Learns w t) :
        (asking w).Emits t (reportUnresolvedIn place args) fun _ new u =>
          w.Failures u.HoldsList place (TypeView.allReferences (s.viewAll args)) new := by
      rw [← Session.viewAll_grow hs.resolved ht.resolved hg.toKeeps hargs]
      exact reportUnresolvedIn_emits (hargs.learn hs.resolved.sound hg)
    refine Emits.lift (m := (elementOfType (.declared origin target args enclosing)).run) helement
      fun r t ht hg ⟨y, hry, hy⟩ => ?_
    rw [Session.view] at hy ⊢
    cases target with
    | known id =>
      -- An element that is known already does not fail.
      rcases World.finds_resolveType hy.held with ⟨e, he, rfl⟩ | ⟨symbol, -, rfl⟩
      · cases he.pure_inv
      · match r, hry with
        | .ok _, _ => exact hrest t ht hg
    | written cell reference =>
      rcases World.finds_resolveType hy.held with ⟨e, he, rfl⟩ | ⟨symbol, hsymbol, rfl⟩
      · match r, hry with
        | .error _, ⟨rfl, hexcused⟩ =>
          refine Emits.report.bind fun _ new u hu _ hnew => ?_
          obtain ⟨rfl, rfl⟩ := hnew
          exact (hrest u hu hg).mono fun _ _ _ _ hg' hfail =>
            .fails (he.mono hg'.lists) hexcused hfail
      · match r, hry with
        | .ok _, _ =>
          exact (hrest t ht hg).mono fun _ _ _ _ hg' hfail =>
            .resolves (hsymbol.mono hg'.lists) hfail
  | .array component =>
    rw [Session.Holds] at h
    unfold reportUnresolved
    exact reportUnresolved_emits h
  | .wildcard upper lower =>
    rw [Session.Holds] at h
    unfold reportUnresolved
    refine .sound fun hs => ?_
    refine (reportUnresolvedBound_emits h.1).bind fun _ new t ht hg hupper => ?_
    have hlower : (asking w).Emits t (reportUnresolvedBound place lower) fun _ more u =>
        w.Failures u.HoldsList place (TypeView.boundReferences (s.viewBound lower)) more := by
      rw [← Session.viewBound_grow hs.resolved ht.resolved hg.toKeeps h.2]
      refine reportUnresolvedBound_emits (Session.holdsBound_iff.2 fun type htype => ?_)
      exact (Session.holdsBound_iff.1 h.2 type htype).learn hs.resolved.sound hg
    exact hlower.mono fun _ _ _ _ hg' hfail => (hupper.mono hg'.lists).append hfail
  | .primitive _ | .absent | .void | .package | .typeVariable _ _ | .error =>
    exact .pure fun _ => .nil

theorem reportUnresolvedBound_emits {place : Span} {bound : Option ModelType} {s : Session}
    (h : s.HoldsBound w bound) :
    (asking w).Emits s (reportUnresolvedBound place bound) fun _ new t =>
      w.Failures t.HoldsList place (TypeView.boundReferences (s.viewBound bound)) new := by
  match bound with
  | none => exact .pure fun _ => .nil
  | some type =>
    rw [Session.HoldsBound] at h
    unfold reportUnresolvedBound
    exact reportUnresolved_emits h

theorem reportUnresolvedIn_emits {place : Span} {types : List ModelType} {s : Session}
    (h : s.HoldsAll w types) :
    (asking w).Emits s (reportUnresolvedIn place types) fun _ new t =>
      w.Failures t.HoldsList place (TypeView.allReferences (s.viewAll types)) new := by
  match types with
  | [] => exact .pure fun _ => .nil
  | type :: rest =>
    rw [Session.HoldsAll] at h
    unfold reportUnresolvedIn
    refine .sound fun hs => ?_
    refine (reportUnresolved_emits h.1).bind fun _ new t ht hg hfirst => ?_
    have hrest : (asking w).Emits t (reportUnresolvedIn place rest) fun _ more u =>
        w.Failures u.HoldsList place (TypeView.allReferences (s.viewAll rest)) more := by
      rw [← Session.viewAll_grow hs.resolved ht.resolved hg.toKeeps h.2]
      exact reportUnresolvedIn_emits (h.2.learn hs.resolved.sound hg)
    exact hrest.mono fun _ _ _ _ hg' hfail => (hfirst.mono hg'.lists).append hfail

end

namespace World

/-- A type is shown as text, and the errors of its references are reported. -/
structure TypeShown (w : World) (lists : Symbol → List Symbol → Prop) (place : Span) (v : TypeView)
    (text : String) (ds : List Diagnostic) : Prop where
  text : (w.textOf v).Finds lists text
  reported : w.Failures lists place v.references ds

/-- The same for types in order. -/
structure TypesShown (w : World) (lists : Symbol → List Symbol → Prop) (place : Span)
    (vs : List TypeView) (texts : List String) (ds : List Diagnostic) : Prop where
  texts : List.Forall₂ (fun v text => (w.textOf v).Finds lists text) vs texts
  reported : w.Failures lists place (TypeView.allReferences vs) ds

section Mono

variable {place : Span} {ds ds' : List Diagnostic} {v : TypeView} {vs : List TypeView}
  {text : String} {texts : List String}

theorem TypeShown.mono (hl : ∀ symbol l, lists symbol l → lists' symbol l)
    (h : w.TypeShown lists place v text ds) : w.TypeShown lists' place v text ds :=
  ⟨h.text.mono hl, h.reported.mono hl⟩

theorem TypesShown.mono (hl : ∀ symbol l, lists symbol l → lists' symbol l)
    (h : w.TypesShown lists place vs texts ds) : w.TypesShown lists' place vs texts ds :=
  ⟨h.texts.imp fun _ _ htext => htext.mono hl, h.reported.mono hl⟩

theorem TypeShown.cons (h : w.TypeShown lists place v text ds)
    (hrest : w.TypesShown lists place vs texts ds') :
    w.TypesShown lists place (v :: vs) (text :: texts) (ds ++ ds') :=
  ⟨.cons h.text hrest.texts, h.reported.append hrest.reported⟩

end Mono

end World

/-- A type is shown as it looks. -/
theorem reportedText_emits {place : Span} {type : ModelType} {v : TypeView}
    (h : viewed w type v s) : (asking w).Emits s (reportedText place type) fun text new t =>
      w.TypeShown t.HoldsList place v text new := by
  obtain ⟨hholds, rfl⟩ := h
  refine .sound fun hs => (reportUnresolved_emits hholds).bind fun _ new t ht hg hreported => ?_
  have htext : (asking w).Ends t (displayType type) fun text u =>
      ∃ text', text = text' ∧ u.Concludes w (w.textOf (s.view type)) text' := by
    rw [← Session.view_grow hs.resolved ht.resolved hg.toKeeps hholds]
    exact displayType_heeds (hholds.learn hs.resolved.sound hg)
  rw [← bind_pure (liftM (displayType type))]
  refine Emits.lift htext fun text u _ hg' htext => .pure fun _ => ?_
  obtain ⟨_, rfl, htext⟩ := htext
  rw [List.append_nil]
  exact ⟨htext.held, hreported.mono hg'.lists⟩

theorem reportedTexts_emits {place : Span} {types : List ModelType} {vs : List TypeView}
    (h : viewedAll w types vs s) :
    (asking w).Emits s (types.mapM (reportedText place)) fun texts new t =>
      w.TypesShown t.HoldsList place vs texts new := by
  induction types generalizing s vs with
  | nil =>
    cases h
    exact .pure fun _ => ⟨.nil, .nil⟩
  | cons type rest ih =>
    obtain _ | ⟨hfirst, hrest⟩ := h
    rw [List.mapM_cons]
    refine .sound fun hs => (reportedText_emits hfirst).bind fun text new t ht hg hshown => ?_
    refine (ih (Session.viewedAll_learn hs.resolved ht.resolved hrest hg)).bind
      fun texts more u _ hg' hothers => .pure fun _ => ?_
    rw [List.append_nil]
    exact (hshown.mono hg'.lists).cons hothers

/-! ### Supertypes -/

/-- What stands for a clause that has an error. -/
def ModelError.standIn : ModelError → String
  | unknownSymbol name _ => name
  | _ => "<error>"

theorem reportError_emits {place : Span} {e : ModelError} :
    (asking w).Emits s (reportError place e) fun text new t =>
      text = e.standIn ∧ new = [e.diagnostic place] ∧ t = s := by
  refine Emits.report.bind fun _ new t _ _ hnew => .pure fun _ => ?_
  rw [List.append_nil]
  exact ⟨by cases e <;> rfl, hnew⟩

namespace World

/-- A superclass as it is shown, and what is reported of it. -/
inductive SuperclassShown (w : World) (lists : Symbol → List Symbol → Prop) (place : Span)
    (symbol : Symbol) : Except ModelError TypeView → Option String → List Diagnostic → Prop
  | nothing {v : TypeView} (missing : v = .absent ∨ v = .void ∨ v = .package) :
      SuperclassShown w lists place symbol (.ok v) none []
  | shown {v : TypeView} {text : String} {ds : List Diagnostic}
      (shown : w.TypeShown lists place v text ds) :
      SuperclassShown w lists place symbol (.ok v) (some text) ds
  | failed {e : ModelError} (excused : w.ExcusesOf symbol e) :
      SuperclassShown w lists place symbol (.error e) (some e.standIn) [e.diagnostic place]

/-- Interfaces as they are shown, and what is reported of them. An error of one of them stands for
    all. -/
inductive InterfacesShown (w : World) (lists : Symbol → List Symbol → Prop) (place : Span)
    (symbol : Symbol) : Except ModelError (List TypeView) → List String → List Diagnostic → Prop
  | shown {vs : List TypeView} {texts : List String} {ds : List Diagnostic}
      (shown : w.TypesShown lists place vs texts ds) :
      InterfacesShown w lists place symbol (.ok vs) texts ds
  | failed {e : ModelError} (excused : w.ExcusesOf symbol e) :
      InterfacesShown w lists place symbol (.error e) [e.standIn] [e.diagnostic place]

/-- **What is shown and reported of the supertypes** of a symbol: its superclass comes first. -/
def HeaderShown (w : World) (lists : Symbol → List Symbol → Prop) (place : Span) (symbol : Symbol)
    (superclass : Option String) (interfaces : List String) (ds : List Diagnostic) : Prop :=
  ∃ r r' before after, ds = before ++ after ∧
    (w.superclassOf symbol).run.Finds lists r ∧
    w.SuperclassShown lists place symbol r superclass before ∧
    (w.interfacesOf symbol).run.Finds lists r' ∧
    w.InterfacesShown lists place symbol r' interfaces after

section Mono

variable {place : Span} {symbol : Symbol} {ds : List Diagnostic}

theorem SuperclassShown.mono {r : Except ModelError TypeView} {text : Option String}
    (hl : ∀ symbol l, lists symbol l → lists' symbol l)
    (h : w.SuperclassShown lists place symbol r text ds) :
    w.SuperclassShown lists' place symbol r text ds := by
  cases h with
  | nothing missing => exact .nothing missing
  | shown shown => exact .shown (shown.mono hl)
  | failed excused => exact .failed excused

theorem InterfacesShown.mono {r : Except ModelError (List TypeView)} {texts : List String}
    (hl : ∀ symbol l, lists symbol l → lists' symbol l)
    (h : w.InterfacesShown lists place symbol r texts ds) :
    w.InterfacesShown lists' place symbol r texts ds := by
  cases h with
  | shown shown => exact .shown (shown.mono hl)
  | failed excused => exact .failed excused

theorem HeaderShown.mono {superclass : Option String} {interfaces : List String}
    (hl : ∀ symbol l, lists symbol l → lists' symbol l)
    (h : w.HeaderShown lists place symbol superclass interfaces ds) :
    w.HeaderShown lists' place symbol superclass interfaces ds := by
  obtain ⟨r, r', before, after, hds, hr, hsuperclass, hr', hinterfaces⟩ := h
  exact ⟨r, r', before, after, hds, hr.mono hl, hsuperclass.mono hl, hr'.mono hl,
    hinterfaces.mono hl⟩

end Mono

end World

section Header

variable {id : ElementId} {symbol : Symbol} {place : Span}

theorem extractSuperclass_emits (h : s.Shows symbol id) :
    (asking w).Emits s (extractSuperclass place id) fun text new t =>
      ∃ r, (w.superclassOf symbol).run.Finds t.HoldsList r ∧
        w.SuperclassShown t.HoldsList place symbol r text new := by
  unfold extractSuperclass
  refine Emits.lift (m := (superclassOf id).run) (superclassOf_honours h)
    fun r t _ _ ⟨y, hy, hfound⟩ => ?_
  match r, y, hy with
  | .error e, .error _, ⟨rfl, hexcused⟩ =>
    refine reportError_emits.bind fun text new u _ hg hnew => .pure fun _ => ?_
    obtain ⟨rfl, rfl, -⟩ := hnew
    exact ⟨_, hfound.held.mono hg.lists, .failed hexcused⟩
  | .ok type, .ok v, hview =>
    have htext : (asking w).Emits t (some <$> reportedText place type) fun text new t =>
        ∃ r, (w.superclassOf symbol).run.Finds t.HoldsList r ∧
          w.SuperclassShown t.HoldsList place symbol r text new := by
      refine (reportedText_emits hview).bind fun text new u _ hg hshown => .pure fun _ => ?_
      rw [List.append_nil]
      exact ⟨_, hfound.held.mono hg.lists, .shown hshown⟩
    -- Three types stand for no superclass; all others are shown.
    have hnothing (hv : v = .absent ∨ v = .void ∨ v = .package) :
        (asking w).Emits t (pure none) fun text new t =>
          ∃ r, (w.superclassOf symbol).run.Finds t.HoldsList r ∧
            w.SuperclassShown t.HoldsList place symbol r text new :=
      .pure fun _ => ⟨_, hfound.held, .nothing hv⟩
    cases type with
    | absent => exact hnothing (.inl hview.2.symm)
    | void => exact hnothing (.inr (.inl hview.2.symm))
    | package => exact hnothing (.inr (.inr hview.2.symm))
    | _ => exact htext

theorem extractInterfaces_emits (h : s.Shows symbol id) :
    (asking w).Emits s (extractInterfaces place id) fun texts new t =>
      ∃ r, (w.interfacesOf symbol).run.Finds t.HoldsList r ∧
        w.InterfacesShown t.HoldsList place symbol r texts new := by
  unfold extractInterfaces
  refine Emits.lift (m := (interfacesOf id).run) (interfacesOf_honours h)
    fun r t _ _ ⟨y, hy, hfound⟩ => ?_
  match r, y, hy with
  | .error e, .error _, ⟨rfl, hexcused⟩ =>
    refine reportError_emits.bind fun text new u _ hg hnew => .pure fun _ => ?_
    obtain ⟨rfl, rfl, -⟩ := hnew
    exact ⟨_, hfound.held.mono hg.lists, .failed hexcused⟩
  | .ok types, .ok vs, hviews =>
    exact (reportedTexts_emits hviews).mono fun texts new u _ hg hshown =>
      ⟨_, hfound.held.mono hg.lists, .shown hshown⟩

end Header

end JavaAbi
