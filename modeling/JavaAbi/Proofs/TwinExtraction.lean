import JavaAbi.Stub.Extract
import JavaAbi.Proofs.TwinContents

namespace JavaAbi

/-!
# Extraction in twin sessions

The stubs of corresponding types are the same, and the same is reported while they are extracted, if
the variables that one of the sessions lacks are private: such a variable is an element of the first
session only, but extraction passes over it before it asks for its type.

* `Twins.Gathers` — the judgement, for work that reports diagnostics;
* `extractWithin_gathers` — the stub of a type; `extract_gathers` — the same with its source.
-/

open Course

variable {w w' : World} {T : Twins w w'} {s s' t t' : Session} {α β γ δ : Type}
  {id id' : ElementId} {place : Span}

/-- A stub without the file that it was extracted from. -/
def TypeStub.unsourced : TypeStub → TypeStub
  | .mk s nested => .mk { s with source := none } nested

namespace Twins

/-! ### The judgement -/

/-- **Extractions in twin sessions.** They report the same after the same reports. -/
def Gathers (T : Twins w w') (s s' : Session) (m : Extraction α) (m' : Extraction β)
    (rel : α → β → Session → Session → Prop) : Prop :=
  ∀ found : Array Diagnostic, T.Runs s s' (m.run found) (m'.run found)
    fun r r' t t' => r.2 = r'.2 ∧ rel r.1 r'.1 t t'

section Rules

variable {m : Extraction α} {m' : Extraction β} {rel : α → β → Session → Session → Prop}
  {rel' : γ → δ → Session → Session → Prop}

theorem Gathers.pure {a : α} {b : β} (h : T.Alike s s' → rel a b s s') :
    T.Gathers s s' (pure a) (pure b) rel :=
  fun _ => .pure fun hs => ⟨rfl, h hs⟩

theorem Gathers.alike (h : T.Alike s s' → T.Gathers s s' m m' rel) : T.Gathers s s' m m' rel :=
  fun found => .alike fun hs => h hs found

theorem Gathers.bind {f : α → Extraction γ} {f' : β → Extraction δ}
    (h : T.Gathers s s' m m' rel)
    (hf : ∀ a b t t', T.Alike t t' → Later s s' t t' → rel a b t t' →
      T.Gathers t t' (f a) (f' b) rel') :
    T.Gathers s s' (m >>= f) (m' >>= f') rel' := by
  intro found
  refine Runs.bind (h found) ?_
  rintro ⟨a, d⟩ ⟨b, _⟩ t t' ht hl ⟨rfl, hab⟩
  exact hf a b t t' ht hl hab d

theorem Gathers.map {f : α → γ} {f' : β → δ} (h : T.Gathers s s' m m' rel)
    (hf : ∀ a b t t', rel a b t t' → rel' (f a) (f' b) t t') :
    T.Gathers s s' (f <$> m) (f' <$> m') rel' := by
  have hm : f <$> m = m >>= fun a => Pure.pure (f a) := rfl
  have hm' : f' <$> m' = m' >>= fun b => Pure.pure (f' b) := rfl
  rw [hm, hm']
  exact h.bind fun a b t t' _ _ hab => .pure fun _ => hf a b t t' hab

theorem Gathers.mono {rel₂ : α → β → Session → Session → Prop} (h : T.Gathers s s' m m' rel)
    (hm : ∀ a b t t', rel a b t t' → rel₂ a b t t') : T.Gathers s s' m m' rel₂ :=
  fun found => (h found).mono fun _ _ t t' _ _ hr => ⟨hr.1, hm _ _ t t' hr.2⟩

/-- Session work reports nothing. -/
theorem Gathers.lift_last {m : SessionM α} {m' : SessionM β} (h : T.Runs s s' m m' rel) :
    T.Gathers s s' (liftM m) (liftM m') rel :=
  fun _ => h.bind fun _ _ _ _ _ _ hab => .pure fun _ => ⟨rfl, hab⟩

theorem Gathers.lift {m : SessionM α} {m' : SessionM β} {f : α → Extraction γ}
    {f' : β → Extraction δ} (h : T.Runs s s' m m' rel)
    (hf : ∀ a b t t', T.Alike t t' → Later s s' t t' → rel a b t t' →
      T.Gathers t t' (f a) (f' b) rel') :
    T.Gathers s s' (liftM m >>= f) (liftM m' >>= f') rel' :=
  (Gathers.lift_last h).bind hf

theorem Gathers.report (d : Diagnostic) :
    T.Gathers s s' (report d) (report d) fun _ _ _ _ => True :=
  fun _ => .pure fun _ => ⟨rfl, trivial⟩

/-- Extractions for the entries of two lists, each with the same result. -/
theorem Gathers.mapM {f : γ → Extraction α} {f' : δ → Extraction β} {g : α → β → Prop}
    {xs : List γ} {ys : List δ}
    (h : List.Forall₂ (fun x y => ∀ t t', T.Alike t t' → Later s s' t t' →
      T.Gathers t t' (f x) (f' y) fun a b _ _ => g a b) xs ys)
    (ht : T.Alike t t') (hl : Later s s' t t') :
    T.Gathers t t' (xs.mapM f) (ys.mapM f') fun as bs _ _ => List.Forall₂ g as bs := by
  induction h generalizing t t' with
  | nil =>
    rw [List.mapM_nil, List.mapM_nil]
    exact .pure fun _ => .nil
  | cons hxy _ ih =>
    rw [List.mapM_cons, List.mapM_cons]
    refine (hxy t t' ht hl).bind fun a b u u' hu hl' hab => ?_
    exact (ih hu (hl.trans hl')).bind fun as bs _ _ _ _ hall => .pure fun _ => .cons hab hall

end Rules

/-! ### Reports -/

theorem reportError_gathers (e : ModelError) :
    T.Gathers s s' (reportError place e) (reportError place e) equal :=
  (Gathers.report _).bind fun _ _ _ _ _ _ _ => .pure fun _ => rfl

mutual

/-- **What does not resolve in corresponding types** is reported alike. -/
theorem reportUnresolved_gathers {s s' : Session} {type type' : ModelType}
    (h : ModelType.Alike (T.resemblance s s') type type') :
    T.Gathers s s' (reportUnresolved place type) (reportUnresolved place type')
      fun _ _ _ _ => True := by
  match h with
  | .primitive _ | .absent | .void | .package | .error | .typeVariable _ _ =>
    exact .pure fun _ => trivial
  | .declared made named arguments around =>
    rw [reportUnresolved, reportUnresolved]
    refine Gathers.lift (resolveType_asks directSupertypes_supplies
      (.declared made named arguments around)) fun r r' t t' _ hl hr => ?_
    have hrest : ∀ u u', Later t t' u u' → T.Gathers u u' (reportUnresolvedIn place _)
        (reportUnresolvedIn place _) fun _ _ _ _ => True := fun u u' hl' =>
      reportUnresolvedIn_gathers (arguments.mono (hl.trans hl').resemblance)
    cases hr with
    | ok _ => exact hrest t t' (.refl t t')
    | error e => exact (Gathers.report _).bind fun _ _ u u' _ hl' _ => hrest u u' hl'
  | .array component =>
    rw [reportUnresolved, reportUnresolved]
    exact reportUnresolved_gathers component
  | .wildcard upper lower =>
    rw [reportUnresolved, reportUnresolved]
    exact (reportUnresolvedBound_gathers upper).bind fun _ _ t t' _ hl _ =>
      reportUnresolvedBound_gathers (lower.mono hl.resemblance)

theorem reportUnresolvedBound_gathers {s s' : Session} {bound bound' : Option ModelType}
    (h : ModelType.BoundAlike (T.resemblance s s') bound bound') :
    T.Gathers s s' (reportUnresolvedBound place bound) (reportUnresolvedBound place bound')
      fun _ _ _ _ => True := by
  match h with
  | .none => exact .pure fun _ => trivial
  | .some hb =>
    rw [reportUnresolvedBound, reportUnresolvedBound]
    exact reportUnresolved_gathers hb

theorem reportUnresolvedIn_gathers {s s' : Session} {types types' : List ModelType}
    (h : ModelType.AllAlike (T.resemblance s s') types types') :
    T.Gathers s s' (reportUnresolvedIn place types) (reportUnresolvedIn place types')
      fun _ _ _ _ => True := by
  match h with
  | .nil => exact .pure fun _ => trivial
  | .cons head tail =>
    rw [reportUnresolvedIn, reportUnresolvedIn]
    exact (reportUnresolved_gathers head).bind fun _ _ t t' _ hl _ =>
      reportUnresolvedIn_gathers (tail.mono hl.resemblance)

end

theorem reportedText_gathers {type type' : ModelType} (h : T.typed type type' s s') :
    T.Gathers s s' (reportedText place type) (reportedText place type') equal :=
  (reportUnresolved_gathers h).bind fun _ _ _ _ _ hl _ =>
    .lift_last (displayType_runs (h.mono hl.resemblance))

/-! ### Parts of stubs -/

theorem eq_of_forall₂ {as bs : List α} (h : List.Forall₂ Eq as bs) : as = bs := by
  rwa [List.forall₂_eq_eq_eq] at h

theorem extractSuperclass_gathers (hid : T.Same s s' id id') :
    T.Gathers s s' (extractSuperclass place id) (extractSuperclass place id') equal := by
  refine Gathers.lift (superclassOf_asks hid) fun r r' t t' _ _ hr => ?_
  cases hr with
  | error e => exact (reportError_gathers e).map fun _ _ _ _ h => congrArg some h
  | @ok type type' htype =>
    have htext : T.Gathers t t' (some <$> reportedText place type) (some <$> reportedText place type')
        equal := (reportedText_gathers htype).map fun _ _ _ _ h => congrArg some h
    cases htype with
    | absent | void | package => exact .pure fun _ => rfl
    | _ => exact htext

theorem extractInterfaces_gathers (hid : T.Same s s' id id') :
    T.Gathers s s' (extractInterfaces place id) (extractInterfaces place id') equal := by
  refine Gathers.lift (interfacesOf_asks hid) fun r r' t t' ht _ hr => ?_
  cases hr with
  | error e =>
    exact (reportError_gathers e).bind fun _ _ _ _ _ _ h => .pure fun _ => congrArg ([·]) h
  | @ok types types' htypes =>
    have htexts : T.Gathers t t' (types.mapM (reportedText place))
        (types'.mapM (reportedText place)) fun texts texts' _ _ => List.Forall₂ Eq texts texts' :=
      .mapM (htypes.imp fun _ _ htype u u' _ hl =>
        reportedText_gathers (htype.mono hl.resemblance)) ht (.refl t t')
    exact htexts.mono fun _ _ _ _ h => eq_of_forall₂ h

/-- The texts of the type parameters of corresponding elements. -/
theorem paramTexts_gathers {names names' : List Name}
    (h : List.Forall₂ (s.names.Agree s'.names) names names') :
    T.Gathers s s' (names.mapM fun n => (nameText n : Extraction String))
      (names'.mapM fun n => (nameText n : Extraction String)) equal := by
  refine .alike fun hs => ?_
  have htexts : T.Gathers s s' (names.mapM fun n => (nameText n : Extraction String))
      (names'.mapM fun n => (nameText n : Extraction String))
      fun texts texts' _ _ => List.Forall₂ Eq texts texts' :=
    .mapM (h.imp fun _ _ hn u u' _ hl =>
      .lift_last (nameText_runs (hn.le hl.left.names hl.right.names))) hs (.refl s s')
  exact htexts.mono fun _ _ _ _ h => eq_of_forall₂ h

/-! ### Stubs -/

/-- An element is not a package. -/
def NoPackage (s : Session) (id : ElementId) : Prop := ∀ n, ¬s.Denotes (.package n) id

theorem NoPackage.later (h : NoPackage s id) (hs : s.Sound) (ht : t.Sound)
    (hl : Later s s' t t') (hid : id < s.elements.size) : NoPackage t id := by
  intro n hn
  obtain ⟨key, hd⟩ := hs.covered id hid
  obtain rfl := ht.unique _ _ _ (hd.last hl.left) hn
  exact h n hd

theorem noPackage_of_kind {e : Element} (hs : s.Sound) (he : s.elements.get? id = some e)
    (hk : e.kind ≠ .package) : NoPackage s id := by
  intro n hn
  obtain ⟨e', he', hdesc, -⟩ := hs.element _ id hn
  cases he.symm.trans he'
  obtain ⟨simple, -, hbare⟩ := hdesc.package_inv
  exact hk (congrArg Element.kind hbare)

/-- The stubs of corresponding types are the same. -/
def Extracts (T : Twins w w') (f f' : ElementId → Extraction TypeStub) : Prop :=
  ∀ s s' id id', T.Same s s' id id' → NoPackage s id → T.Gathers s s' (f id) (f' id') equal

variable {f f' : ElementId → Extraction TypeStub}

/-- The elements themselves, for work that goes on from them in the same sessions. -/
theorem elements_runs {e e' : Element} (he : s.elements.get? id = some e)
    (he' : s'.elements.get? id' = some e') :
    T.Runs s s' (elementAt id) (elementAt id') fun a b t t' =>
      e = a ∧ e' = b ∧ s = t ∧ s' = t' :=
  .of_reads (reads_elementAt he) (reads_elementAt he') fun _ => ⟨rfl, rfl, rfl, rfl⟩

/-- Corresponding members are added alike. -/
theorem addMember_gathers (hf : T.Extracts f f') (hid : T.Same s s' id id') (stub : TypeStub) :
    T.Gathers s s' (addMember f place stub id) (addMember f' place stub id') equal := by
  refine .alike fun hs => ?_
  obtain ⟨surface, nested⟩ := stub
  obtain ⟨e, e', he, he', hel⟩ := hs.elements hid
  refine Gathers.lift (elements_runs he he') ?_
  rintro _ _ _ _ - - ⟨rfl, rfl, rfl, rfl⟩
  have hprivate : e.hasModifier .privateAccess = e'.hasModifier .privateAccess := by
    rw [Element.hasModifier, Element.hasModifier, hel.modifiers]
  -- Members of all other kinds are types, with stubs of their own.
  have hnested (hk : e.kind ≠ .package) :
      T.Gathers s s' (do return TypeStub.mk surface (nested ++ [← f id]))
        (do return TypeStub.mk surface (nested ++ [← f' id'])) equal :=
    (hf s s' id id' hid (noPackage_of_kind hs.left.sound he hk)).bind
      fun _ _ _ _ _ _ h => .pure fun _ => h ▸ rfl
  rw [hel.kind] at hnested
  rw [hprivate, hel.kind, hel.span, hel.modifiers]
  split
  · exact .pure fun _ => rfl
  · cases hkind : e'.kind with
    | enumConstant =>
      exact Gathers.lift (nameText_runs hel.simpleName) fun _ _ _ _ _ _ h => .pure fun _ => h ▸ rfl
    | field =>
      refine Gathers.lift (ownType_runs hid) fun type type' u u' _ hl htype => ?_
      refine (reportedText_gathers htype).bind fun text text' v v' _ hl' htext => ?_
      have hlater := hl.trans hl'
      have hname := hel.simpleName.le hlater.left.names hlater.right.names
      exact Gathers.lift (nameText_runs hname) fun _ _ _ _ _ _ h => .pure fun _ => htext ▸ h ▸ rfl
    | package => exact .pure fun _ => rfl
    | _ =>
      refine hnested ?_
      rw [hkind]
      intro h
      cases h

/-- The variables that one session lacks are private. -/
def HidesPrivate (T : Twins w w') : Prop :=
  ∀ f : FieldDecl, T.keep f = false → .privateAccess ∈ f.modifiers

/-- A member that the second session lacks adds nothing. -/
theorem addMember_hidden (hp : T.HidesPrivate) {key : ElementKey} (hd : s.Denotes key id)
    (hk : T.Hidden key) (stub : TypeStub) {m' : Extraction β}
    {rel : TypeStub → β → Session → Session → Prop} {k : TypeStub → Extraction TypeStub}
    (h : T.Gathers s s' (k stub) m' rel) :
    T.Gathers s s' (addMember f place stub id >>= k) m' rel := by
  refine .alike fun hs => ?_
  obtain ⟨e, he, hdesc, -⟩ := hs.left.sound.element key id hd
  cases key with
  | field d m v =>
    obtain ⟨decl, hmember, hkeep⟩ := hk
    obtain ⟨decl', variable', owner, hmember', -, -, hbare⟩ := hdesc.field_inv
    rw [hs.left.of.member?, hmember] at hmember'
    cases hmember'
    -- Only private fields are left out, and these are passed over.
    have hprivate : e.hasModifier .privateAccess = true := by
      have hmods : e.modifiers = decl.modifiers := congrArg Element.modifiers hbare
      rw [Element.hasModifier, hmods]
      exact List.contains_iff_mem.2 (hp decl hkeep)
    have hadd (found : Array Diagnostic) :
        ((addMember f place stub id).run found).run.run s = (.ok (stub, found), s) := by
      have hread : ((liftM (elementAt id) : Extraction Element).run found).run.run s =
          (.ok (e, found), s) :=
        SessionM.run_bind (f := fun a => pure (a, found)) (reads_elementAt he)
      obtain ⟨surface, nested⟩ := stub
      refine (SessionM.run_bind hread).trans ?_
      dsimp only
      rw [if_pos hprivate]
      rfl
    intro found hs
    obtain ⟨r, r', t, t', hrun, hrun', hend⟩ := h found hs
    exact ⟨r, r', t, t', (SessionM.run_bind (hadd found)).trans hrun, hrun', hend⟩
  | _ => exact hk.elim

theorem addMembers_gathers (hp : T.HidesPrivate) (hf : T.Extracts f f') {ids ids' : List ElementId}
    (h : T.Sheds ids ids' s s') (stub : TypeStub) :
    T.Gathers s s' (ids.foldlM (addMember f place) stub) (ids'.foldlM (addMember f' place) stub)
      equal := by
  induction ids generalizing s s' ids' stub with
  | nil =>
    cases h
    exact .pure fun _ => rfl
  | cons id rest ih =>
    rw [List.foldlM_cons]
    cases h with
    | both hid hrest =>
      rw [List.foldlM_cons]
      refine (addMember_gathers hf hid stub).bind fun stub' _ t t' _ hl heq => ?_
      cases heq
      exact ih (Sheds.later hrest hl) stub'
    | left hid hrest =>
      obtain ⟨key, hd, hk⟩ := hid
      exact addMember_hidden hp hd hk stub (ih hrest stub)

/-- **The stubs of corresponding types** are the same. -/
theorem extractWithin_gathers (hp : T.HidesPrivate) (fuel : Nat) :
    T.Extracts (extractWithin fuel) (extractWithin fuel) := by
  induction fuel with
  | zero => exact fun _ _ _ _ _ _ => .pure fun _ => rfl
  | succ fuel ih =>
    intro s s' id id' hid hno
    refine .alike fun hs => ?_
    obtain ⟨e, e', he, he', hel⟩ := hs.elements hid
    unfold extractWithin
    refine Gathers.lift (elements_runs he he') ?_
    rintro _ _ _ _ - - ⟨rfl, rfl, rfl, rfl⟩
    rw [hel.kind, hel.span, hel.modifiers]
    refine (extractSuperclass_gathers hid).bind fun superclass _ t t' _ hl hsuper => ?_
    cases hsuper
    refine (extractInterfaces_gathers (hid.later hl)).bind fun interfaces _ u u' _ hl₁ hinter => ?_
    cases hinter
    have hlu := hl.trans hl₁
    refine Gathers.lift (displayElement_runs (hid.later hlu)) fun name _ v v' _ hl₂ hname => ?_
    cases hname
    have hlv := hlu.trans hl₂
    have hparams := hel.typeParams.imp fun _ _ hn => hn.le hlv.left.names hlv.right.names
    refine (paramTexts_gathers hparams).bind fun params _ x x' hx hl₃ hparams => ?_
    cases hparams
    have hlx := hlv.trans hl₃
    have hkey := hid
    obtain ⟨key, -, hd, -, -⟩ := hkey
    refine Gathers.lift (enclosedOf_asks (hid.later hlx) (hd.last hlx.left)) fun r r' y y' hy hl₄ hr => ?_
    cases hr with
    | error err => exact (Gathers.report _).bind fun _ _ _ _ _ _ _ => .pure fun _ => rfl
    | ok hcontents =>
      refine addMembers_gathers hp ih ?_ _
      -- A package is never extracted, so what the element encloses corresponds.
      cases key with
      | package n => exact absurd hd (hno n)
      | _ => exact hcontents

/-- **The stub of a type**, but for the file that it was extracted from. -/
theorem extract_gathers (hp : T.HidesPrivate) {b b' : Batch} (hid : T.Same s s' id id')
    (hno : NoPackage s id) :
    T.Gathers s s' (extract b id) (extract b' id')
      fun stub stub' _ _ => stub.unsourced = stub'.unsourced := by
  refine .alike fun hs => ?_
  have hget : T.Runs s s' (get : SessionM Session) (get : SessionM Session)
      fun a b t t' => s = a ∧ s' = b ∧ s = t ∧ s' = t' :=
    .of_reads rfl rfl fun _ => ⟨rfl, rfl, rfl, rfl⟩
  refine Gathers.lift hget ?_
  rintro _ _ _ _ - - ⟨rfl, rfl, rfl, rfl⟩
  rw [hs.left.of.index, hs.right.of.index, T.size]
  refine (extractWithin_gathers hp _ _ _ _ _ hid hno).bind fun stub _ t t' ht hl heq => ?_
  cases heq
  refine Gathers.lift (elementAt_runs (hid.later hl)) fun e e' u u' _ _ he => .pure fun _ => rfl

end Twins

end JavaAbi
