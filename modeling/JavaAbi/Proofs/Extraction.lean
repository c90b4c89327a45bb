import JavaAbi.Command.Run
import JavaAbi.Proofs.Clients

namespace JavaAbi

/-!
# Reports of an extraction

Extracting stubs asks a session nothing that a client could not ask, so no breach stops it. What it
reports are the errors of its questions.

* `Course.Gathers` — extraction that ends without a breach and reports only what is allowed;
* `extract_gathers` — the stub of an element, when every error that a question may have is allowed.
-/

open Course Stage

variable {w : World} {s : Session} {α β : Type} {allowed : Diagnostic → Prop}

/-! ### Extractions -/

/-- From a sound session, an extraction ends without a breach and reports only what is allowed. -/
def Course.Gathers (C : Course Session) (s : Session) (m : Extraction α)
    (allowed : Diagnostic → Prop) (post : α → Session → Prop) : Prop :=
  ∀ found : Array Diagnostic, (∀ d ∈ found, allowed d) →
    C.Ends s (m.run found) fun r t => (∀ d ∈ r.2, allowed d) ∧ post r.1 t

namespace Course

variable {C : Course Session} {P : α → Session → Prop} {Q : β → Session → Prop}

theorem Gathers.pure {a : α} (h : C.Sound s → P a s) :
    C.Gathers s (Pure.pure a : Extraction α) allowed P :=
  fun _ hfound => .pure fun hs => ⟨hfound, h hs⟩

theorem Gathers.bind {m : Extraction α} {f : α → Extraction β} (h : C.Gathers s m allowed P)
    (hf : ∀ a t, C.Sound t → C.Grows s t → P a t → C.Gathers t (f a) allowed Q) :
    C.Gathers s (m >>= f) allowed Q :=
  fun found hfound => (h found hfound).bind fun r t ht hg hr => hf r.1 t ht hg hr.2 r.2 hr.1

theorem Gathers.mono {m : Extraction α} {P' : α → Session → Prop} (h : C.Gathers s m allowed P)
    (hm : ∀ a t, C.Sound t → C.Grows s t → P a t → P' a t) : C.Gathers s m allowed P' :=
  fun found hfound => (h found hfound).mono fun r t ht hg hr => ⟨hr.1, hm r.1 t ht hg hr.2⟩

/-- Session work reports nothing. -/
theorem Gathers.lift {m : SessionM α} {f : α → Extraction β} (h : C.Ends s m P)
    (hf : ∀ a t, C.Sound t → C.Grows s t → P a t → C.Gathers t (f a) allowed Q) :
    C.Gathers s (liftM m >>= f) allowed Q := by
  refine .bind (P := P) (fun found hfound => ?_) hf
  exact h.bind fun a t _ _ ha => .pure fun _ => ⟨hfound, ha⟩

theorem Gathers.lift_last {m : SessionM α} (h : C.Ends s m P) :
    C.Gathers s (liftM m : Extraction α) allowed P :=
  fun _ hfound => h.bind fun _ _ _ _ ha => .pure fun _ => ⟨hfound, ha⟩

theorem Gathers.sound {m : Extraction α} (h : C.Sound s → C.Gathers s m allowed P) :
    C.Gathers s m allowed P :=
  fun found hfound => .sound fun hs => h hs found hfound

theorem Gathers.report {d : Diagnostic} (h : allowed d) :
    C.Gathers s (report d) allowed fun _ t => t = s :=
  fun found hfound => .pure fun _ => ⟨fun x hx => by
    rcases Array.mem_push.1 hx with hx | rfl
    · exact hfound x hx
    · exact h, rfl⟩

end Course

/-! ### Errors in reports -/

/-- Every error that the elements of a session may have makes a diagnostic that is allowed. -/
def World.Allows (w : World) (allowed : Diagnostic → Prop) : Prop :=
  ∀ symbol e place, w.ExcusesOf symbol e → allowed (e.diagnostic place)

theorem reportError_gathers {place : Span} {e : ModelError} (h : allowed (e.diagnostic place)) :
    (asking w).Gathers s (reportError place e) allowed fun _ _ => True :=
  (Gathers.report h).bind fun _ _ _ _ _ => .pure fun _ => trivial

section Types

mutual

/-- **What does not resolve in a type** is reported with the error of its look-up. -/
theorem reportUnresolved_gathers (hw : w.Allows allowed) {place : Span} {type : ModelType}
    {s : Session} (h : s.Holds w type) :
    (asking w).Gathers s (reportUnresolved place type) allowed fun _ _ => True := by
  match type with
  | .declared origin target args enclosing =>
    have helement := elementOfType_honours h
    rw [Session.Holds] at h
    obtain ⟨-, -, hargs, -⟩ := h
    unfold reportUnresolved
    refine .sound fun hs => ?_
    -- The arguments come after the type itself, whatever has become of it.
    have hrest (t : Session) (hg : s.Learns w t) :
        (asking w).Gathers t (reportUnresolvedIn place args) allowed fun _ _ => True :=
      reportUnresolvedIn_gathers hw (hargs.learn hs.resolved.sound hg)
    refine Gathers.lift (m := (elementOfType (.declared origin target args enclosing)).run) helement
      fun r t ht hg ⟨y, hy, _⟩ => ?_
    match r, y, hy with
    | .ok _, _, _ => exact hrest t hg
    | .error e, .error _, ⟨_, he⟩ =>
      refine (Gathers.report (hw default e place (.inl he))).bind fun _ u _ _ heq => ?_
      exact heq ▸ hrest t hg
  | .array component =>
    rw [Session.Holds] at h
    unfold reportUnresolved
    exact reportUnresolved_gathers hw h
  | .wildcard upper lower =>
    rw [Session.Holds] at h
    unfold reportUnresolved
    refine .sound fun hs => ?_
    refine (reportUnresolvedBound_gathers hw h.1).bind fun _ t _ hg _ => ?_
    refine reportUnresolvedBound_gathers hw (Session.holdsBound_iff.2 fun type htype => ?_)
    exact (Session.holdsBound_iff.1 h.2 type htype).learn hs.resolved.sound hg
  | .primitive _ | .absent | .void | .package | .typeVariable _ _ | .error =>
    exact .pure fun _ => trivial

theorem reportUnresolvedBound_gathers (hw : w.Allows allowed) {place : Span}
    {bound : Option ModelType} {s : Session} (h : s.HoldsBound w bound) :
    (asking w).Gathers s (reportUnresolvedBound place bound) allowed fun _ _ => True := by
  match bound with
  | none => exact .pure fun _ => trivial
  | some type =>
    rw [Session.HoldsBound] at h
    unfold reportUnresolvedBound
    exact reportUnresolved_gathers hw h

theorem reportUnresolvedIn_gathers (hw : w.Allows allowed) {place : Span} {types : List ModelType}
    {s : Session} (h : s.HoldsAll w types) :
    (asking w).Gathers s (reportUnresolvedIn place types) allowed fun _ _ => True := by
  match types with
  | [] => exact .pure fun _ => trivial
  | type :: rest =>
    rw [Session.HoldsAll] at h
    unfold reportUnresolvedIn
    refine .sound fun hs => ?_
    refine (reportUnresolved_gathers hw h.1).bind fun _ t _ hg _ => ?_
    exact reportUnresolvedIn_gathers hw (h.2.learn hs.resolved.sound hg)

end

end Types

theorem reportedText_gathers (hw : w.Allows allowed) {place : Span} {type : ModelType}
    (h : s.Holds w type) :
    (asking w).Gathers s (reportedText place type) allowed fun _ _ => True := by
  refine .sound fun hs => (reportUnresolved_gathers hw h).bind fun _ t _ hg _ => ?_
  exact .lift_last (displayType_ends (h.learn hs.resolved.sound hg))

theorem reportedTexts_gathers (hw : w.Allows allowed) {place : Span} {types : List ModelType}
    (h : ∀ type ∈ types, s.Holds w type) :
    (asking w).Gathers s (types.mapM (reportedText place)) allowed fun _ _ => True := by
  induction types generalizing s with
  | nil => exact .pure fun _ => trivial
  | cons type rest ih =>
    rw [List.mapM_cons]
    refine .sound fun hs => (reportedText_gathers hw (h type List.mem_cons_self)).bind
      fun _ t _ hg _ => (ih fun type' htype => ?_).bind fun _ _ _ _ _ => .pure fun _ => trivial
    exact (h type' (List.mem_cons_of_mem _ htype)).learn hs.resolved.sound hg

/-! ### Stubs -/

section Stubs

variable {id : ElementId} {e : Element} {symbol : Symbol}

theorem extractSuperclass_gathers (hw : w.Allows allowed) {place : Span}
    (h : s.Shows symbol id) :
    (asking w).Gathers s (extractSuperclass place id) allowed fun _ _ => True := by
  unfold extractSuperclass
  refine Gathers.lift (m := (superclassOf id).run) (superclassOf_honours h)
    fun r t _ _ ⟨y, hy, _⟩ => ?_
  match r, y, hy with
  | .error e, .error _, ⟨_, he⟩ =>
    exact (reportError_gathers (hw symbol e place he)).bind fun _ _ _ _ _ => .pure fun _ => trivial
  | .ok type, .ok v, hy =>
    have htext : (asking w).Gathers t (some <$> reportedText place type) allowed fun _ _ => True :=
      (reportedText_gathers hw hy.1).bind fun _ _ _ _ _ => .pure fun _ => trivial
    cases type with
    | absent | void | package => exact .pure fun _ => trivial
    | _ => exact htext

theorem extractInterfaces_gathers (hw : w.Allows allowed) {place : Span}
    (h : s.Shows symbol id) :
    (asking w).Gathers s (extractInterfaces place id) allowed fun _ _ => True := by
  unfold extractInterfaces
  refine Gathers.lift (m := (interfacesOf id).run) (interfacesOf_honours h)
    fun r t _ _ ⟨y, hy, _⟩ => ?_
  match r, y, hy with
  | .error e, .error _, ⟨_, he⟩ =>
    exact (reportError_gathers (hw symbol e place he)).bind fun _ _ _ _ _ => .pure fun _ => trivial
  | .ok types, .ok vs, hy => exact reportedTexts_gathers hw hy.holds

/-- A member is added to a stub, when the stubs of member types can be extracted. -/
theorem addMember_gathers (hw : w.Allows allowed) {place : Span}
    {extractType : ElementId → Extraction TypeStub} {stub : TypeStub}
    (hextract : ∀ t id, id < t.elements.size →
      (asking w).Gathers t (extractType id) allowed fun _ _ => True)
    (hid : id < s.elements.size) :
    (asking w).Gathers s (addMember extractType place stub id) allowed fun _ _ => True := by
  refine .sound fun hs => ?_
  obtain ⟨surface, nested⟩ := stub
  obtain ⟨key, hd⟩ := hs.resolved.sound.covered id hid
  obtain ⟨e, he, -⟩ := hs.resolved.sound.element key id hd
  have hnamed := hs.resolved.named he
  refine .lift (reads_elementAt he).ends fun m t _ _ ⟨hm, ht⟩ => ?_
  subst hm ht
  split
  · exact .pure fun _ => trivial
  · -- Members of all kinds are shown with their simple names; types with stubs of their own.
    have hname : t.names.Issued m.simpleName := hnamed.simple
    have hnested : (asking w).Gathers t (do
        return TypeStub.mk surface (nested ++ [← extractType id])) allowed fun _ _ => True :=
      (hextract t id hid).bind fun _ _ _ _ _ => .pure fun _ => trivial
    cases m.kind with
    | enumConstant =>
      exact .lift (reads_nameText hname).ends fun _ _ _ _ _ => .pure fun _ => trivial
    | field =>
      refine .lift (ownType_ends ⟨key, hd, rfl⟩) fun type u _ hg htype => ?_
      refine (reportedText_gathers hw htype.holds).bind fun _ v _ hg' _ => ?_
      have hname' := hname.le (hg.names.trans hg'.names)
      exact .lift (reads_nameText hname').ends fun _ _ _ _ _ => .pure fun _ => trivial
    | package => exact .pure fun _ => trivial
    | _ => exact hnested

theorem addMembers_gathers (hw : w.Allows allowed) {place : Span}
    {extractType : ElementId → Extraction TypeStub} {ids : List ElementId} {stub : TypeStub}
    (hextract : ∀ t id, id < t.elements.size →
      (asking w).Gathers t (extractType id) allowed fun _ _ => True)
    (hids : ∀ id ∈ ids, id < s.elements.size) :
    (asking w).Gathers s (ids.foldlM (addMember extractType place) stub) allowed
      fun _ _ => True := by
  induction ids generalizing s stub with
  | nil => exact .pure fun _ => trivial
  | cons id rest ih =>
    rw [List.foldlM_cons]
    refine (addMember_gathers hw hextract (hids id List.mem_cons_self)).bind
      fun stub t _ hg _ => ih fun id' hid' => ?_
    exact Nat.lt_of_lt_of_le (hids id' (List.mem_cons_of_mem _ hid')) hg.size_le

theorem paramTexts_ends {names : List Name} (h : ∀ n ∈ names, s.names.Issued n) :
    (asking w).Gathers s (names.mapM fun n => (nameText n : Extraction String)) allowed
      fun _ t => t = s := by
  induction names with
  | nil => exact .pure fun _ => rfl
  | cons n rest ih =>
    rw [List.mapM_cons]
    refine .lift (reads_nameText (h n List.mem_cons_self)).ends fun _ t _ _ ⟨_, ht⟩ => ?_
    subst ht
    exact (ih fun m hm => h m (List.mem_cons_of_mem _ hm)).bind fun _ _ _ _ ht => .pure fun _ => ht

theorem extractWithin_gathers (hw : w.Allows allowed) {fuel : Nat} (hid : id < s.elements.size) :
    (asking w).Gathers s (extractWithin fuel id) allowed fun _ _ => True := by
  induction fuel generalizing s id with
  | zero => exact .pure fun _ => trivial
  | succ fuel ih =>
    refine .sound fun hs => ?_
    obtain ⟨key, hd⟩ := hs.resolved.sound.covered id hid
    obtain ⟨e, he, -⟩ := hs.resolved.sound.element key id hd
    have hshow : s.Shows (key.symbol s.names) id := ⟨key, hd, rfl⟩
    have hnamed := hs.resolved.named he
    unfold extractWithin
    refine .lift (reads_elementAt he).ends fun a t _ _ ⟨ha, ht⟩ => ?_
    subst ha ht
    -- The parts come in the order of the stub, and each is asked for after the others were
    -- answered.
    refine (extractSuperclass_gathers hw hshow).bind fun superclass u hu hgu _ => ?_
    have hshowu := hshow.grow hs.resolved.sound hgu.toKeeps
    refine (extractInterfaces_gathers hw hshowu).bind fun interfaces v hv hgv _ => ?_
    have hg := hgu.trans hgv
    have hidv : id < v.elements.size := Nat.lt_of_lt_of_le hid hg.size_le
    obtain ⟨text, htext⟩ := reads_displayElement hv.resolved hidv
    refine .lift htext.ends fun _ x _ _ ⟨_, hx⟩ => ?_
    subst hx
    refine (paramTexts_ends fun n hn => (hnamed.typeParams n hn).le hg.names).bind
      fun _ y _ _ hy => ?_
    subst hy
    obtain ⟨e', he', -⟩ := hg.elements id _ he
    have hshowv := hshowu.grow hu.resolved.sound hgv.toKeeps
    refine .lift (enclosedOf_answers hshowv he') fun r z _ _ hr => ?_
    obtain ⟨ids, rfl, hids, -⟩ := hr
    exact addMembers_gathers hw (fun t id hid => ih hid) hids

/-- **The stub of an element** is extracted without a breach, and only what is allowed is
    reported. -/
theorem extract_gathers (hw : w.Allows allowed) {b : Batch} (hid : id < s.elements.size) :
    (asking w).Gathers s (extract b id) allowed fun _ _ => True := by
  have hget : Reads s (get : SessionM Session) s := rfl
  refine .lift hget.ends fun st t _ _ ⟨hst, ht⟩ => ?_
  subst hst ht
  refine (extractWithin_gathers hw hid).bind fun stub u hu hg _ => ?_
  have hidu : id < u.elements.size := Nat.lt_of_lt_of_le hid hg.size_le
  obtain ⟨key, hd⟩ := hu.resolved.sound.covered id hidu
  obtain ⟨e, he, -⟩ := hu.resolved.sound.element key id hd
  exact .lift (reads_elementAt he).ends fun _ _ _ _ _ => .pure fun _ => trivial

end Stubs

end JavaAbi
