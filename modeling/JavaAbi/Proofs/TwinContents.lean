import JavaAbi.Proofs.TwinAnswers
import Mathlib.Data.List.Perm.Basic

namespace JavaAbi

/-!
# Contents in twin sessions

What corresponding elements enclose. Of the members of a declaration, those of variables that are left
out are missing on one side; the contents of a package may come in another order, so that for a package
only what is enclosed can be compared, and not how the sessions get there.

* `packageOf_runs`, `bodyOf_asks` — the package around an element, the body of a constant;
* `topLevelTypes_asks` — the types of batches in one order;
* `enclosedOf_asks` — what elements enclose.
-/

open Course

variable {w w' : World} {T : Twins w w'} {s s' t t' : Session} {id id' : ElementId}

namespace Twins

/-! ### Around an element -/

theorem packageWithin_runs {fuel fuel' : Nat} (hid : T.Same s s' id id') (hlt : id < fuel)
    (hlt' : id' < fuel') :
    T.Runs s s' (packageWithin fuel id) (packageWithin fuel' id') (optional T.same) := by
  induction fuel generalizing s s' fuel' id id' with
  | zero => exact absurd hlt (Nat.not_lt_zero _)
  | succ fuel ih =>
    cases fuel' with
    | zero => exact absurd hlt' (Nat.not_lt_zero _)
    | succ fuel' =>
      unfold packageWithin
      refine (elementAt_runs hid).bind fun e e' t t' _ hl he => ?_
      have houter := he.enclosing
      have hold := he.older
      have hold' := he.older'
      rw [he.kind]
      split
      · exact .pure fun _ => .some (hid.later hl)
      · generalize e.enclosing = enc, e'.enclosing = enc' at houter hold hold' ⊢
        cases houter with
        | none => exact .pure fun _ => .none
        | some ho =>
          exact ih ho (Nat.lt_of_lt_of_le (hold _ rfl) (Nat.le_of_lt_succ hlt))
            (Nat.lt_of_lt_of_le (hold' _ rfl) (Nat.le_of_lt_succ hlt'))

/-- **The packages around corresponding elements.** -/
theorem packageOf_runs (hid : T.Same s s' id id') :
    T.Runs s s' (packageOf id) (packageOf id') (optional T.same) := by
  refine .alike fun hs => .read ?_
  have hsame := hid
  obtain ⟨key, key', hd, hd', -⟩ := hid
  exact packageWithin_runs hsame (hs.left.sound.lt_size hd) (hs.right.sound.lt_size hd')

/-- **The bodies of corresponding constants.** -/
theorem bodyOf_asks (hid : T.Same s s' id id') :
    T.Asks s s' (bodyOf id) (bodyOf id') (optional T.same) := by
  refine .lift (elementAt_runs hid) fun e e' t t' _ _ he => ?_
  have hsource := he.source
  have hnone : T.Asks t t' (pure none) (pure none) (optional T.same) := .pure fun _ => .none
  generalize e.source = x, e'.source = x' at hsource ⊢
  cases hsource with
  | constant hbody =>
    cases hbody with
    | none => exact hnone
    | some hd => exact (elementOfDecl_asks hd).map fun _ _ _ _ _ _ h => .some h
  | tree _ => exact hnone
  | field _ => exact hnone
  | described _ => exact hnone
  | package => exact hnone

/-! ### Members of declarations -/

/-- The element of a key that only the first session is asked for. -/
theorem Asks.left {α β : Type} {rel : α → β → Session → Session → Prop} {key : ElementKey}
    {f : ElementId → Query α} {q' : Query β} (ha : s.Askable key) (ho : s.outcomeOf key = .ok ())
    (hf : ∀ id t, T.Alike t s' → Later s s' t s' → t.Denotes key id →
      T.Asks t s' (f id) q' rel) : T.Asks s s' (canonical key >>= f) q' rel := by
  intro hs
  obtain ⟨_, t, hrun, ht, hg, _, rfl, id, rfl, hd⟩ :=
    canonical_denotes hs.left.quiet ha ho hs.left.sound
  obtain ⟨halike, hl⟩ := hs.builds ht hs.right.sound hg (.refl s')
  obtain ⟨r, r', u, u', hrunf, hrunf', hu, hl', hend⟩ := hf id t halike hl hd halike
  exact ⟨r, r', u, u', (SessionM.run_bind (m := (canonical key).run) hrun).trans hrunf, hrunf', hu,
    hl.trans hl', hend⟩

/-- Elements of which some are hidden. -/
def Sheds (T : Twins w w') (ids ids' : List ElementId) (t t' : Session) : Prop :=
  List.Sheds (fun id => ∃ key, t.Denotes key id ∧ T.Hidden key) (T.Same t t') ids ids'

theorem Sheds.later {ids ids' : List ElementId} (h : T.Sheds ids ids' s s')
    (hl : Later s s' t t') : T.Sheds ids ids' t t' :=
  h.mono (fun _ ⟨key, hd, hk⟩ => ⟨key, hd.last hl.left, hk⟩) fun _ _ hs => hs.later hl

/-- **The elements of keys of which some are hidden.** -/
theorem canonicals_asks {keys keys' : List ElementKey}
    (h : List.Sheds T.Hidden (T.Keys s.names s'.names) keys keys')
    (ha : ∀ key ∈ keys, s.Askable key) (ha' : ∀ key ∈ keys', s'.Askable key) :
    T.Asks s s' (keys.mapM canonical) (keys'.mapM canonical) T.Sheds := by
  induction keys generalizing s s' keys' with
  | nil =>
    cases h
    rw [List.mapM_nil]
    exact .pure fun _ => .nil
  | cons key rest ih =>
    have hlast : ∀ {s t : Session} {keys : List ElementKey}, s.Lasts t →
        (∀ key ∈ keys, s.Askable key) → ∀ key ∈ keys, t.Askable key :=
      fun hl ha key hkey => (ha key hkey).last hl
    rw [List.mapM_cons]
    cases h with
    | @both _ key' _ rest' hk hrest =>
      rw [List.mapM_cons]
      refine (canonical_asks hk (ha _ List.mem_cons_self) (ha' _ List.mem_cons_self)).bind
        fun id id' t t' _ hl hid => ?_
      have hrest' := ih (hrest.mono (fun _ h => h) fun _ _ hk => hk.le hl.left.names hl.right.names)
        (hlast hl.left fun k hk => ha k (List.mem_cons_of_mem _ hk))
        (hlast hl.right fun k hk => ha' k (List.mem_cons_of_mem _ hk))
      exact hrest'.bind fun _ _ _ _ _ hl' hids => .pure fun _ => .both (hid.later hl') hids
    | left hhidden hrest =>
      -- A hidden key is that of a variable, which can always be made.
      have hout : s.outcomeOf key = .ok () := by
        cases key with
        | field _ _ _ => rfl
        | _ => exact hhidden.elim
      refine Asks.left (ha _ List.mem_cons_self) hout fun id t _ hl hd => ?_
      have hrest' := ih (hrest.mono (fun _ h => h) fun _ _ hk => hk.le hl.left.names hl.right.names)
        (hlast hl.left fun k hk => ha k (List.mem_cons_of_mem _ hk)) ha'
      have hmap : keys'.mapM canonical = keys'.mapM canonical >>= pure := (bind_pure _).symm
      rw [hmap]
      exact hrest'.bind fun _ _ _ _ _ hl' hids => .pure fun _ =>
        .left ⟨key, hd.last hl'.left, hhidden⟩ hids

end Twins

/-! ### Elements of declarations -/

/-- Lists without repetitions whose entries match correspond, in some order. -/
theorem perm_of_matching {α β : Type} {rel : α → β → Prop} {as : List α} {bs : List β}
    (hinj : ∀ a a' b, rel a b → rel a' b → a = a') (hfun : ∀ a b b', rel a b → rel a b' → b = b')
    (hnd : as.Nodup) (hnd' : bs.Nodup) (h : ∀ a ∈ as, ∃ b ∈ bs, rel a b)
    (h' : ∀ b ∈ bs, ∃ a ∈ as, rel a b) : ∃ l, l.Perm bs ∧ List.Forall₂ rel as l := by
  induction as generalizing bs with
  | nil =>
    cases bs with
    | nil => exact ⟨[], .refl _, .nil⟩
    | cons b rest =>
      obtain ⟨a, ha, -⟩ := h' b List.mem_cons_self
      cases ha
  | cons a rest ih =>
    classical
    obtain ⟨b, hb, hab⟩ := h a List.mem_cons_self
    obtain ⟨hnot, hnd⟩ := List.nodup_cons.1 hnd
    -- The match of the first entry is taken out; it is that of no other one.
    have hperm : bs.Perm (b :: bs.erase b) := List.perm_cons_erase hb
    have hnd'' := List.nodup_cons.1 (hperm.nodup_iff.1 hnd')
    obtain ⟨l, hl, hall⟩ := @ih (bs.erase b) hnd hnd''.2
      (fun x hx => by
        obtain ⟨y, hy, hxy⟩ := h x (List.mem_cons_of_mem _ hx)
        refine ⟨y, (List.mem_cons.1 (hperm.mem_iff.1 hy)).resolve_left ?_, hxy⟩
        rintro rfl
        exact hnot (hinj x a y hxy hab ▸ hx))
      (fun y hy => by
        obtain ⟨x, hx, hxy⟩ := h' y (hperm.mem_iff.2 (List.mem_cons_of_mem _ hy))
        refine ⟨x, (List.mem_cons.1 hx).resolve_left ?_, hxy⟩
        rintro rfl
        exact hnd''.1 (hfun x b y hab hxy ▸ hy))
    exact ⟨b :: l, (hl.cons b).trans hperm.symm, .cons hab hall⟩

namespace Twins

/-- The elements of corresponding declarations, in order. -/
theorem distinctElements_asks {ds ds' : List DeclId} {seen seen' : List ElementId}
    (hd : List.Forall₂ T.decl ds ds')
    (hc : ∀ d ∈ ds, ChildOf s.index.known? s.index.find? none d)
    (hc' : ∀ d ∈ ds', ChildOf s'.index.known? s'.index.find? none d)
    (hseen : List.Forall₂ (T.Same s s') seen seen') :
    T.Asks s s' (distinctElements seen ds) (distinctElements seen' ds') T.allSame := by
  induction hd generalizing s s' seen seen' with
  | nil => exact .pure fun _ => hseen
  | @cons d d' rest rest' hd _ ih =>
    refine .alike fun hs => ?_
    have hask := (Session.askable_child hs.left.sound (fun _ h => by cases h)
      (hc d List.mem_cons_self)).1
    have hask' := (Session.askable_child hs.right.sound (fun _ h => by cases h)
      (hc' d' List.mem_cons_self)).1
    unfold distinctElements
    refine (elementOfDecl_asks ⟨hd, hask, hask'⟩).bind fun id id' t t' ht hl hid => ?_
    have hseen' := allSame.later hseen hl
    refine ih ?_ ?_ ?_
    · rw [hl.left.index]
      exact fun c h => hc c (List.mem_cons_of_mem _ h)
    · rw [hl.right.index]
      exact fun c h => hc' c (List.mem_cons_of_mem _ h)
    · rw [ht.contains_eq hid hseen']
      split
      · exact hseen'
      · exact List.rel_append hseen' (.cons hid .nil)

/-- **The top-level types of batches in one order.** -/
theorem topLevelTypes_asks (htop : List.Forall₂ T.decl w.index.topLevel w'.index.topLevel) :
    T.Asks s s' topLevelTypes topLevelTypes T.allSame := by
  refine .alike fun hs => .read ?_
  have hc := hs.left.sound.index.topLevel
  have hc' := hs.right.sound.index.topLevel
  rw [← hs.left.of.index, ← hs.right.of.index] at htop
  exact distinctElements_asks htop hc hc' .nil

/-! ### What an element encloses -/

/-- Packages of one text are the same or differ alike. -/
theorem package_eq_iff {p p' q q' : Option Name} {t t' : NameTable}
    (h : Option.Rel (t.Agree t') p p') (hq : Option.Rel (t.Agree t') q q') : p = q ↔ p' = q' := by
  cases h with
  | none => cases hq <;> simp
  | some h =>
    cases hq with
    | none => simp
    | some hq => rw [Option.some_inj, Option.some_inj, h.eq_iff hq]

/-- The declarations in packages of one text correspond, in some order. -/
theorem inPackage_twins {u u' : NameTable} {p p' : Option Name} (hle : w.names.Le u)
    (hle' : w'.names.Le u') (hp : Option.Rel (u.Agree u') p p') :
    ∃ l, l.Perm (w'.index.inPackage p') ∧ List.Forall₂ T.decl (w.index.inPackage p) l := by
  obtain ⟨ds, hperm, hall⟩ := T.topLevel
  refine ⟨_, hperm.filter _, List.rel_filter (fun d d' hd => ?_) hall⟩
  obtain ⟨i, i', hi, hi', hinfo⟩ := T.info hd
  have heq := package_eq_iff (Option.Rel.mono (T.package hinfo.unit) fun _ _ h => h.le hle hle') hp
  simp only [hi, hi', Option.any_some, decide_eq_true_eq]
  exact heq

/-- **The contents of corresponding packages.** -/
theorem packageContents_asks {p p' : Option Name}
    (hp : Option.Rel (s.names.Agree s'.names) p p') :
    T.Asks s s' (distinctElements [] (s.index.inPackage p))
      (distinctElements [] (s'.index.inPackage p'))
      fun ids ids' t t' => ∃ l, l.Perm ids' ∧ List.Forall₂ (T.Same t t') ids l := by
  refine .alike fun hs => ?_
  have hinside (x : DeclIndex) (q : Option Name) (d : DeclId) (hd : d ∈ x.inPackage q) :
      d ∈ x.topLevel := (List.mem_filter.1 hd).1
  have hleft := distinctElements_collects hs.left.quiet
    (fun d hd => hs.left.sound.index.topLevel d (hinside s.index p d hd)) (.nil s)
  have hright := distinctElements_collects hs.right.quiet
    (fun d hd => hs.right.sound.index.topLevel d (hinside s'.index p' d hd)) (.nil s')
  refine Runs.builds hleft hright ?_
  rintro _ _ t t' ht hl ⟨ids, rfl, hids⟩ ⟨ids', rfl, hids'⟩
  rw [List.nil_append] at hids hids'
  obtain ⟨l, hperm, hall⟩ := inPackage_twins (T := T) hs.left.of.names hs.right.of.names hp
  have hsame : ∀ d d' id id', T.decl d d' → t.Denotes (t.index.keyOf d) id →
      t'.Denotes (t'.index.keyOf d') id' → T.Same t t' id id' := fun d d' id id' hd hden hden' =>
    ⟨_, _, hden, hden', ht.keyOf hd⟩
  -- No element is listed twice, and each has its counterpart in the other list.
  refine .ok (perm_of_matching (fun _ _ _ h h' => h.injective h' ht.right.sound)
    (fun _ _ _ h h' => h.functional h' ht.left.sound) hids.distinct hids'.distinct ?_ ?_)
  · intro id hid
    obtain ⟨d, hd, hden⟩ := hids.of id hid
    rw [hs.left.of.index] at hd
    obtain ⟨d', hd', hdecl⟩ := forall₂_mem_left hall d hd
    obtain ⟨id', hid', hden'⟩ := hids'.all d' (hs.right.of.index ▸ hperm.mem_iff.1 hd')
    exact ⟨id', hid', hsame d d' id id' hdecl hden hden'⟩
  · intro id' hid'
    obtain ⟨d', hd', hden'⟩ := hids'.of id' hid'
    rw [hs.right.of.index] at hd'
    obtain ⟨d, hd, hdecl⟩ := forall₂_mem_left hall.flip d' (hperm.mem_iff.2 hd')
    obtain ⟨id, hid, hden⟩ := hids.all d (hs.left.of.index ▸ hd)
    exact ⟨id, hid, hsame d d' id id' hdecl hden hden'⟩

/-- **What corresponding elements enclose.** -/
theorem computeEnclosed_asks {e e' : Element} {key : ElementKey}
    (he : T.Elements s s' id id' e e') (hkey : e.source = .package ↔ ∃ n, key = .package n) :
    T.Asks s s' (computeEnclosed e) (computeEnclosed e')
      fun ids ids' t t' => T.Contents t t' key ids ids' := by
  refine .alike fun hs => ?_
  have hsource := he.source
  -- Only the contents of packages may come in another order.
  have hsheds : ∀ {ids ids' t t'}, (∀ n, key ≠ .package n) → T.Sheds ids ids' t t' →
      T.Contents t t' key ids ids' := by
    intro ids ids' t t' hne hids
    cases key with
    | package n => exact absurd rfl (hne n)
    | _ => exact hids
  have hnone : (∀ n, key ≠ .package n) → T.Asks s s' (pure []) (pure [])
      fun ids ids' t t' => T.Contents t t' key ids ids' := fun hne =>
    .pure fun _ => hsheds hne .nil
  unfold computeEnclosed
  generalize e.source = x, e'.source = x' at hsource hkey ⊢
  have hne : x ≠ .package → ∀ n, key ≠ .package n := fun h n hn => h (hkey.2 ⟨n, hn⟩)
  cases hsource with
  | tree hshape =>
    exact (canonicals_asks hshape.members hshape.askable hshape.askable').mono
      fun _ _ _ _ _ _ hids => hsheds (hne nofun) hids
  | package =>
    obtain ⟨n, rfl⟩ := hkey.1 rfl
    exact .read (Runs.reads (reads_inPackage hs.left.sound _) (reads_inPackage hs.right.sound _)
      (packageContents_asks he.qualifiedName.name?))
  | field _ => exact hnone (hne nofun)
  | constant _ => exact hnone (hne nofun)
  | described _ => exact hnone (hne nofun)

/-- **What corresponding elements enclose**, computed once and kept. -/
theorem enclosedOf_asks {key : ElementKey} (hid : T.Same s s' id id') (hd : s.Denotes key id) :
    T.Asks s s' (enclosedOf id) (enclosedOf id')
      fun ids ids' t t' => T.Contents t t' key ids ids' := by
  refine .alike fun hs => ?_
  obtain ⟨e, e', he, he', hel⟩ := hs.elements hid
  have hcompute := computeEnclosed_asks hel (hs.left.sound.source_eq_package_iff hd he)
  have hkept : Option.Rel (OutcomeAlike (T.Contents s s' key)) e.enclosed e'.enclosed := by
    obtain ⟨k, key', hk, hk', hkeys⟩ := hid
    obtain rfl := hs.left.sound.unique _ _ _ hd hk
    have hm := hs.memory key key' id id' hd hk' hkeys
    rw [Session.memory_of_get he, Session.memory_of_get he'] at hm
    exact hm.enclosed
  refine .reads (reads_elementAt he) (reads_elementAt he') ?_
  generalize e.enclosed = kept, e'.enclosed = kept' at hkept ⊢
  cases hkept with
  | some hr => exact .ofExcept fun _ => hr
  | none =>
    refine keepAnswer_asks hcompute (fun r r' t t' hl hr => .alike fun ht => ?_)
      fun _ _ _ _ _ _ hl hids => hids.later hl
    refine updateElement_runs (hid.later hl) (fun _ => rfl) (fun _ => rfl)
      fun k _ _ _ _ hk hm => { hm with enclosed := ?_ }
    obtain rfl := ht.left.sound.unique _ _ _ (hd.last hl.left) hk
    exact .some hr

end Twins

end JavaAbi
