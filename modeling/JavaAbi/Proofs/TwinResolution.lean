import JavaAbi.Proofs.TwinRuns

namespace JavaAbi

/-!
# Names in twin sessions

What is written in corresponding scopes is resolved to corresponding elements, if the lists of
supertypes correspond; and these do, since they are made in step. One theorem per function, in the order
of the functions.

* `scopeOf_asks` — the scope inside an element;
* `memberOf_asks`, `memberTypeAt_asks` — member types;
* `resolvePath_asks`, `resolveTarget_asks` — names and references;
* `typeOf_runs` — written types;
* `directSupertypes_supplies` — lists of supertypes.
-/

open Course

variable {w w' : World} {T : Twins w w'} {s s' t t' : Session} {id id' : ElementId}

namespace Twins

/-! ### Scopes -/

/-- Walks outwards that correspond. -/
structure Chains (T : Twins w w') (s s' : Session)
    (x x' : List (DeclId × ElementId) × Option Nat) : Prop where
  levels : List.Forall₂ (T.Level s s') x.1 x'.1
  unit : Option.Rel T.unit x.2 x'.2

/-- A walk ends, since what encloses an element is older; how far it may go does not matter. -/
theorem scopeChain_runs {fuel fuel' : Nat} {enc enc' : Option ElementId}
    (henc : Option.Rel (T.Same s s') enc enc') (hfuel : ∀ id ∈ enc, id < fuel)
    (hfuel' : ∀ id ∈ enc', id < fuel') :
    T.Runs s s' (scopeChain fuel enc) (scopeChain fuel' enc')
      fun x x' t t' => T.Chains t t' x x' := by
  induction fuel generalizing s s' fuel' enc enc' with
  | zero =>
    cases henc with
    | some hid => exact absurd (hfuel _ rfl) (Nat.not_lt_zero _)
    | none => cases fuel' <;> exact .pure fun _ => ⟨.nil, .none⟩
  | succ fuel ih =>
    cases henc with
    | none => cases fuel' <;> exact .pure fun _ => ⟨.nil, .none⟩
    | @some id id' hid =>
      cases fuel' with
      | zero => exact absurd (hfuel' _ rfl) (Nat.not_lt_zero _)
      | succ fuel' =>
        unfold scopeChain
        refine (elementAt_runs hid).bind fun e e' t t' ht hl he => ?_
        -- Only declarations in the batch are levels; the walk goes on outwards from all others but
        -- packages.
        have houter := ih he.enclosing
          (fun o ho => Nat.lt_of_lt_of_le (he.older o ho) (Nat.le_of_lt_succ (hfuel id rfl)))
          (fun o ho => Nat.lt_of_lt_of_le (he.older' o ho) (Nat.le_of_lt_succ (hfuel' id' rfl)))
        have hsource := he.source
        generalize e.source = x, e'.source = x' at hsource ⊢
        cases hsource with
        | package => exact .pure fun _ => ⟨.nil, .none⟩
        | tree hshape =>
          refine houter.bind fun y y' u u' _ hl' hy => .pure fun _ => ⟨.cons ?_ hy.levels, ?_⟩
          · exact ⟨hshape.decl, (hid.later hl).later hl', hshape.primary, hshape.primary'⟩
          · exact .some hshape.unit
        | field => exact houter
        | constant => exact houter
        | described => exact houter

/-- **The scopes inside corresponding elements.** -/
theorem scopeOf_asks (hid : T.Same s s' id id') :
    T.Asks s s' (scopeOf id) (scopeOf id') fun sc sc' t t' => T.Scopes t t' sc sc' := by
  refine .alike fun hs => .read (.lift (scopeChain_runs (.some hid) ?_ ?_) ?_)
  · rintro _ ⟨⟩
    obtain ⟨_, _, hd, -⟩ := hid
    exact hs.left.sound.lt_size hd
  · rintro _ ⟨⟩
    obtain ⟨_, _, -, hd, -⟩ := hid
    exact hs.right.sound.lt_size hd
  · rintro ⟨chain, unit⟩ ⟨chain', unit'⟩ t t' _ _ ⟨hlevels, hunit⟩
    cases hunit with
    | none => exact .throw .noScope
    | some hu => exact .pure fun _ => ⟨hu, hlevels, rfl⟩

theorem headerScopeOf_asks (hid : T.Same s s' id id') :
    T.Asks s s' (headerScopeOf id) (headerScopeOf id') fun sc sc' t t' => T.Scopes t t' sc sc' :=
  (scopeOf_asks hid).bind fun _ _ _ _ _ _ hsc => .pure fun _ => { hsc with header := rfl }

/-! ### Member types -/

/-- The element of a declaration that both sessions find, or neither does. -/
theorem childElement_asks {c c' : Option DeclId} {q q' : Query (Option ElementId)}
    (hc : Option.Rel (T.Declares s s') c c')
    (hnone : T.Asks s s' q q' (optional T.same)) :
    T.Asks s s' (match c with | some d => some <$> elementOfDecl d | none => q)
      (match c' with | some d => some <$> elementOfDecl d | none => q') (optional T.same) := by
  cases hc with
  | none => exact hnone
  | some hd => exact (elementOfDecl_asks hd).map fun _ _ _ _ _ _ h => .some h

theorem declaredMemberType_asks {simple : Name} (hid : T.Same s s' id id')
    (hn : T.base.Proper simple) :
    T.Asks s s' (declaredMemberType id simple) (declaredMemberType id' simple)
      (optional T.same) := by
  refine .lift (elementAt_runs hid) fun e e' t t' _ _ he => ?_
  have hsource := he.source
  have hname := he.qualifiedName
  generalize e.source = x, e'.source = x' at hsource ⊢
  generalize e.qualifiedName = q, e'.qualifiedName = q' at hname ⊢
  have hnone : T.Asks t t' (pure none) (pure none) (optional T.same) := .pure fun _ => .none
  cases hsource with
  | tree hshape =>
    exact .lift (memberTypeNamed_runs hshape.decl hshape.primary hshape.primary' simple)
      fun _ _ _ _ _ _ hc => childElement_asks hc (.pure fun _ => .none)
  | described d =>
    cases hname with
    | named houter =>
      exact .lift (qualifyName_runs (.some houter) hn) fun _ _ _ _ _ _ hq => tryType_asks hq
    | anonymous => exact hnone
    | notApplicable => exact hnone
  | field => cases hname <;> exact hnone
  | constant => cases hname <;> exact hnone
  | package => cases hname <;> exact hnone

/-- Lists of supertypes that correspond, from the given sessions on. -/
def Supplies (T : Twins w w') (s s' : Session)
    (f f' : ElementId → SessionM (List ElementId)) : Prop :=
  ∀ t t' id id', T.Alike t t' → Later s s' t t' → T.Same t t' id id' →
    T.Runs t t' (f id) (f' id') T.allSame

section Lists

variable {ids ids' visited visited' : List ElementId}

theorem Alike.contains_eq (h : T.Alike s s') (hid : T.Same s s' id id')
    (hids : List.Forall₂ (T.Same s s') ids ids') : ids.contains id = ids'.contains id' := by
  induction hids with
  | nil => rfl
  | cons hx _ ih =>
    have heq := h.eq_iff hid hx
    rw [List.contains_cons, List.contains_cons, ih]
    congr 1
    rw [Bool.eq_iff_iff, beq_iff_eq, beq_iff_eq]
    exact heq

theorem Alike.dropWhile (h : T.Alike s s') (hv : List.Forall₂ (T.Same s s') visited visited')
    (hids : List.Forall₂ (T.Same s s') ids ids') :
    List.Forall₂ (T.Same s s') (ids.dropWhile visited.contains)
      (ids'.dropWhile visited'.contains) := by
  induction hids with
  | nil => exact .nil
  | cons hx hrest ih =>
    rw [List.dropWhile_cons, List.dropWhile_cons, h.contains_eq hx hv]
    split
    · exact ih
    · exact .cons hx hrest

theorem allSame.later (h : T.allSame ids ids' s s') (hl : Later s s' t t') :
    T.allSame ids ids' t t' :=
  h.imp fun _ _ hs => hs.later hl

end Lists

/-- Two sessions count as many types. -/
theorem Alike.typeBound_eq (h : T.Alike s s') : s.typeBound = s'.typeBound := by
  rw [Session.typeBound, Session.typeBound, h.left.of.index, h.right.of.index, T.size,
    h.left.of.provider, h.right.of.provider, T.provider]

section Members

variable {f f' : ElementId → SessionM (List ElementId)}

theorem Supplies.later (h : T.Supplies s s' f f') (hl : Later s s' t t') : T.Supplies t t' f f' :=
  fun u u' id id' hu hl' hid => h u u' id id' hu (hl.trans hl') hid

theorem searchMember_asks {simple : Name} (hsup : T.Supplies s s' f f')
    (hn : T.base.Proper simple) {fuel : Nat} {visited visited' queue queue' : List ElementId}
    (hv : List.Forall₂ (T.Same s s') visited visited')
    (hq : List.Forall₂ (T.Same s s') queue queue') :
    T.Asks s s' (searchMember f simple fuel visited queue)
      (searchMember f' simple fuel visited' queue') (optional T.same) := by
  induction fuel generalizing s s' visited visited' queue queue' with
  | zero => exact .lift noteCutOff_runs fun _ _ _ _ _ _ _ => .pure fun _ => .none
  | succ fuel ih =>
    refine .alike fun hs => ?_
    unfold searchMember
    have hdrop := hs.dropWhile hv hq
    generalize queue.dropWhile visited.contains = front,
      queue'.dropWhile visited'.contains = front' at hdrop ⊢
    cases hdrop with
    | nil => exact .pure fun _ => .none
    | @cons current current' rest rest' hc hrest =>
      -- The supertypes of the type at the front go to the end of the queue, in both.
      have hnext : ∀ t t', T.Alike t t' → Later s s' t t' → T.Asks t t'
          (do searchMember f simple fuel (current :: visited) (rest ++ (← f current)))
          (do searchMember f' simple fuel (current' :: visited') (rest' ++ (← f' current')))
          (optional T.same) := by
        intro t t' ht hl
        refine .lift (hsup t t' _ _ ht hl (hc.later hl)) fun ids ids' u u' _ hl' hids => ?_
        have hlu := hl.trans hl'
        exact ih (hsup.later hlu) (.cons (hc.later hlu) (allSame.later hv hlu))
          (List.rel_append (allSame.later hrest hlu) hids)
      refine (declaredMemberType_asks hc hn).bind fun found found' t t' ht hl hfound => ?_
      cases hfound with
      | none => exact hnext t t' ht hl
      | some hid =>
        refine .lift (elementAt_runs hid) fun e e' u u' hu hl' he => ?_
        rw [Element.hasModifier, Element.hasModifier, he.modifiers]
        split
        · exact hnext u u' hu (hl.trans hl')
        · exact .pure fun _ => .some (hid.later hl')

theorem inheritedMemberType_asks {simple : Name} (hsup : T.Supplies s s' f f')
    (hn : T.base.Proper simple) (hid : T.Same s s' id id') :
    T.Asks s s' (inheritedMemberType f id simple) (inheritedMemberType f' id' simple)
      (optional T.same) := by
  refine .alike fun hs => .lift (hsup s s' id id' hs (.refl s s') hid)
    fun ids ids' t t' ht hl hids => .read ?_
  rw [ht.typeBound_eq]
  exact searchMember_asks (hsup.later hl) hn (.cons (hid.later hl) .nil) hids

theorem memberOf_asks {simple : Name} (hsup : T.Supplies s s' f f') (hn : T.base.Proper simple)
    (hid : T.Same s s' id id') :
    T.Asks s s' (memberOf f id simple) (memberOf f' id' simple) T.same := by
  refine (declaredMemberType_asks hid hn).bind fun found found' t t' _ hl hfound => ?_
  cases hfound with
  | some hm => exact .pure fun _ => hm
  | none =>
    refine (inheritedMemberType_asks (hsup.later hl) hn (hid.later hl)).bind
      fun found found' u u' hu hl' hfound => ?_
    cases hfound with
    | some hm => exact .pure fun _ => hm
    | none =>
      refine .lift (elementAt_runs ((hid.later hl).later hl')) fun e e' v v' hv _ he => ?_
      have hname := he.qualifiedName
      generalize e.qualifiedName = q, e'.qualifiedName = q' at hname ⊢
      -- Names of the same text lead to the same error.
      have hunknown : ∀ {n n' x x'}, x.names.Agree x'.names n n' → T.Asks x x'
          (do throw (.unknown (← nameText n)) : Query ElementId)
          (do throw (.unknown (← nameText n')) : Query ElementId) T.same := fun hn =>
        .lift (nameText_runs hn) fun text text' _ _ _ _ htext => by
          rw [show text = text' from htext]
          exact .throw _
      cases hname with
      | named houter =>
        exact .lift (qualifyName_runs (.some houter) hn) fun _ _ _ _ _ _ hq => hunknown hq
      | anonymous => exact hunknown (hv.agree_base hn.1)
      | notApplicable => exact hunknown (hv.agree_base hn.1)

theorem memberTypeAt_asks {simple : Name} {l l' : DeclId × ElementId}
    (hsup : T.Supplies s s' f f') (hn : T.base.Proper simple) (hl : T.Level s s' l l') :
    T.Asks s s' (memberTypeAt f l simple) (memberTypeAt f' l' simple) (optional T.same) :=
  .lift (memberTypeNamed_runs hl.decl hl.primary hl.primary' simple) fun _ _ _ _ _ hlater hc =>
    childElement_asks hc (inheritedMemberType_asks (hsup.later hlater) hn (hl.same.later hlater))

/-! ### Names -/

theorem firstFound_asks {qs qs' : List (Query (Option ElementId))}
    (h : List.Forall₂ (fun q q' => ∀ t t', T.Alike t t' → Later s s' t t' →
      T.Asks t t' q q' (optional T.same)) qs qs') (ht : T.Alike t t') (hl : Later s s' t t') :
    T.Asks t t' (firstFound qs) (firstFound qs') (optional T.same) := by
  induction h generalizing t t' with
  | nil => exact .pure fun _ => .none
  | cons hq _ ih =>
    refine (hq t t' ht hl).bind fun found found' u u' hu hl' hfound => ?_
    cases hfound with
    | some hid => exact .pure fun _ => .some hid
    | none => exact ih hu (hl.trans hl')

/-- The levels that corresponding scopes show. -/
theorem Scopes.levels {sc sc' : Scope} (h : T.Scopes s s' sc sc') :
    List.Forall₂ (T.Level s s') sc.levels sc'.levels := by
  rw [Scope.levels, Scope.levels, h.header]
  split
  · exact List.forall₂_drop 1 h.chain
  · exact h.chain

/-- Look-ups of a simple name in names of one text. -/
theorem tryWithin_asks {outer outer' : Option Name} {simple : Name}
    (ho : Option.Rel (s.names.Agree s'.names) outer outer') (hn : T.base.Proper simple) :
    T.Asks s s' (do tryType (← qualifyName outer simple))
      (do tryType (← qualifyName outer' simple)) (optional T.same) :=
  .lift (qualifyName_runs ho hn) fun _ _ _ _ _ _ hq => tryType_asks hq

/-- **A simple name in corresponding scopes.** -/
theorem resolveSimple_asks {sc sc' : Scope} {simple : Name} (hsup : T.Supplies s s' f f')
    (hsc : T.Scopes s s' sc sc') (hn : T.base.Proper simple) :
    T.Asks s s' (resolveSimple f sc simple) (resolveSimple f' sc' simple) (optional T.same) := by
  refine .alike fun hs => .read ?_
  have himports := T.imports hsc.unit
  have hpackage := T.package hsc.unit
  rw [← hs.left.of.index, ← hs.right.of.index] at himports hpackage
  -- Names within packages or types that are imported are looked up in the same order.
  have hwithin : ∀ {ns ns' : List Name}, List.Forall₂ (w.names.Agree w'.names) ns ns' →
      List.Forall₂ (fun q q' => ∀ t t', T.Alike t t' → Later s s' t t' →
          T.Asks t t' q q' (optional T.same))
        (ns.map fun o => (do tryType (← qualifyName (some o) simple) : Query _))
        (ns'.map fun o => (do tryType (← qualifyName (some o) simple) : Query _)) := by
    intro ns ns' hall
    refine List.forall₂_map_left_iff.2 (List.forall₂_map_right_iff.2 (hall.imp ?_))
    exact fun o o' ho t t' ht _ => tryWithin_asks (.some (ht.agree ho)) hn
  refine firstFound_asks ?_ hs (Later.refl s s')
  refine List.rel_append (List.rel_append (List.rel_append (List.rel_append ?_ ?_) ?_) ?_) ?_
  · refine List.forall₂_map_left_iff.2 (List.forall₂_map_right_iff.2 (hsc.levels.imp ?_))
    exact fun l l' hl t t' _ hlater => memberTypeAt_asks (hsup.later hlater) hn (hl.later hlater)
  · have hsingle := List.rel_filter (p := (·.1 = simple)) (q := (·.1 = simple))
      (fun i i' hi => by dsimp only; rw [hi.1]) himports.single
    refine List.forall₂_map_left_iff.2 (List.forall₂_map_right_iff.2 (hsingle.imp ?_))
    exact fun i i' hi t t' ht _ => tryType_asks (ht.agree hi.2)
  · refine .cons (fun t t' ht _ => tryWithin_asks ?_ hn) .nil
    exact Option.Rel.mono hpackage fun _ _ ho => ht.agree ho
  · exact hwithin himports.onDemand
  · rw [hs.left.of.wellKnown, hs.right.of.wellKnown]
    exact hwithin T.wellKnown.implicitImports

theorem canonicalPath_runs {path : List Name} {outer outer' : Option Name}
    (ho : Option.Rel (s.names.Agree s'.names) outer outer')
    (hp : ∀ n ∈ path, T.base.Proper n) :
    T.Runs s s' (canonicalPath outer path) (canonicalPath outer' path) (optional agreed) := by
  induction path generalizing s s' outer outer' with
  | nil => exact .pure fun _ => ho
  | cons first rest ih =>
    refine (qualifyName_runs ho (hp first List.mem_cons_self)).bind fun n n' t t' _ _ hn => ?_
    exact ih (.some hn) fun m hm => hp m (List.mem_cons_of_mem _ hm)

theorem memberPath_asks {path : List Name} (hsup : T.Supplies s s' f f')
    (hp : ∀ n ∈ path, T.base.Proper n) (hid : T.Same s s' id id') :
    T.Asks s s' (path.foldlM (memberOf f) id) (path.foldlM (memberOf f') id') T.same := by
  induction path generalizing s s' id id' with
  | nil => exact .pure fun _ => hid
  | cons first rest ih =>
    rw [List.foldlM_cons, List.foldlM_cons]
    refine (memberOf_asks hsup (hp first List.mem_cons_self) hid).bind fun _ _ t t' _ hl hm => ?_
    exact ih (hsup.later hl) (fun m hm => hp m (List.mem_cons_of_mem _ hm)) hm

/-- **A path in corresponding scopes.** -/
theorem resolvePath_asks {sc sc' : Scope} {path : List Name} (hsup : T.Supplies s s' f f')
    (hsc : T.Scopes s s' sc sc') (hp : ∀ n ∈ path, T.base.Proper n) :
    T.Asks s s' (resolvePath f sc path) (resolvePath f' sc' path) T.same := by
  cases path with
  | nil => exact .throw _
  | cons first rest =>
    have hfirst := hp first List.mem_cons_self
    have hrest : ∀ n ∈ rest, T.base.Proper n := fun n hn => hp n (List.mem_cons_of_mem _ hn)
    refine (resolveSimple_asks hsup hsc hfirst).bind fun found found' t t' ht hl hfound => ?_
    cases hfound with
    | some hid => exact memberPath_asks (hsup.later hl) hrest hid
    | none =>
      dsimp only
      split
      · refine .lift (nameText_runs (ht.agree_base hfirst.1)) fun text text' _ _ _ _ htext => ?_
        rw [show text = text' from htext]
        exact .throw _
      · refine .lift (canonicalPath_runs .none hp) fun name name' u u' _ _ hname => ?_
        cases hname with
        | none => exact .throw _
        | some hn => exact findType_asks hn

/-- **References that write the same.** -/
theorem resolveReference_asks {r r' : TypeReference} (hsup : T.Supplies s s' f f')
    (hr : T.References s s' r r') :
    T.Asks s s' (resolveReference f r) (resolveReference f' r') T.same := by
  unfold resolveReference
  rw [← hr.path, ← hr.span]
  exact (resolvePath_asks hsup hr.scope hr.proper).handle fun e _ _ _ _ => .throw (e.located r.span)

/-! ### Types -/

/-- **The element that a type names**, resolved in both sessions or in neither. -/
theorem resolveTarget_asks {target target' : TypeTarget} (hsup : T.Supplies s s' f f')
    (htarget : TypeTarget.Alike (T.resemblance s s') target target') :
    T.Asks s s' (resolveTarget f target) (resolveTarget f' target') T.same := by
  cases htarget with
  | known hid => exact .pure fun _ => hid
  | @written c _ r r' href =>
    obtain ⟨rfl, href⟩ := href
    refine .alike fun hs => .read ?_
    have hcell := hs.cells c
    generalize s.cells[c]? = x, s'.cells[c]? = x' at hcell ⊢
    -- A cell without an outcome: the reference is resolved in both, and the outcomes are kept.
    have hfirst : T.Asks s s'
        (do
          let o ← Query.attempt (resolveReference f r)
          keepOutcome c o
          Query.ofExcept o)
        (do
          let o ← Query.attempt (resolveReference f' r')
          keepOutcome c o
          Query.ofExcept o) T.same := by
      refine (resolveReference_asks hsup href).attempt fun o o' t t' _ _ ho => ?_
      refine .lift (keepOutcome_runs ho) fun _ _ u u' _ hl _ => .ofExcept fun _ => ?_
      exact ho.mono fun _ _ hid => Same.later hid hl
    cases x <;> cases x' <;> cases hcell
    · exact hfirst
    · rename_i y y' ho
      rw [Option.bind_some, Option.bind_some]
      generalize y.outcome = o, y'.outcome = o' at ho ⊢
      cases ho with
      | none => exact hfirst
      | some ho => exact .ofExcept fun _ => ho

theorem resolveType_asks {type type' : ModelType} (hsup : T.Supplies s s' f f')
    (htype : ModelType.Alike (T.resemblance s s') type type') :
    T.Asks s s' (resolveType f type) (resolveType f' type') (optional T.same) := by
  cases htype with
  | declared made named _ _ =>
    obtain ⟨rfl, rfl⟩ := made
    refine .alike fun hs => .read ?_
    rw [if_pos (congrArg SessionBase.token hs.left.of.base).symm,
      if_pos (congrArg SessionBase.token hs.right.of.base).symm]
    exact (resolveTarget_asks hsup named).map fun _ _ _ _ _ _ hid => .some hid
  | _ => exact .pure fun _ => .none

/-! ### Type parameters -/

theorem parameterLevel_runs {name : Name} {levels levels' : List (DeclId × ElementId)}
    (hl : List.Forall₂ (T.Level s s') levels levels') :
    T.Runs s s' (parameterLevel name levels) (parameterLevel name levels') equal := by
  refine .alike fun hs => ?_
  induction hl with
  | nil => exact .pure fun _ => rfl
  | @cons l l' rest rest' hlevel _ ih =>
    obtain ⟨i, i', hi, hi', hinfo⟩ := T.info hlevel.decl
    rw [← hs.left.of.index] at hi
    rw [← hs.right.of.index] at hi'
    unfold parameterLevel
    refine .reads (reads_declAt hi) (reads_declAt hi') ?_
    rw [hinfo.typeParams]
    split
    · exact .pure fun _ => rfl
    · exact ih.bind fun n n' _ _ _ _ hn => .pure fun _ => congrArg (Option.map (· + 1)) hn

theorem hidden_runs {name : Name} {levels levels' : List (DeclId × ElementId)}
    (hsup : T.Supplies s s' f f') (hn : T.base.Proper name)
    (hl : List.Forall₂ (T.Level s s') levels levels') :
    T.Runs s s' (hidden f name levels) (hidden f' name levels') equal := by
  induction levels generalizing s s' levels' with
  | nil =>
    cases hl
    exact .pure fun _ => rfl
  | cons level rest ih =>
    cases hl with
    | cons hlevel hrest =>
      unfold hidden
      refine Runs.bind (memberTypeAt_asks hsup hn hlevel) fun r r' t t' _ hlater hr => ?_
      have hnext := ih (hsup.later hlater) (hrest.imp fun _ _ hl => hl.later hlater)
      cases hr with
      | error e => exact hnext
      | ok hfound =>
        cases hfound with
        | none => exact hnext
        | some _ => exact .pure fun _ => rfl

/-- Entries at one place of lists that correspond. -/
theorem rel_getElem? {α β : Type} {rel : α → β → Prop} {as : List α} {bs : List β}
    (h : List.Forall₂ rel as bs) (n : Nat) : Option.Rel rel as[n]? bs[n]? := by
  induction h generalizing n with
  | nil => exact .none
  | cons hab _ ih =>
    cases n with
    | zero => exact .some hab
    | succ n => exact ih n

/-- Type parameters that correspond. -/
structure Parameters (T : Twins w w') (x x' : Name × ElementId) (t t' : Session) : Prop where
  name : x.1 = x'.1
  issued : T.base.Issued x.1
  owner : T.Same t t' x.2 x'.2

theorem typeVariable?_runs {name : Name} {sc sc' : Scope} (hsup : T.Supplies s s' f f')
    (hn : T.base.Proper name) (hsc : T.Scopes s s' sc sc') :
    T.Runs s s' (typeVariable? f name sc) (typeVariable? f' name sc')
      (optional T.Parameters) := by
  refine .alike fun hs => (parameterLevel_runs hsc.chain).bind fun level level' t t' ht hl heq => ?_
  rw [show level = level' from heq]
  cases level' with
  | none => exact .pure fun _ => .none
  | some level =>
    -- The levels inside the one of the parameter correspond, so a member type hides it in both or
    -- in neither.
    have hupto : List.Forall₂ (T.Level t t') (sc.levelsUpTo level) (sc'.levelsUpTo level) := by
      have htake := List.forall₂_take (level + 1) (hsc.later hl).chain
      rw [Scope.levelsUpTo, Scope.levelsUpTo, hsc.header]
      split
      · exact List.forall₂_drop 1 htake
      · exact htake
    refine (hidden_runs (hsup.later hl) hn hupto).bind fun b b' u u' _ hl' hb => ?_
    rw [show b = b' from hb]
    split
    · exact .pure fun _ => .none
    · refine .pure fun _ => ?_
      have hlevels := (hsc.later (hl.trans hl')).chain
      rw [optional]
      have hlevel := rel_getElem? hlevels level
      generalize sc.chain[level]? = l, sc'.chain[level]? = l' at hlevel ⊢
      cases hlevel with
      | none => exact .none
      | some hlevel => exact .some ⟨rfl, hn.1, hlevel.same⟩

/-! ### Written types -/

/-- Segments of class types that correspond. -/
structure Segments (T : Twins w w') (t t' : Session) (x x' : Name × List ModelType) : Prop where
  name : x.1 = x'.1
  proper : T.base.Proper x.1
  args : ModelType.AllAlike (T.resemblance t t') x.2 x'.2

theorem Segments.later {x x' : Name × List ModelType} (h : T.Segments s s' x x')
    (hl : Later s s' t t') : T.Segments t t' x x' := { h with args := h.args.mono hl.resemblance }

theorem enclosedTypes_runs {sc sc' : Scope} {span : Span} {path : List Name}
    {enclosing enclosing' : ModelType} {segments segments' : List (Name × List ModelType)}
    (hsc : T.Scopes s s' sc sc') (hp : ∀ n ∈ path, T.base.Proper n)
    (hseg : List.Forall₂ (T.Segments s s') segments segments')
    (henc : T.typed enclosing enclosing' s s') :
    T.Runs s s' (enclosedTypes sc span path enclosing segments)
      (enclosedTypes sc' span path enclosing' segments') T.typed := by
  induction segments generalizing s s' path enclosing enclosing' segments' with
  | nil =>
    cases hseg
    exact .pure fun _ => henc
  | cons x rest ih =>
    cases hseg with
    | @cons _ x' _ rest' hx hrest =>
      obtain ⟨name, args⟩ := x
      obtain ⟨name', args'⟩ := x'
      obtain ⟨hname, hproper, hargs⟩ := hx
      dsimp only at hname hproper hargs
      subst hname
      have hp' : ∀ n ∈ path ++ [name], T.base.Proper n := by
        intro n hn
        rcases List.mem_append.1 hn with hn | hn
        · exact hp n hn
        · rw [List.mem_singleton.1 hn]
          exact hproper
      have hempty : rest.isEmpty = rest'.isEmpty := by cases hrest <;> rfl
      have hempty' : args.isEmpty = args'.isEmpty := by cases hargs <;> rfl
      unfold enclosedTypes
      dsimp only
      rw [hempty, hempty']
      split
      · -- Both make a type for the segments so far, with a new cell each.
        refine (newCell_runs _ _).bind fun c c' t t' ht hl hc => .read ?_
        have hwritten : T.References t t' ⟨sc, path ++ [name], span⟩ ⟨sc', path ++ [name], span⟩ :=
          ⟨hsc.later hl, rfl, hp', rfl⟩
        refine ih (hsc.later hl) hp' (hrest.imp fun _ _ hx => hx.later hl) ?_
        exact .declared ⟨congrArg SessionBase.token ht.left.of.base,
          congrArg SessionBase.token ht.right.of.base⟩ (.written ⟨hc, hwritten⟩)
          (hargs.mono hl.resemblance) (henc.mono hl.resemblance)
      · exact ih hsc hp' hrest henc

mutual

/-- **A type that is written in corresponding scopes.** -/
theorem typeOf_runs {sc sc' : Scope} {type : TypeRef} {s s' : Session}
    (hsup : T.Supplies s s' f f') (hsc : T.Scopes s s' sc sc') (ht : type.Sound T.base) :
    T.Runs s s' (typeOf f sc type) (typeOf f' sc' type) T.typed := by
  match type with
  | .primitive p _ =>
    rw [typeOf, typeOf]
    exact .pure fun _ => .primitive p
  | .void _ =>
    rw [typeOf, typeOf]
    exact .pure fun _ => .void
  | .error _ =>
    rw [typeOf, typeOf]
    exact .pure fun _ => .error
  | .wildcard _ =>
    rw [typeOf, typeOf]
    exact .pure fun _ => .wildcard .none .none
  | .array component _ =>
    have hc : component.Sound T.base := by cases ht; assumption
    rw [typeOf, typeOf]
    exact (typeOf_runs hsup hsc hc).bind fun _ _ _ _ _ _ h => .pure fun _ => .array h
  | .wildcardExtends bound _ =>
    have hb : bound.Sound T.base := by cases ht; assumption
    rw [typeOf, typeOf]
    exact (typeOf_runs hsup hsc hb).bind fun _ _ _ _ _ _ h => .pure fun _ => .wildcard (.some h) .none
  | .wildcardSuper bound _ =>
    have hb : bound.Sound T.base := by cases ht; assumption
    rw [typeOf, typeOf]
    exact (typeOf_runs hsup hsc hb).bind fun _ _ _ _ _ _ h => .pure fun _ => .wildcard .none (.some h)
  | .classType segments span =>
    have hseg : (∀ seg ∈ segments, T.base.Proper seg.name) ∧
        ∀ seg ∈ segments, ∀ a ∈ seg.args, a.Sound T.base := by
      cases ht with
      | classType _ _ _ hn ha => exact ⟨hn, ha⟩
    -- what follows is the same whether or not the path is a simple name
    have hrest : ∀ a a' t t', T.Alike t t' → Later s s' t t' → optional T.Parameters a a' t t' →
        T.Runs t t'
          (match a with
            | some (name, owner) => return .typeVariable name owner
            | none => do enclosedTypes sc span [] .absent (← segmentsOf f sc segments))
          (match a' with
            | some (name, owner) => return .typeVariable name owner
            | none => do enclosedTypes sc' span [] .absent (← segmentsOf f' sc' segments))
          T.typed := by
      intro a a' t t' halike hl ha
      cases ha with
      | @some x x' hx =>
        obtain ⟨name, owner⟩ := x
        obtain ⟨name', owner'⟩ := x'
        obtain ⟨hname, hissued, howner⟩ := hx
        dsimp only at hname hissued howner
        subst hname
        exact .pure fun _ => .typeVariable (halike.agree_base hissued) howner
      | none =>
        refine (segmentsOf_runs (hsup.later hl) (hsc.later hl) hseg.1 hseg.2).bind
          fun a a' u u' _ hl' ha => ?_
        exact enclosedTypes_runs (hsc.later (hl.trans hl')) (List.forall_mem_nil _) ha .absent
    unfold typeOf
    refine .alike fun hs => ?_
    match segments, hseg, hrest with
    | [only], hseg, hrest =>
      exact (typeVariable?_runs hsup (hseg.1 _ List.mem_cons_self) hsc).bind hrest
    | [], _, hrest => exact hrest none none s s' hs (.refl s s') .none
    | _ :: _ :: _, _, hrest => exact hrest none none s s' hs (.refl s s') .none

theorem segmentsOf_runs {sc sc' : Scope} {segments : List ClassSegment} {s s' : Session}
    (hsup : T.Supplies s s' f f') (hsc : T.Scopes s s' sc sc')
    (hp : ∀ seg ∈ segments, T.base.Proper seg.name)
    (ht : ∀ seg ∈ segments, ∀ a ∈ seg.args, a.Sound T.base) :
    T.Runs s s' (segmentsOf f sc segments) (segmentsOf f' sc' segments)
      fun x x' t t' => List.Forall₂ (T.Segments t t') x x' := by
  match segments with
  | [] =>
    rw [segmentsOf, segmentsOf]
    exact .pure fun _ => .nil
  | .mk name args :: rest =>
    have hname : T.base.Proper name := hp _ List.mem_cons_self
    have hargs : ∀ a ∈ args, a.Sound T.base := ht _ List.mem_cons_self
    rw [segmentsOf, segmentsOf]
    refine (segmentsOf_runs hsup hsc (fun seg h => hp seg (List.mem_cons_of_mem _ h))
      fun seg h => ht seg (List.mem_cons_of_mem _ h)).bind fun x x' t t' _ hl hx => ?_
    refine (typesOf_runs (hsup.later hl) (hsc.later hl) hargs).bind
      fun as as' u u' _ hl' has => .pure fun _ => ?_
    exact .cons ⟨rfl, hname, has⟩ (hx.imp fun _ _ h => h.later hl')

theorem typesOf_runs {sc sc' : Scope} {types : List TypeRef} {s s' : Session}
    (hsup : T.Supplies s s' f f') (hsc : T.Scopes s s' sc sc')
    (ht : ∀ t ∈ types, t.Sound T.base) :
    T.Runs s s' (typesOf f sc types) (typesOf f' sc' types)
      fun x x' t t' => ModelType.AllAlike (T.resemblance t t') x x' := by
  match types with
  | [] =>
    rw [typesOf, typesOf]
    exact .pure fun _ => .nil
  | type :: rest =>
    rw [typesOf, typesOf]
    refine (typeOf_runs hsup hsc (ht _ List.mem_cons_self)).bind fun a a' t t' _ hl ha => ?_
    refine (typesOf_runs (hsup.later hl) (hsc.later hl)
      fun t h => ht t (List.mem_cons_of_mem _ h)).bind fun as as' u u' _ hl' has => .pure fun _ => ?_
    exact .cons (ha.mono hl'.resemblance) has

end

/-! ### Lists of supertypes -/

theorem collectFound_runs {α β : Type} {q : α → Query (Option ElementId)}
    {q' : β → Query (Option ElementId)} {as : List α} {bs : List β}
    (h : List.Forall₂ (fun a b => ∀ t t', T.Alike t t' → Later s s' t t' →
      T.Asks t t' (q a) (q' b) (optional T.same)) as bs) (ht : T.Alike t t')
    (hl : Later s s' t t') :
    T.Runs t t' (collectFound q as) (collectFound q' bs) T.allSame := by
  induction h generalizing t t' with
  | nil => exact .pure fun _ => .nil
  | cons hq _ ih =>
    unfold collectFound
    refine Runs.bind (hq t t' ht hl) fun r r' u u' hu hl' hr => ?_
    refine (ih hu (hl.trans hl')).bind fun ids ids' v v' _ hl'' hids => .pure fun _ => ?_
    refine List.rel_append ?_ hids
    cases hr with
    | error e => exact .nil
    | ok hfound =>
      cases hfound with
      | none => exact .nil
      | some hid => exact .cons (Same.later hid hl'') .nil

theorem collectNames_runs {ns ns' : List Name} (h : List.Forall₂ (s.names.Agree s'.names) ns ns') :
    T.Runs s s' (collectFound (fun n => some <$> findType n) ns)
      (collectFound (fun n => some <$> findType n) ns') T.allSame := by
  refine .alike fun hs => collectFound_runs (h.imp ?_) hs (Later.refl s s')
  intro n n' hn t t' _ hl
  exact (findType_asks (hn.le hl.left.names hl.right.names)).map fun _ _ _ _ _ _ hid => .some hid

/-- What headers name in corresponding scopes. -/
theorem writtenSupertypes_runs {sc sc' : Scope} {rs : List TypeRef} (hsup : T.Supplies s s' f f')
    (hsc : T.Scopes s s' sc sc') (hr : ∀ r ∈ rs, r.Sound T.base) :
    T.Runs s s' (collectFound (fun r => do resolveType f (← typeOf f sc r)) rs)
      (collectFound (fun r => do resolveType f' (← typeOf f' sc' r)) rs) T.allSame := by
  refine .alike fun hs => collectFound_runs
    (List.forall₂_same.2 fun r hmem t t' _ hl => ?_) hs (Later.refl s s')
  have hsup' := hsup.later hl
  refine .lift (typeOf_runs hsup' (hsc.later hl) (hr r hmem)) fun _ _ u u' _ hl' htype => ?_
  exact resolveType_asks (hsup'.later hl') htype

end Members

end Twins

theorem QualifiedName.Agree.eq_named_iff {t t' : NameTable} {q q' : QualifiedName} {n n' : Name}
    (h : QualifiedName.Agree t t' q q') (hn : t.Agree t' n n') :
    q = .named n ↔ q' = .named n' := by
  cases h with
  | named h =>
    rw [QualifiedName.named.injEq, QualifiedName.named.injEq]
    exact h.eq_iff hn
  | anonymous => exact ⟨nofun, nofun⟩
  | notApplicable => exact ⟨nofun, nofun⟩

namespace Twins

/-- What corresponding declarations extend without writing it. -/
theorem implicitSupertype?_twins {e e' : Element} {shape shape' : TreeShape}
    (hs : T.Alike s s') (he : T.Elements s s' id id' e e') (hshape : T.Shapes s s' shape shape') :
    Option.Rel (s.names.Agree s'.names) (implicitSupertype? s.wellKnown e shape)
      (implicitSupertype? s'.wellKnown e' shape') := by
  have hw := T.wellKnown
  rw [← hs.left.of.wellKnown, ← hs.right.of.wellKnown] at hw
  have hroot := he.qualifiedName.eq_named_iff (hs.agree hw.rootObject)
  rw [implicitSupertype?, implicitSupertype?, he.kind, hshape.extended]
  cases e'.kind with
  | enumType => exact .some (hs.agree hw.enumBase)
  | recordType => exact .some (hs.agree hw.recordBase)
  | annotationType => exact .some (hs.agree hw.annotationBase)
  | classType =>
    simp only [ne_eq, hroot]
    split
    · exact .some (hs.agree hw.rootObject)
    · exact .none
  | package | interfaceType | field | enumConstant => exact .none

theorem rel_toList {α β : Type} {rel : α → β → Prop} {a : Option α} {b : Option β}
    (h : Option.Rel rel a b) : List.Forall₂ rel a.toList b.toList := by
  cases h with
  | none => exact .nil
  | some h => exact .cons h .nil

/-- **The lists of corresponding elements correspond**, if those of others do. -/
theorem computeSupertypes_runs {f f' : ElementId → SessionM (List ElementId)}
    (hsup : T.Supplies s s' f f') (hid : T.Same s s' id id') :
    T.Runs s s' (computeSupertypes f id) (computeSupertypes f' id') T.allSame := by
  refine (elementAt_runs hid).bind fun e e' t t' ht hl he => ?_
  have hsource := he.source
  generalize e.source = x, e'.source = x' at hsource ⊢
  cases hsource with
  | tree hshape =>
    dsimp only
    rw [hshape.isConstantBody]
    split
    · -- the type around the body of a constant
      have houter := he.enclosing
      generalize e.enclosing = enc, e'.enclosing = enc' at houter ⊢
      cases houter with
      | none => exact .pure fun _ => .nil
      | some hc =>
        refine (elementAt_runs hc).bind fun c c' u u' _ _ hc => .pure fun _ => ?_
        exact rel_toList hc.enclosing
    · -- The supertype without a clause comes first, then those that clauses write.
      refine .read ((collectNames_runs (rel_toList (implicitSupertype?_twins ht he hshape))).bind
        fun ids ids' u u' hu hl' hids => ?_)
      have hlu := hl.trans hl'
      refine Runs.bind (headerScopeOf_asks (hid.later hlu)) fun r r' v v' hv hl'' hr => ?_
      have hids' := allSame.later hids hl''
      cases hr with
      | error e => exact .pure fun _ => hids'
      | @ok sc sc' hsc =>
        dsimp only
        rw [hshape.extended, hshape.implemented]
        have hsound := hshape.supertypes
        rw [hshape.extended, hshape.implemented] at hsound
        have hwritten := writtenSupertypes_runs (hsup.later (hlu.trans hl'')) hsc hsound
        refine hwritten.bind fun more more' x x' _ hlx hmore => .pure fun _ => ?_
        exact List.rel_append (allSame.later hids' hlx) hmore
  | described d =>
    -- The names that a provider gives are texts, the same in both.
    refine collectFound_runs (List.forall₂_same.2 fun name _ u u' _ _ => ?_) ht
      (Later.refl t t')
    refine .lift (internName_runs name) fun _ _ _ _ _ _ hn => ?_
    exact (findType_asks hn).map fun _ _ _ _ _ _ hid => .some hid
  | field => exact .pure fun _ => .nil
  | constant => exact .pure fun _ => .nil
  | package => exact .pure fun _ => .nil

/-- **Lists of supertypes are made in step.** -/
theorem supertypesWithin_supplies {fuel : Nat} {making making' : List ElementId}
    (hm : List.Forall₂ (T.Same s s') making making') :
    T.Supplies s s' (supertypesWithin fuel making) (supertypesWithin fuel making') := by
  induction fuel generalizing s s' making making' with
  | zero => exact fun t t' id id' _ _ _ ht => ⟨_, _, t, t', rfl, rfl, ht, .refl t t', .stopped .endless⟩
  | succ fuel ih =>
    intro t t' id id' ht hl hid
    unfold supertypesWithin
    refine (requestSupertypes_runs hid).bind fun r r' u u' hu hl' hr => ?_
    cases hr with
    | found hids => exact .pure fun _ => hids
    | reentrant => exact .pure fun _ => .nil
    | construct =>
      have hidu := hid.later hl'
      have hmu := allSame.later hm (hl.trans hl')
      dsimp only
      rw [hu.contains_eq hidu hmu]
      split
      · exact fun _ => ⟨_, _, u, u', rfl, rfl, hu, .refl u u', .stopped (.nested hidu)⟩
      · have hmake := computeSupertypes_runs (ih (.cons hidu hmu)) hidu
        refine (hmake.guarded fun v v' _ hlv => abandonSupertypes_runs (hidu.later hlv)).bind
          fun ids ids' v v' _ hlv hids => ?_
        exact (finishSupertypes_runs (hidu.later hlv) hids).bind fun _ _ x x' _ hlx _ =>
          .pure fun _ => allSame.later hids hlx

/-- **The direct supertypes of corresponding elements.** -/
theorem directSupertypes_supplies : T.Supplies s s' directSupertypes directSupertypes := by
  intro t t' id id' ht _ hid
  refine .read ?_
  rw [ht.typeBound_eq]
  exact supertypesWithin_supplies .nil t t' id id' ht (.refl t t') hid

end Twins

end JavaAbi
