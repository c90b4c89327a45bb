import JavaAbi.Proofs.LookupOrder

namespace JavaAbi

/-!
# Errors that rules raise

What can be wrong with a rule is what can be wrong with its parts. Of the rules for simple names, only
look-ups have errors.

* `Rule.Raises` — what is so of the errors of a rule;
* `World.resolveSimple_raises` — the errors of simple names are those of look-ups;
* `World.Visible` — a type is visible under a simple name;
* `World.resolveSimple_nothing` — with an honest provider, nothing is found for a simple name under
  which no type is visible.
-/

variable {w : World} {lists : Symbol → List Symbol → Prop} {α β : Type}
  {allowed allowed' : ModelError → Prop}

/-- Whatever lists it is told, the errors of a rule are allowed. -/
def Rule.Raises (allowed : ModelError → Prop) (rule : Rule α) : Prop :=
  ∀ lists e, rule.run.Finds lists (.error e) → allowed e

namespace Rule

variable {rule : Rule α} {f : α → Rule β}

theorem Raises.pure (a : α) : (Pure.pure a : Rule α).Raises allowed := fun _ _ h => by
  cases h.pure_inv

theorem Raises.throw {e : ModelError} (h : allowed e) :
    (MonadExcept.throw e : Rule α).Raises allowed := fun _ _ hf => by
  cases hf.pure_inv
  exact h

theorem Raises.ofExcept {r : Except ModelError α} (h : ∀ e, r = .error e → allowed e) :
    (Rule.ofExcept r).Raises allowed := fun _ e hf => h e hf.pure_inv.symm

theorem Raises.bind (h : rule.Raises allowed) (hf : ∀ a, (f a).Raises allowed) :
    (rule >>= f).Raises allowed := by
  intro lists e he
  rcases finds_bind_inv he with ⟨e', he', heq⟩ | ⟨a, -, he'⟩
  · cases heq
    exact h lists e he'
  · exact hf a lists e he'

theorem Raises.lift {i : Inquiry α} (hf : ∀ a, (f a).Raises allowed) :
    (liftM i >>= f : Rule β).Raises allowed := by
  intro lists e he
  obtain ⟨a, -, he⟩ := finds_lift_inv he
  exact hf a lists e he

/-- An answer stands; what an error comes to, its handler says. -/
theorem finds_handle {handler : ModelError → Rule α} {y : Except ModelError α}
    (h : (tryCatch rule handler).run.Finds lists y) :
    (∃ a, rule.run.Finds lists (.ok a) ∧ y = .ok a) ∨
      ∃ e, rule.run.Finds lists (.error e) ∧ (handler e).run.Finds lists y := by
  obtain ⟨r, hr, hy⟩ := Inquiry.Finds.bind_inv (i := rule.run) h
  cases r with
  | ok a => exact .inl ⟨a, hr, hy.pure_inv⟩
  | error e => exact .inr ⟨e, hr, hy⟩

/-- Errors on the way out. -/
theorem Raises.handle {handler : ModelError → Rule α} (h : rule.Raises allowed)
    (hf : ∀ e, allowed e → (handler e).Raises allowed') :
    (tryCatch rule handler).Raises allowed' := by
  intro lists e he
  rcases finds_handle he with ⟨a, -, ha⟩ | ⟨e', he', hhandled⟩
  · cases ha
  · exact hf e' (h lists e' he') lists e hhandled

theorem Raises.foldlM {step : β → α → Rule β} (h : ∀ b a, (step b a).Raises allowed)
    (as : List α) (b : β) : (as.foldlM step b).Raises allowed := by
  induction as generalizing b with
  | nil => exact .pure b
  | cons a rest ih =>
    rw [List.foldlM_cons]
    exact (h b a).bind ih

theorem Raises.firstFound {rules : List (Rule (Option Symbol))}
    (h : ∀ rule ∈ rules, rule.Raises allowed) : (Rule.firstFound rules).Raises allowed := by
  induction rules with
  | nil => exact .pure none
  | cons rule rest ih =>
    rw [Rule.firstFound]
    refine (h rule List.mem_cons_self).bind fun found => ?_
    cases found with
    | some symbol => exact .pure _
    | none => exact ih fun other hother => h other (List.mem_cons_of_mem _ hother)

/-- What is found first, one of the rules finds. -/
theorem firstFound_mem {rules : List (Rule (Option Symbol))} {member : Symbol}
    (h : (Rule.firstFound rules).run.Finds lists (.ok (some member))) :
    ∃ rule ∈ rules, rule.run.Finds lists (.ok (some member)) := by
  induction rules with
  | nil => cases h.pure_inv
  | cons rule rest ih =>
    rw [Rule.firstFound] at h
    rcases Rule.finds_bind_inv h with ⟨e, -, he⟩ | ⟨found, hfound, h⟩
    · cases he
    · cases found with
      | some m =>
        cases h.pure_inv
        exact ⟨rule, List.mem_cons_self, hfound⟩
      | none =>
        obtain ⟨other, hmem, hother⟩ := ih h
        exact ⟨other, List.mem_cons_of_mem _ hmem, hother⟩

end Rule

namespace World

/-! ### Simple names -/

section Simple

variable (hl : ∀ name e, w.tryLookup name = .error e → allowed e)

include hl

theorem declaredMember_raises {owner : Symbol} {simple : Name} {e : ModelError}
    (h : w.declaredMember owner simple = .error e) : allowed e := by
  unfold declaredMember at h
  split at h
  · cases h
  · exact hl _ e h
  · cases h

theorem search_raises (simple : Name) (fuel : Nat) (visited queue : List Symbol) :
    (w.search simple fuel visited queue).Raises allowed := by
  induction fuel generalizing visited queue with
  | zero => exact .pure none
  | succ fuel ih =>
    rw [search]
    split
    · exact .pure none
    · refine Rule.Raises.bind (.ofExcept fun _ => declaredMember_raises hl) fun found => ?_
      cases found with
      | none => exact .lift fun _ => ih _ _
      | some member =>
        dsimp only
        split
        · exact .lift fun _ => ih _ _
        · exact .pure _

theorem inherited_raises (owner : Symbol) (simple : Name) :
    (w.inherited owner simple).Raises allowed :=
  .lift fun _ => search_raises hl simple _ _ _

theorem memberAt_raises (level : DeclId) (simple : Name) :
    (w.memberAt level simple).Raises allowed := by
  unfold memberAt
  split
  · exact .pure _
  · exact inherited_raises hl _ simple

/-- **The errors of simple names are those of look-ups.** -/
theorem resolveSimple_raises (sc : ScopeView) (simple : Name) :
    (w.resolveSimple sc simple).Raises allowed := by
  rw [resolveSimple_eq]
  refine .firstFound fun rule hmem => ?_
  rcases List.mem_append.1 hmem with hlevel | hfile
  · obtain ⟨d, -, rfl⟩ := List.mem_map.1 hlevel
    exact memberAt_raises hl d simple
  · obtain ⟨name, -, rfl⟩ := List.mem_map.1 hfile
    exact .ofExcept fun e => hl name e

end Simple

/-! ### Names under which no type is visible -/

/-- A type is visible under a simple name in a scope: a level shows a member type, or one of the names
    that the file tries is known. -/
def Visible (w : World) (lists : Symbol → List Symbol → Prop) (sc : ScopeView) (simple : Name) :
    Prop :=
  (∃ d ∈ sc.levels, ∃ m, w.ShowsMember lists simple d (some m)) ∨
    ∃ name ∈ w.candidates simple sc.unit, ∃ symbol, w.lookup name = .ok symbol

section Visible

variable {simple : Name} {member : Symbol} {sc : ScopeView}

/-- What the rule for a search finds is what the search comes to. -/
theorem searches_of_finds {fuel : Nat} {seen queue : List Symbol}
    (h : (w.search simple fuel seen queue).run.Finds lists (.ok (some member))) :
    w.Searches lists simple seen queue (some member) := by
  induction fuel generalizing seen queue with
  | zero => cases h.pure_inv
  | succ fuel ih =>
    refine Searches.of_dropWhile ?_
    rw [search] at h
    have hnew := List.head?_dropWhile_not seen.contains queue
    generalize queue.dropWhile seen.contains = front at h hnew ⊢
    cases front with
    | nil => cases h.pure_inv
    | cons current rest =>
      have hnew : current ∉ seen := by simpa using hnew
      -- the search goes on behind a type that declares no member for all
      have hnext : (∀ m, w.Declares simple current m → .privateAccess ∈ w.modifiersOf m) →
          (do w.search simple fuel (current :: seen) (rest ++ (← Inquiry.listOf current)) :
            Rule (Option Symbol)).run.Finds lists (.ok (some member)) →
          w.Searches lists simple seen (current :: rest) (some member) := by
        intro hnothing h
        obtain ⟨l, hl, h⟩ := Rule.finds_lift_inv h
        exact .onwards hnew hnothing hl.listOf_inv (ih h)
      rcases Rule.finds_bind_inv h with ⟨e, -, he⟩ | ⟨found, hfound, h⟩
      · cases he
      · have hdeclared : w.declaredMember current simple = .ok found := hfound.pure_inv.symm
        cases found with
        | none =>
          refine hnext (fun m hm => ?_) h
          cases hdeclared.symm.trans hm
        | some m =>
          change (if (w.modifiersOf m).contains .privateAccess then _ else _ :
            Rule (Option Symbol)).run.Finds lists _ at h
          split at h
          · rename_i hprivate
            refine hnext (fun m' hm' => ?_) h
            cases hdeclared.symm.trans hm'
            exact List.contains_iff_mem.1 hprivate
          · rename_i hpublic
            cases h.pure_inv
            exact .found hnew hdeclared fun hmem => hpublic (List.contains_iff_mem.2 hmem)

/-- What is found for a simple name is visible. -/
theorem visible_of_finds (h : (w.resolveSimple sc simple).run.Finds lists (.ok (some member))) :
    w.Visible lists sc simple := by
  rw [resolveSimple_eq] at h
  obtain ⟨rule, hmem, hrule⟩ := Rule.firstFound_mem h
  rcases List.mem_append.1 hmem with hlevel | hfile
  · -- Found at a level of the scope, or under one of the names that are tried for the file.
    obtain ⟨d, hd, rfl⟩ := List.mem_map.1 hlevel
    refine .inl ⟨d, hd, member, ?_⟩
    unfold memberAt at hrule
    cases hm : w.index.memberType? d simple with
    | some c =>
      rw [hm] at hrule
      cases hrule.pure_inv
      exact .declared hm
    | none =>
      rw [hm] at hrule
      obtain ⟨l, hlist, hsearch⟩ := Rule.finds_lift_inv hrule
      exact .inherited hm hlist.listOf_inv (searches_of_finds hsearch)
  · obtain ⟨name, hname, rfl⟩ := List.mem_map.1 hfile
    have hlookup := hrule.pure_inv.symm
    refine .inr ⟨name, hname, member, ?_⟩
    rw [tryLookup] at hlookup
    cases hl : w.lookup name with
    | ok symbol =>
      rw [hl] at hlookup
      cases hlookup
      rfl
    | error e =>
      rw [hl] at hlookup
      dsimp only at hlookup
      split at hlookup <;> cases hlookup

/-- **Nothing is found for a name under which no type is visible**, if the provider is honest. -/
theorem resolveSimple_nothing (honest : w.provider.Honest)
    (hidden : ¬w.Visible lists sc simple) {y : Except ModelError (Option Symbol)}
    (h : (w.resolveSimple sc simple).run.Finds lists y) : y = .ok none := by
  match y with
  | .ok none => rfl
  | .ok (some member) => exact absurd (visible_of_finds h) hidden
  | .error e =>
    have hraises : (w.resolveSimple sc simple).Raises fun _ => False := by
      refine resolveSimple_raises (fun name e he => ?_) sc simple
      rw [tryLookup_eq honest] at he
      cases he
    exact (hraises lists e h).elim

end Visible

end World

end JavaAbi
