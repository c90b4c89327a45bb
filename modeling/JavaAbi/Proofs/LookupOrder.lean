import JavaAbi.Proofs.Honesty

namespace JavaAbi

/-!
# The order in which simple names are looked up

What a simple name denotes in a scope, level by level: a member type that the level shows, or else a
type parameter of the level. Outside of all levels come the imports and the package. The rules go
another way: they look for the innermost type parameter first, see then whether a member type hides
it, and find member types and imports only when the type is resolved. Both agree.

* `World.Searches` — the breadth-first search of inherited member types;
* `World.FirstLevel`, `World.Denotes` — the documented order;
* `World.denotes_of_finds` — the rules follow it.
-/

open Course Stage

/-! ### The documented order -/

/-- What a simple name denotes. -/
inductive Denotation where
  | type (symbol : Symbol)
  | parameter (owner : Symbol)
  deriving DecidableEq, Repr

namespace World

section Order

variable (w : World) (lists : Symbol → List Symbol → Prop) (simple : Name)

/-- The member type that a type itself declares. -/
def Declares (owner member : Symbol) : Prop := w.declaredMember owner simple = .ok (some member)

/-- The first member type that is not private in a queue of types, where each type not seen before is
    followed by its supertypes at the end of the queue. -/
inductive Searches : List Symbol → List Symbol → Option Symbol → Prop
  | exhausted {seen : List Symbol} : Searches seen [] none
  | again {seen rest : List Symbol} {current : Symbol} {r : Option Symbol} (old : current ∈ seen)
      (next : Searches seen rest r) : Searches seen (current :: rest) r
  | found {seen rest : List Symbol} {current member : Symbol} (new : current ∉ seen)
      (declares : w.Declares simple current member)
      (inheritable : .privateAccess ∉ w.modifiersOf member) :
      Searches seen (current :: rest) (some member)
  | onwards {seen rest supertypes : List Symbol} {current : Symbol} {r : Option Symbol}
      (new : current ∉ seen)
      (nothing : ∀ member, w.Declares simple current member → .privateAccess ∈ w.modifiersOf member)
      (listed : lists current supertypes)
      (next : Searches (current :: seen) (rest ++ supertypes) r) : Searches seen (current :: rest) r

/-- The member type that a declaration shows: one that it declares, or else one that it inherits. -/
inductive ShowsMember (d : DeclId) : Option Symbol → Prop
  | declared {m : DeclId} (member : w.index.memberType? d simple = some m) :
      ShowsMember d (some (w.symbolOf m))
  | inherited {supertypes : List Symbol} {r : Option Symbol}
      (nothing : w.index.memberType? d simple = none)
      (listed : lists (w.symbolOf d) supertypes)
      (searched : w.Searches lists simple [w.symbolOf d] supertypes r) : ShowsMember d r

/-- A declaration has a type parameter. -/
def HasParameter (d : DeclId) : Prop :=
  ((w.index.get? d).map DeclInfo.typeParams).any (·.contains simple) = true

/-- What the innermost level that knows a name knows. The members of the first level are not in scope
    in a header. -/
inductive FirstLevel : Bool → List DeclId → Option Denotation → Prop
  | outermost {header : Bool} : FirstLevel header [] none
  | member {d : DeclId} {rest : List DeclId} {m : Symbol}
      (shown : w.ShowsMember lists simple d (some m)) :
      FirstLevel false (d :: rest) (some (.type m))
  | parameter {header : Bool} {d : DeclId} {rest : List DeclId}
      (nothing : header = true ∨ w.ShowsMember lists simple d none)
      (has : w.HasParameter simple d) :
      FirstLevel header (d :: rest) (some (.parameter (w.symbolOf d)))
  | outwards {header : Bool} {d : DeclId} {rest : List DeclId} {r : Option Denotation}
      (nothing : header = true ∨ w.ShowsMember lists simple d none)
      (hasNot : ¬w.HasParameter simple d) (next : FirstLevel false rest r) :
      FirstLevel header (d :: rest) r

/-- The canonical names under which a file looks for a simple name outside of its declarations: its
    single-type imports of the name, its package, its imports on demand and the implicit ones. -/
def candidates (unit : Nat) : List String :=
  let imports := w.index.importsOf unit
  let within (outer : Option String) : String := NameTable.joined outer (w.text simple)
  (imports.single.filter (·.1 = simple)).map (fun i => w.text i.2)
    ++ [within ((w.index.package? unit).map w.text)]
    ++ imports.onDemand.map (fun o => within (some (w.text o)))
    ++ w.wellKnown.implicitImports.map fun o => within (some (w.text o))

/-- The type of a simple name outside of all declarations. -/
def imported (unit : Nat) : Option Symbol :=
  (w.candidates simple unit).findSome? fun name => (w.lookup name).toOption

/-- **What a simple name denotes in a scope**, in the documented order. -/
inductive Denotes (sc : ScopeView) : Option Denotation → Prop
  | level {found : Denotation} (first : w.FirstLevel lists simple sc.header sc.chain (some found)) :
      Denotes sc (some found)
  | file (none : w.FirstLevel lists simple sc.header sc.chain none) :
      Denotes sc ((w.imported simple sc.unit).map .type)

end Order

/-! ### At most one denotation -/

section Unique

variable {w : World} {lists : Symbol → List Symbol → Prop} {simple : Name}

theorem Searches.unique (hl : ∀ symbol l l', lists symbol l → lists symbol l' → l = l')
    {seen queue : List Symbol} {r r' : Option Symbol} (h : w.Searches lists simple seen queue r)
    (h' : w.Searches lists simple seen queue r') : r = r' := by
  induction h with
  | exhausted =>
    cases h'
    rfl
  | again old _ ih =>
    cases h' with
    | again _ next => exact ih next
    | found new => exact absurd old new
    | onwards new => exact absurd old new
  | found new declares inheritable =>
    cases h' with
    | again old => exact absurd old new
    | found _ declares' => exact (Except.ok.inj (declares.symm.trans declares'))
    | onwards _ nothing => exact absurd (nothing _ declares) inheritable
  | onwards new nothing listed _ ih =>
    cases h' with
    | again old => exact absurd old new
    | found _ declares inheritable => exact absurd (nothing _ declares) inheritable
    | onwards _ _ listed' next =>
      obtain rfl := hl _ _ _ listed listed'
      exact ih next

theorem ShowsMember.unique (hl : ∀ symbol l l', lists symbol l → lists symbol l' → l = l')
    {d : DeclId} {r r' : Option Symbol} (h : w.ShowsMember lists simple d r)
    (h' : w.ShowsMember lists simple d r') : r = r' := by
  cases h with
  | declared member =>
    cases h' with
    | declared member' => rw [Option.some.inj (member.symm.trans member')]
    | inherited nothing => cases member.symm.trans nothing
  | inherited nothing listed searched =>
    cases h' with
    | declared member => cases nothing.symm.trans member
    | inherited _ listed' searched' =>
      obtain rfl := hl _ _ _ listed listed'
      exact searched.unique hl searched'

theorem FirstLevel.unique (hl : ∀ symbol l l', lists symbol l → lists symbol l' → l = l')
    {header : Bool} {chain : List DeclId} {r r' : Option Denotation}
    (h : w.FirstLevel lists simple header chain r)
    (h' : w.FirstLevel lists simple header chain r') : r = r' := by
  have hshown : ∀ {d : DeclId} {m : Symbol}, w.ShowsMember lists simple d (some m) →
      ¬(false = true ∨ w.ShowsMember lists simple d none) := fun hm hn => by
    cases hm.unique hl (hn.resolve_left Bool.false_ne_true)
  induction h with
  | outermost =>
    cases h'
    rfl
  | member shown =>
    cases h' with
    | member shown' => rw [Option.some.inj (shown.unique hl shown')]
    | parameter nothing => exact absurd nothing (hshown shown)
    | outwards nothing => exact absurd nothing (hshown shown)
  | parameter nothing has =>
    cases h' with
    | member shown => exact absurd nothing (hshown shown)
    | parameter => rfl
    | outwards _ hasNot => exact absurd has hasNot
  | outwards nothing hasNot _ ih =>
    cases h' with
    | member shown => exact absurd nothing (hshown shown)
    | parameter _ has => exact absurd has hasNot
    | outwards _ _ next => exact ih next

/-- **A simple name denotes one thing at most.** -/
theorem Denotes.unique (hl : ∀ symbol l l', lists symbol l → lists symbol l' → l = l')
    {sc : ScopeView} {r r' : Option Denotation} (h : w.Denotes lists simple sc r)
    (h' : w.Denotes lists simple sc r') : r = r' := by
  cases h with
  | level first =>
    cases h' with
    | level first' => exact first.unique hl first'
    | file none => cases first.unique hl none
  | file none =>
    cases h' with
    | level first => cases none.unique hl first
    | file => rfl

end Unique

/-! ### The rules follow the order -/

end World

section Finds

variable {lists : Symbol → List Symbol → Prop} {α β : Type}

theorem Rule.finds_bind_inv {rule : Rule α} {f : α → Rule β} {y : Except ModelError β}
    (h : (rule >>= f).run.Finds lists y) :
    (∃ e, rule.run.Finds lists (.error e) ∧ y = .error e) ∨
      ∃ a, rule.run.Finds lists (.ok a) ∧ (f a).run.Finds lists y := by
  obtain ⟨r, hr, hy⟩ := Inquiry.Finds.bind_inv (i := rule.run) h
  cases r with
  | error e => exact .inl ⟨e, hr, hy.pure_inv⟩
  | ok a => exact .inr ⟨a, hr, hy⟩

theorem Rule.finds_lift_inv {i : Inquiry α} {f : α → Rule β} {y : Except ModelError β}
    (h : (liftM i >>= f : Rule β).run.Finds lists y) :
    ∃ a, i.Finds lists a ∧ (f a).run.Finds lists y := by
  obtain ⟨r, hr, hy⟩ := Inquiry.Finds.bind_inv (i := (liftM i : Rule α).run) h
  obtain ⟨a, ha, hr⟩ := Inquiry.Finds.bind_inv (i := i) hr
  cases hr.pure_inv
  exact ⟨a, ha, hy⟩

theorem Inquiry.Finds.listOf_inv {symbol : Symbol} {l : List Symbol}
    (h : (Inquiry.listOf symbol).Finds lists l) : lists symbol l := by
  unfold Inquiry.listOf at h
  cases h with
  | ask told rest =>
    cases rest
    exact told

/-- An inquiry finds one answer at most. -/
theorem Inquiry.Finds.unique (hl : ∀ symbol l l', lists symbol l → lists symbol l' → l = l')
    {i : Inquiry α} {a a' : α} (h : i.Finds lists a) (h' : i.Finds lists a') : a = a' := by
  induction h with
  | answer a =>
    cases h'
    rfl
  | ask told _ ih =>
    cases h' with
    | ask told' rest' =>
      obtain rfl := hl _ _ _ told told'
      exact ih rest'

end Finds

namespace World

/-- A look-up has the error of its outcome. -/
theorem lookupOutcome_of_lookup {w : World} {name : String} {e : ModelError}
    (h : w.lookup name = .error e) :
    lookupOutcome (fun n => (w.find? n).isSome) w.provider name = .error e := by
  rw [World.lookup] at h
  cases hout : lookupOutcome (fun n => (w.find? n).isSome) w.provider name with
  | ok u =>
    rw [hout] at h
    cases h
  | error e' =>
    rw [hout] at h
    cases h
    rfl

section Honest

variable {w : World} (hp : w.provider.Honest)

include hp

theorem lookup_error {name : String} {e : ModelError} (h : w.lookup name = .error e) :
    e.isUnknownSymbol = true :=
  hp.isUnknownSymbol (lookupOutcome_excused name (lookupOutcome_of_lookup h))

theorem tryLookup_eq (name : String) : w.tryLookup name = .ok (w.lookup name).toOption := by
  unfold World.tryLookup
  cases h : w.lookup name with
  | ok symbol => rfl
  | error e =>
    dsimp only
    rw [lookup_error hp h]
    rfl

theorem declaredMember_ok (owner : Symbol) (simple : Name) :
    ∃ found, w.declaredMember owner simple = .ok found := by
  unfold World.declaredMember
  split
  · exact ⟨_, rfl⟩
  · exact ⟨_, tryLookup_eq hp _⟩
  · exact ⟨none, rfl⟩

end Honest

section Follows

variable {w : World} {lists : Symbol → List Symbol → Prop} {simple : Name} {types : List Symbol}

theorem Searches.of_dropWhile {seen queue : List Symbol} {r : Option Symbol}
    (h : w.Searches lists simple seen (queue.dropWhile seen.contains) r) :
    w.Searches lists simple seen queue r := by
  induction queue with
  | nil => exact h
  | cons x rest ih =>
    rw [List.dropWhile_cons] at h
    split at h
    · rename_i hx
      exact .again (List.contains_iff_mem.1 hx) (ih h)
    · exact h

/-- A search of all types that there are is not cut off: no type is seen twice. -/
theorem search_finds (hp : w.provider.Honest)
    (hlists : ∀ symbol l, lists symbol l → ∀ x ∈ l, x ∈ types) {fuel : Nat}
    {seen queue : List Symbol} {y : Except ModelError (Option Symbol)}
    (hseen : ∀ x ∈ seen, x ∈ types) (hnodup : seen.Nodup) (hqueue : ∀ x ∈ queue, x ∈ types)
    (hfuel : types.length < fuel + seen.length)
    (h : (w.search simple fuel seen queue).run.Finds lists y) :
    ∃ r, y = .ok r ∧ w.Searches lists simple seen queue r := by
  induction fuel generalizing seen queue with
  | zero =>
    have hle := (hnodup.subperm hseen).length_le
    omega
  | succ fuel ih =>
    suffices hsearch : ∃ r, y = .ok r ∧
        w.Searches lists simple seen (queue.dropWhile seen.contains) r by
      obtain ⟨r, hr, hsearch⟩ := hsearch
      exact ⟨r, hr, hsearch.of_dropWhile⟩
    rw [World.search] at h
    have hfront : ∀ x ∈ queue.dropWhile seen.contains, x ∈ types := fun x hx =>
      hqueue x (List.dropWhile_subset _ hx)
    have hnew := List.head?_dropWhile_not seen.contains queue
    generalize queue.dropWhile seen.contains = front at h hfront hnew
    cases front with
    | nil => exact ⟨none, h.pure_inv, .exhausted⟩
    | cons current rest =>
      have hnew : current ∉ seen := by simpa using hnew
      obtain ⟨found, hfound⟩ := declaredMember_ok hp current simple
      dsimp only at h
      rw [hfound] at h
      -- the search goes on with the supertypes of a type that declares no member for all
      have hnext : (∀ m, w.Declares simple current m → .privateAccess ∈ w.modifiersOf m) →
          (do w.search simple fuel (current :: seen) (rest ++ (← Inquiry.listOf current)) :
            Rule (Option Symbol)).run.Finds lists y →
          ∃ r, y = .ok r ∧ w.Searches lists simple seen (current :: rest) r := by
        intro hnothing h
        obtain ⟨l, hl, h⟩ := Rule.finds_lift_inv h
        have hl := hl.listOf_inv
        obtain ⟨r, hr, hsearch⟩ := ih
          (List.forall_mem_cons.2 ⟨hfront current List.mem_cons_self, hseen⟩)
          (List.nodup_cons.2 ⟨hnew, hnodup⟩)
          (fun x hx => (List.mem_append.1 hx).elim
            (fun hx => hfront x (List.mem_cons_of_mem _ hx)) (hlists current l hl x))
          (by rw [List.length_cons]; omega) h
        exact ⟨r, hr, .onwards hnew hnothing hl hsearch⟩
      cases found with
      | none =>
        refine hnext (fun m hm => ?_) h
        cases hfound.symm.trans hm
      | some m =>
        change (if (w.modifiersOf m).contains .privateAccess then _ else _ :
          Rule (Option Symbol)).run.Finds lists y at h
        split at h
        · rename_i hprivate
          refine hnext (fun m' hm' => ?_) h
          cases hfound.symm.trans hm'
          exact List.contains_iff_mem.1 hprivate
        · rename_i hpublic
          exact ⟨some m, h.pure_inv, .found hnew hfound
            fun hmem => hpublic (List.contains_iff_mem.2 hmem)⟩

/-- What is relied on of the lists that are told: there are no more types than a search goes through. -/
structure Listed (w : World) (lists : Symbol → List Symbol → Prop) (types : List Symbol) : Prop where
  told : ∀ symbol l, lists symbol l → ∀ x ∈ l, x ∈ types
  size : types.length ≤ w.index.size + w.provider.extent
  unique : ∀ symbol l l', lists symbol l → lists symbol l' → l = l'

theorem memberAt_finds (hp : w.provider.Honest) (hl : w.Listed lists types) {d : DeclId}
    (hd : w.symbolOf d ∈ types) {y : Except ModelError (Option Symbol)}
    (h : (w.memberAt d simple).run.Finds lists y) :
    ∃ r, y = .ok r ∧ w.ShowsMember lists simple d r := by
  unfold World.memberAt at h
  cases hm : w.index.memberType? d simple with
  | some m =>
    rw [hm] at h
    exact ⟨_, h.pure_inv, .declared hm⟩
  | none =>
    rw [hm] at h
    obtain ⟨l, hlist, h⟩ := Rule.finds_lift_inv h
    have hlist := hlist.listOf_inv
    obtain ⟨r, hr, hsearch⟩ := search_finds hp hl.told
      (List.forall_mem_singleton.2 hd) (List.nodup_cons.2 ⟨List.not_mem_nil, .nil⟩)
      (hl.told _ l hlist)
      (by have := hl.size; rw [List.length_singleton]; omega) h
    exact ⟨r, hr, .inherited hm hlist hsearch⟩

/-- Names that are looked up one after the other. -/
theorem firstFound_lookups (hp : w.provider.Honest) (names : List String) :
    Rule.firstFound (names.map fun n => Rule.ofExcept (w.tryLookup n)) =
      Rule.ofExcept (.ok (names.findSome? fun n => (w.lookup n).toOption)) := by
  induction names with
  | nil => rfl
  | cons n rest ih =>
    rw [List.map_cons, Rule.firstFound, tryLookup_eq hp, List.findSome?_cons]
    cases (w.lookup n).toOption with
    | some symbol => rfl
    | none => exact ih

theorem resolveSimple_eq (sc : ScopeView) :
    w.resolveSimple sc simple = Rule.firstFound (sc.levels.map (w.memberAt · simple)
      ++ (w.candidates simple sc.unit).map fun n => Rule.ofExcept (w.tryLookup n)) := by
  unfold World.resolveSimple World.candidates
  simp only [List.map_append, List.map_map, List.map_cons, List.map_nil, List.append_assoc]
  rfl

/-- What a level of a scope shows, and whether it has a type parameter. -/
theorem hidden_cons {d : DeclId} {rest : List DeclId} {b : Bool} (hp : w.provider.Honest)
    (hl : w.Listed lists types) (hd : w.symbolOf d ∈ types)
    (h : (w.hidden simple (d :: rest)).Finds lists b) :
    (∃ m, (w.memberAt d simple).run.Finds lists (.ok (some m)) ∧
      w.ShowsMember lists simple d (some m) ∧ b = true) ∨
    ((w.memberAt d simple).run.Finds lists (.ok none) ∧ w.ShowsMember lists simple d none ∧
      (w.hidden simple rest).Finds lists b) := by
  rw [World.hidden] at h
  obtain ⟨r, hr, h⟩ := h.bind_inv
  obtain ⟨o, rfl, hshown⟩ := memberAt_finds hp hl hd hr
  cases o with
  | some m => exact .inl ⟨m, hr, hshown, h.pure_inv⟩
  | none => exact .inr ⟨hr, hshown, h⟩

theorem firstFound_cons {q : Rule (Option Symbol)} {rest : List (Rule (Option Symbol))}
    {y : Except ModelError (Option Symbol)} {o : Option Symbol}
    (hl : ∀ symbol l l', lists symbol l → lists symbol l' → l = l')
    (hq : q.run.Finds lists (.ok o)) (h : (Rule.firstFound (q :: rest)).run.Finds lists y) :
    match o with
    | some m => y = .ok (some m)
    | none => (Rule.firstFound rest).run.Finds lists y := by
  rw [Rule.firstFound] at h
  rcases Rule.finds_bind_inv h with ⟨e, he, -⟩ | ⟨o', ho', h⟩
  · cases hq.unique hl he
  · cases hq.unique hl ho'
    cases o with
    | some m => exact h.pure_inv
    | none => exact h

/-- The type parameter that no member type hides is what the innermost level knows. -/
theorem firstLevel_parameter (hp : w.provider.Honest) (hl : w.Listed lists types)
    {chain : List DeclId} (hchain : ∀ d ∈ chain, w.symbolOf d ∈ types) {level : Nat}
    (hlevel : w.parameterLevel simple chain = some level)
    (h : (w.hidden simple (chain.take (level + 1))).Finds lists false) :
    ∃ d, chain[level]? = some d ∧
      w.FirstLevel lists simple false chain (some (.parameter (w.symbolOf d))) := by
  induction chain generalizing level with
  | nil => cases hlevel
  | cons d rest ih =>
    rw [List.take_succ_cons] at h
    rcases hidden_cons hp hl (hchain d List.mem_cons_self) h with ⟨m, -, -, hb⟩ | ⟨-, hnone, h⟩
    · cases hb
    · rw [World.parameterLevel] at hlevel
      split at hlevel
      · rename_i hhas
        cases hlevel
        exact ⟨d, rfl, .parameter (.inr hnone) hhas⟩
      · rename_i hnot
        obtain ⟨k, hk, rfl⟩ := Option.map_eq_some_iff.1 hlevel
        obtain ⟨d', hd', hfirst⟩ := ih (fun d h => hchain d (List.mem_cons_of_mem _ h)) hk h
        exact ⟨d', hd', .outwards (.inr hnone) hnot hfirst⟩

/-- What hides a type parameter is found when the type is resolved. -/
theorem firstLevel_hidden (hp : w.provider.Honest) (hl : w.Listed lists types)
    {chain : List DeclId} (hchain : ∀ d ∈ chain, w.symbolOf d ∈ types) {level : Nat}
    {more : List (Rule (Option Symbol))} {y : Except ModelError (Option Symbol)}
    (hlevel : w.parameterLevel simple chain = some level)
    (h : (w.hidden simple (chain.take (level + 1))).Finds lists true)
    (hy : (Rule.firstFound (chain.map (w.memberAt · simple) ++ more)).run.Finds lists y) :
    ∃ m, y = .ok (some m) ∧ w.FirstLevel lists simple false chain (some (.type m)) := by
  induction chain generalizing level with
  | nil => cases hlevel
  | cons d rest ih =>
    rw [List.take_succ_cons] at h
    rw [List.map_cons, List.cons_append] at hy
    rcases hidden_cons hp hl (hchain d List.mem_cons_self) h with
      ⟨m, hm, hshown, -⟩ | ⟨hm, hnone, h⟩
    · exact ⟨m, firstFound_cons hl.unique hm hy, .member hshown⟩
    · rw [World.parameterLevel] at hlevel
      split at hlevel
      · cases hlevel
        cases h.pure_inv
      · rename_i hnot
        obtain ⟨k, hk, rfl⟩ := Option.map_eq_some_iff.1 hlevel
        obtain ⟨m, hm, hfirst⟩ := ih (fun d h => hchain d (List.mem_cons_of_mem _ h)) hk h
          (firstFound_cons hl.unique hm hy)
        exact ⟨m, hm, .outwards (.inr hnone) hnot hfirst⟩

/-- Where there is no type parameter, the levels are searched for a member type alone. -/
theorem firstLevel_member (hp : w.provider.Honest) (hl : w.Listed lists types)
    {chain : List DeclId} (hchain : ∀ d ∈ chain, w.symbolOf d ∈ types)
    {more : List (Rule (Option Symbol))} {y : Except ModelError (Option Symbol)}
    (hlevel : w.parameterLevel simple chain = none)
    (hy : (Rule.firstFound (chain.map (w.memberAt · simple) ++ more)).run.Finds lists y) :
    (∃ m, y = .ok (some m) ∧ w.FirstLevel lists simple false chain (some (.type m))) ∨
      w.FirstLevel lists simple false chain none ∧ (Rule.firstFound more).run.Finds lists y := by
  induction chain with
  | nil => exact .inr ⟨.outermost, hy⟩
  | cons d rest ih =>
    rw [List.map_cons, List.cons_append] at hy
    rw [World.parameterLevel] at hlevel
    split at hlevel
    · cases hlevel
    · rename_i hnot
      have hrest := Option.map_eq_none_iff.1 hlevel
      -- Whether or not the search stops at this level, its member type has been looked up.
      have hq : ∃ o, (w.memberAt d simple).run.Finds lists (.ok o) ∧
          w.ShowsMember lists simple d o := by
        have hy' := hy
        rw [Rule.firstFound] at hy'
        rcases Rule.finds_bind_inv hy' with ⟨e, he, -⟩ | ⟨o, ho, -⟩
        · obtain ⟨o, heq, -⟩ := memberAt_finds hp hl (hchain d List.mem_cons_self) he
          cases heq
        · obtain ⟨o', heq, hshown⟩ := memberAt_finds hp hl (hchain d List.mem_cons_self) ho
          cases heq
          exact ⟨o, ho, hshown⟩
      obtain ⟨o, ho, hshown⟩ := hq
      have hnext := firstFound_cons hl.unique ho hy
      cases o with
      | some m => exact .inl ⟨m, hnext, .member hshown⟩
      | none =>
        rcases ih (fun d h => hchain d (List.mem_cons_of_mem _ h)) hrest hnext with
          ⟨m, hm, hfirst⟩ | ⟨hfirst, hmore⟩
        · exact .inl ⟨m, hm, .outwards (.inr hshown) hnot hfirst⟩
        · exact .inr ⟨.outwards (.inr hshown) hnot hfirst, hmore⟩

/-- The levels of a header leave the first one out, but for its type parameters. -/
theorem parameterLevel_header {d : DeclId} {rest : List DeclId} {level : Option Nat}
    (h : w.parameterLevel simple (d :: rest) = level) :
    w.HasParameter simple d ∧ level = some 0 ∨
      ¬w.HasParameter simple d ∧ level = (w.parameterLevel simple rest).map (· + 1) := by
  rw [World.parameterLevel] at h
  split at h
  · rename_i hhas
    exact .inl ⟨hhas, h.symm⟩
  · rename_i hnot
    exact .inr ⟨hnot, h.symm⟩

theorem firstLevel_of_visible (hp : w.provider.Honest) (hl : w.Listed lists types) {sc : ScopeView}
    (hchain : ∀ d ∈ sc.chain, w.symbolOf d ∈ types) {level : Nat}
    (hlevel : w.parameterLevel simple sc.chain = some level)
    (h : (w.hidden simple (sc.levelsUpTo level)).Finds lists false) :
    ∃ d, sc.chain[level]? = some d ∧
      w.FirstLevel lists simple sc.header sc.chain (some (.parameter (w.symbolOf d))) := by
  obtain ⟨unit, chain, header⟩ := sc
  cases header with
  | false => exact firstLevel_parameter hp hl hchain hlevel h
  | true =>
    cases chain with
    | nil => cases hlevel
    | cons d rest =>
      rcases parameterLevel_header hlevel with ⟨hhas, hk⟩ | ⟨hnot, hk⟩
      · cases hk
        exact ⟨d, rfl, .parameter (.inl rfl) hhas⟩
      · obtain ⟨k, hinner, rfl⟩ := Option.map_eq_some_iff.1 hk.symm
        obtain ⟨d', hd', hfirst⟩ :=
          firstLevel_parameter hp hl (fun d h => hchain d (List.mem_cons_of_mem _ h)) hinner h
        exact ⟨d', hd', .outwards (.inl rfl) hnot hfirst⟩

theorem firstLevel_of_hidden (hp : w.provider.Honest) (hl : w.Listed lists types) {sc : ScopeView}
    (hchain : ∀ d ∈ sc.chain, w.symbolOf d ∈ types) {level : Nat}
    {more : List (Rule (Option Symbol))} {y : Except ModelError (Option Symbol)}
    (hlevel : w.parameterLevel simple sc.chain = some level)
    (h : (w.hidden simple (sc.levelsUpTo level)).Finds lists true)
    (hy : (Rule.firstFound (sc.levels.map (w.memberAt · simple) ++ more)).run.Finds lists y) :
    ∃ m, y = .ok (some m) ∧
      w.FirstLevel lists simple sc.header sc.chain (some (.type m)) := by
  obtain ⟨unit, chain, header⟩ := sc
  cases header with
  | false => exact firstLevel_hidden hp hl hchain hlevel h hy
  | true =>
    cases chain with
    | nil => cases hlevel
    | cons d rest =>
      rcases parameterLevel_header hlevel with ⟨-, hk⟩ | ⟨hnot, hk⟩
      · cases hk
        cases h.pure_inv
      · obtain ⟨k, hinner, rfl⟩ := Option.map_eq_some_iff.1 hk.symm
        obtain ⟨m, hm, hfirst⟩ :=
          firstLevel_hidden hp hl (fun d h => hchain d (List.mem_cons_of_mem _ h)) hinner h hy
        exact ⟨m, hm, .outwards (.inl rfl) hnot hfirst⟩

theorem firstLevel_of_none (hp : w.provider.Honest) (hl : w.Listed lists types) {sc : ScopeView}
    (hchain : ∀ d ∈ sc.chain, w.symbolOf d ∈ types)
    {more : List (Rule (Option Symbol))} {y : Except ModelError (Option Symbol)}
    (hlevel : w.parameterLevel simple sc.chain = none)
    (hy : (Rule.firstFound (sc.levels.map (w.memberAt · simple) ++ more)).run.Finds lists y) :
    (∃ m, y = .ok (some m) ∧
      w.FirstLevel lists simple sc.header sc.chain (some (.type m))) ∨
      w.FirstLevel lists simple sc.header sc.chain none ∧
        (Rule.firstFound more).run.Finds lists y := by
  obtain ⟨unit, chain, header⟩ := sc
  cases header with
  | false => exact firstLevel_member hp hl hchain hlevel hy
  | true =>
    cases chain with
    | nil => exact .inr ⟨.outermost, hy⟩
    | cons d rest =>
      rcases parameterLevel_header hlevel with ⟨-, hk⟩ | ⟨hnot, hk⟩
      · cases hk
      · rcases firstLevel_member hp hl (fun d h => hchain d (List.mem_cons_of_mem _ h))
          (Option.map_eq_none_iff.1 hk.symm) hy with ⟨m, hm, hfirst⟩ | ⟨hfirst, hmore⟩
        · exact .inl ⟨m, hm, .outwards (.inl rfl) hnot hfirst⟩
        · exact .inr ⟨.outwards (.inl rfl) hnot hfirst, hmore⟩

/-- **The rules follow the documented order**: the type parameter that they find, if any, is what the
    name denotes, and if there is none, so is the type that they resolve the name to. -/
theorem denotes_of_finds (hp : w.provider.Honest) (hl : w.Listed lists types) {sc : ScopeView}
    (hchain : ∀ d ∈ sc.chain, w.symbolOf d ∈ types) {p : Option (Name × Symbol)}
    (h : (w.typeVariable? simple sc).Finds lists p) :
    (∀ name owner, p = some (name, owner) →
      name = simple ∧ w.Denotes lists simple sc (some (.parameter owner))) ∧
    (p = none → ∀ y, (w.resolveSimple sc simple).run.Finds lists y →
      ∃ o, y = .ok o ∧ w.Denotes lists simple sc (o.map .type)) := by
  rw [resolveSimple_eq]
  unfold World.typeVariable? at h
  cases hlevel : w.parameterLevel simple sc.chain with
  | none =>
    rw [hlevel] at h
    cases h.pure_inv
    refine ⟨nofun, fun _ y hy => ?_⟩
    rcases firstLevel_of_none hp hl hchain hlevel hy with ⟨m, hm, hfirst⟩ | ⟨hfirst, hmore⟩
    · exact ⟨some m, hm, .level hfirst⟩
    · rw [firstFound_lookups hp] at hmore
      exact ⟨_, hmore.pure_inv, .file hfirst⟩
  | some level =>
    rw [hlevel] at h
    obtain ⟨b, hb, h⟩ := h.bind_inv
    cases b with
    -- The parameter is found at a level, and no member type of a level inside hides it.
    | false =>
      obtain ⟨d, hd, hfirst⟩ := firstLevel_of_visible hp hl hchain hlevel hb
      have hp' := h.pure_inv
      rw [hd] at hp'
      cases hp'
      exact ⟨fun _ _ heq => by cases heq; exact ⟨rfl, .level hfirst⟩, nofun⟩
    -- A member type further inside hides the parameter, and is what the name is resolved to.
    | true =>
      cases h.pure_inv
      refine ⟨nofun, fun _ y hy => ?_⟩
      obtain ⟨m, hm, hfirst⟩ := firstLevel_of_hidden hp hl hchain hlevel hb hy
      exact ⟨some m, hm, .level hfirst⟩

end Follows

end World

end JavaAbi
