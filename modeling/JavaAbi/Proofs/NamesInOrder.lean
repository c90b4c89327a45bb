import JavaAbi.Proofs.OtherAnswers

namespace JavaAbi

/-!
# Simple names over any provider

A provider may know infinitely many names. Then there is no saying beforehand how many types a search
for a member type goes through, and it may be cut off. Where none was, a session has done what it does
over a provider that says the same and allows for as many types as the session has elements; over that
one it reads a simple name as what the name denotes. What a name denotes does not depend on how many
types a provider allows for.

* `World.servedBy`, `World.Stands.denotes` — what a name denotes over a provider that stands in;
* `readName_uncut` — a session of which no search was cut off reads a simple name as what it denotes;
* `Client.simple_name` — what a session makes of a simple name.
-/

variable {w : World} {p : Provider} {s t : Session} {symbol : Symbol} {simple : Name}

/-- The world over another provider. -/
def World.servedBy (w : World) (p : Provider) : World := { w with provider := p }

/-! ### What a name denotes -/

namespace World.Stands

variable {lists : Symbol → List Symbol → Prop} {d : DeclId}

section Lookup

variable (h : w.Stands p)

include h

theorem lookup (name : String) : (w.servedBy p).lookup name = w.lookup name := by
  have hagrees : ∀ n, (w.find? n).isSome = false → p.resolve? n = w.provider.resolve? n :=
    fun n hn => h.agrees n (Option.isNone_iff_eq_none.1 (Option.isSome_eq_false_iff.1 hn))
  exact congrArg (Except.map fun _ => Symbol.type name) (lookupOutcome_congr hagrees name)

theorem modifiersOf (symbol : Symbol) :
    (w.servedBy p).modifiersOf symbol = w.modifiersOf symbol := by
  have hdescriptor : (w.servedBy p).descriptorOf? symbol = w.descriptorOf? symbol := by
    cases symbol with
    | type name =>
      show (if (w.find? name).isSome then none else p.resolve? name) =
        if (w.find? name).isSome then none else w.provider.resolve? name
      split
      · rfl
      · rename_i hn
        exact h.agrees name (Option.not_isSome_iff_eq_none.1 hn)
    | _ => rfl
  unfold World.modifiersOf
  rw [hdescriptor]
  rfl

theorem declaredMember (owner : Symbol) (simple : Name) :
    (w.servedBy p).declaredMember owner simple = w.declaredMember owner simple := by
  have htry : (w.servedBy p).tryLookup = w.tryLookup := by
    funext name
    unfold World.tryLookup
    rw [h.lookup]
  unfold World.declaredMember
  rw [htry]
  rfl

theorem imported (simple : Name) (unit : Nat) :
    (w.servedBy p).imported simple unit = w.imported simple unit := by
  unfold World.imported
  rw [funext h.lookup]
  rfl

theorem declares {owner member : Symbol} :
    (w.servedBy p).Declares simple owner member ↔ w.Declares simple owner member := by
  unfold Declares
  rw [h.declaredMember]

theorem searches {seen queue : List Symbol} {r : Option Symbol}
    (hr : (w.servedBy p).Searches lists simple seen queue r) :
    w.Searches lists simple seen queue r := by
  induction hr with
  | exhausted => exact .exhausted
  | again old _ ih => exact .again old ih
  | found new declares inheritable =>
    exact .found new (h.declares.1 declares) (h.modifiersOf _ ▸ inheritable)
  | onwards new nothing listed _ ih =>
    refine .onwards new (fun member hmember => ?_) listed ih
    exact h.modifiersOf member ▸ nothing member (h.declares.2 hmember)

theorem showsMember {r : Option Symbol} (hr : (w.servedBy p).ShowsMember lists simple d r) :
    w.ShowsMember lists simple d r := by
  cases hr with
  | declared member => exact .declared member
  | inherited nothing listed searched => exact .inherited nothing listed (h.searches searched)

theorem firstLevel {header : Bool} {chain : List DeclId} {r : Option Denotation}
    (hr : (w.servedBy p).FirstLevel lists simple header chain r) :
    w.FirstLevel lists simple header chain r := by
  induction hr with
  | outermost => exact .outermost
  | member shown => exact .member (h.showsMember shown)
  | parameter nothing has => exact .parameter (nothing.imp_right h.showsMember) has
  | outwards nothing hasNot _ ih => exact .outwards (nothing.imp_right h.showsMember) hasNot ih

/-- **A name denotes the same** over a provider that stands in for that of the world. -/
theorem denotes {sc : ScopeView} {r : Option Denotation}
    (hr : (w.servedBy p).Denotes lists simple sc r) : w.Denotes lists simple sc r := by
  cases hr with
  | level first => exact .level (h.firstLevel first)
  | file none =>
    rw [h.imported]
    exact .file (h.firstLevel none)

end Lookup

end World.Stands

/-! ### Sessions over another provider -/

namespace Session

theorem showsType_servedBy {id : ElementId} :
    (s.servedBy p).ShowsType symbol id ↔ s.ShowsType symbol id :=
  ⟨fun h => ⟨h.shows, h.isType⟩, fun h => ⟨h.shows, h.isType⟩⟩

theorem showsAll_servedBy {ids : List ElementId} {symbols : List Symbol} :
    (s.servedBy p).ShowsAll ids symbols ↔ s.ShowsAll ids symbols :=
  ⟨List.Forall₂.imp fun _ _ => showsType_servedBy.1, List.Forall₂.imp fun _ _ => showsType_servedBy.2⟩

/-- The lists of a session are no matter of the provider. -/
theorem holdsList_servedBy : (s.servedBy p).HoldsList = s.HoldsList := by
  funext symbol symbols
  refine propext ⟨?_, ?_⟩
  · rintro ⟨id, ids, hshow, hslot, hall⟩
    exact ⟨id, ids, showsType_servedBy.1 hshow, hslot, showsAll_servedBy.1 hall⟩
  · rintro ⟨id, ids, hshow, hslot, hall⟩
    exact ⟨id, ids, showsType_servedBy.2 hshow, hslot, showsAll_servedBy.2 hall⟩

theorem Scoped.servedBy {sc : Scope} (h : s.Scoped w sc) :
    (s.servedBy p).Scoped (w.servedBy p) sc := fun level hlevel =>
  ⟨(h level hlevel).1, showsType_servedBy.2 (h level hlevel).2⟩

end Session

section Read

variable {sc : Scope} {name : Name} {args : List TypeRef} {place : Span}
  {x : ModelType × Except ModelError (Option ElementId)} {r : Option Denotation}

theorem NameRead.of_servedBy (h : NameRead (w.servedBy p) (t.servedBy p) name place r x) :
    NameRead w t name place r x := by
  cases h with
  | parameter level => exact .parameter (Session.showsType_servedBy.1 level)
  | type element => exact .type (Session.showsType_servedBy.1 element)
  | nothing => exact .nothing

theorem readName_mirrors (hw : w.Sound) (hp : w.Stands p) :
    w.Mirrors p (readName sc name args place) (readName sc name args place) :=
  (typeOf_mirrors hw hp (directSupertypes_mirrors hw hp) sc _).bind fun type =>
    World.Mirrors.bind (elementOfType_mirrors hw hp type) fun _ => .pure _

/-- **A session of which no search was cut off reads a simple name as what it denotes.** It does as it
    would over a provider that allows for as many types as it has elements. -/
theorem readName_uncut (hs : s.Resolved w) (hs' : (s.servedBy p).Idle (w.servedBy p))
    (hstands : w.Stands p) (hp : p.Honest) (hsc : s.Scoped w sc) (hn : w.names.Proper name)
    (hargs : ∀ a ∈ args, a.Sound w.names)
    (hrun : (readName sc name args place).run.run s = (.ok x, t)) (huncut : t.cutOff = false)
    (hroom : t.elements.size ≤ w.index.size + p.extent) :
    ∃ r, w.Denotes t.HoldsList name sc.view r ∧ NameRead w t name place r x := by
  obtain ⟨_, _, hrun', -, -, hsame⟩ := readName_mirrors hs.world hstands s hs.of
  cases hrun.symm.trans hrun'
  have hserved := hsame.resolve_left fun ⟨_, hshort⟩ => by
    rcases hshort with hoff | hstopped
    · exact Bool.false_ne_true (huncut.symm.trans hoff)
    · cases hstopped
  obtain ⟨_, _, hrun'', -, -, hdenotes⟩ := readName_denotes hs' hp hsc.servedBy hn hargs
  cases hserved.symm.trans hrun''
  obtain ⟨r, hr, hread⟩ := hdenotes hroom
  rw [Session.holdsList_servedBy] at hr
  exact ⟨r, hstands.denotes hr, hread.of_servedBy⟩

end Read

/-! ### Clients -/

namespace Client

variable (token : SessionToken) (files : Batch) (provider : Provider) (config : ModelConfig)
variable {table : NameTable} (htable : (parseBatch files).2.1.Le table)

include htable

/-- **What a session makes of a simple name.** After any questions, in the scope inside an element or
    in the scope of its header, a simple name is read, and no search is cut off if the provider knows
    finitely many names. By the lists that the session then holds, the name denotes one thing in the
    documented order; and it is read as what it denotes. -/
theorem simple_name (honest : provider.Honest) (questions : List Question) (sc : Scope)
    (name : Name) (args : List TypeRef) (place : Span) :
    let c : Client := startWith token files provider config table
    let w : World := c.session.world
    let s : Session := (c.askAll questions).session
    s.HasScope sc → w.names.Proper name → (∀ a ∈ args, a.Sound w.names) →
      ∃ x t, (readName sc name args place).run.run s = (.ok x, t) ∧
        (provider.Counted → t.cutOff = false) ∧
        (t.cutOff = false → ∃ r, w.Denotes t.HoldsList name sc.view r ∧
          (∀ r', w.Denotes t.HoldsList name sc.view r' → r' = r) ∧
          NameRead w t name place r x) := by
  intro c w s hscope hname hargs
  have hc : c.Fits w := fits_startWith token files provider config htable
  obtain ⟨hfits, hlearns⟩ := fits_askAll hc questions
  have hs : s.Idle w := hfits.idle
  have hsc := hscope.scoped hs.resolved
  obtain ⟨x, t, hrun, ht, hkeeps, -⟩ := readName_denotes hs honest hsc hname hargs
  refine ⟨x, t, hrun, (hlearns.toKeeps.trans hkeeps).cutOff, fun huncut => ?_⟩
  -- a provider that allows for as many types more as the session has elements
  let p : Provider := { provider with extent := provider.extent + t.elements.size }
  have hstands : w.Stands p := ⟨fun _ _ => rfl, Nat.le_add_right _ _⟩
  have hbefore : s.cutOff = false := by
    obtain ⟨_, _, hrun', -, hcut, -⟩ :=
      readName_mirrors hs.resolved.world hstands s hs.resolved.of
    cases hrun.symm.trans hrun'
    exact Bool.eq_false_iff.2 fun hoff => Bool.false_ne_true (huncut.symm.trans (hcut hoff))
  have hserved : (c.servedBy p).askAll questions = (c.askAll questions).servedBy p :=
    (askAll_servedBy hc hstands questions (.inr hbefore)).2
  have hs' : (s.servedBy p).Idle (w.servedBy p) := by
    have hsession : ((c.servedBy p).askAll questions).session = s.servedBy p :=
      congrArg Client.session hserved
    rw [← hsession]
    exact (fits_askAll (fits_startWith token files p config htable) questions).1.idle
  obtain ⟨r, hdenotes, hread⟩ := readName_uncut hs.resolved hs' hstands honest hsc hname hargs
    hrun huncut (Nat.le_trans (Nat.le_add_left _ _) (Nat.le_add_left _ _))
  exact ⟨r, hdenotes, fun r' hr' => hr'.unique (fun _ _ _ h h' => h.unique ht.sound h') hdenotes,
    hread⟩

omit htable in
/-- A name that is a type parameter of a class and a member type that the class inherits, read in the
    body of the class. -/
theorem simple_name_inherited :
    let files : Batch := #[⟨"A.java", "package p; class A<T> extends B { T f; } class B { class T {} }"⟩]
    let table := (parseBatch files).2.1
    let c := startWith 0 files onlyObject {} table
    let s := (c.askAll [.lookupType "p.A"]).session
    let name := (table.intern "T").1
    s.HasScope ⟨0, [(0, 1)], false⟩ ∧
      ∃ x t r, (readName ⟨0, [(0, 1)], false⟩ name [] ⟨none, 0, 0⟩).run.run s = (.ok x, t) ∧
        c.session.world.Denotes t.HoldsList name ⟨0, [0], false⟩ r ∧
        (∀ r', c.session.world.Denotes t.HoldsList name ⟨0, [0], false⟩ r' → r' = r) ∧
        NameRead c.session.world t name ⟨none, 0, 0⟩ r x := by
  intro files table c s name
  have hidle : s.Idle c.session.world :=
    (fits_askAll (fits_startWith 0 files onlyObject {} (.refl _)) _).1.idle
  have hscope : s.HasScope ⟨0, [(0, 1)], false⟩ := by
    obtain ⟨r, hrun, -⟩ := run_scopeOf hidle.resolved 1
    refine ⟨1, .inl (hrun.trans (Prod.ext ?_ rfl))⟩
    -- The scope of the element is evaluated.
    have heq : ((scopeOf 1).run.run.run s).1 = .ok (.ok ⟨0, [(0, 1)], false⟩) := by
      decide +kernel
    rw [← heq, hrun]
  have hname : c.session.world.names.Proper name := by
    refine ⟨⟨"T", ?_⟩, ?_⟩ <;> decide +kernel
  obtain ⟨x, t, hrun, hcut, hread⟩ := simple_name 0 files onlyObject {} (.refl _)
    onlyObject_honest _ _ name [] ⟨none, 0, 0⟩ hscope hname (List.forall_mem_nil _)
  obtain ⟨r, hdenotes, hunique, hread⟩ := hread (hcut onlyObject_counted)
  exact ⟨hscope, x, t, r, hrun, hdenotes, hunique, hread⟩

end Client

end JavaAbi
