import JavaAbi.Proofs.ExtractedReports
import JavaAbi.Proofs.RaisedErrors
import JavaAbi.Proofs.SimpleNames

namespace JavaAbi

/-!
# Qualified names

A type can be written by a simple name that is visible in a scope, with names of member types after it,
or in full, by its canonical name. The first is resolved by going from a type to its member types, those
that it inherits included; the second, if its first segment is no type, is looked up as one name. So
both agree as far as member types are declared by the types that they are written after.

* `World.Indexed.resolveSimple_endsIn` — the canonical name of what a simple name finds ends in it;
* `World.DeclaresPath` — segments that name member types declared where they are looked for;
* `World.Indexed.resolvePath_spelled` — a name in full is looked up;
* `readMentions` — types that are mentioned in a scope;
* `Client.qualified_name` — what names in full find in a session;
* `Client.inherited_member_in_full` — a member type that is inherited.
-/

open Course Stage

namespace World

variable {w : World} {base : NameTable} {lists : Symbol → List Symbol → Prop} {simple : Name}
  {owner member : Symbol} {q : String}

/-! ### Names of member types -/

/-- **A member type is named after the declaration** that it is a member of, unless that has no name. -/
theorem Indexed.symbolOf_memberType (hw : w.Indexed base) (hle : base.Le w.names) {d c : DeclId}
    (h : w.index.memberType? d simple = some c) :
    (w.symbolOf d = .unnamed d ∧ w.symbolOf c = .unnamed c) ∨
      ∃ q, w.symbolOf d = .type q ∧
        w.symbolOf c = .type (NameTable.joined (some q) (w.text simple)) := by
  have hmem : c ∈ w.index.memberTypes d := List.mem_of_find?_eq_some h
  have hsimple : (w.index.get? c).map DeclInfo.simpleName = some simple := by
    have hfound := List.find?_some h
    exact of_decide_eq_true hfound
  obtain ⟨j, hj, rfl⟩ := Option.map_eq_some_iff.1 hsimple
  cases hi : w.index.get? d with
  | none =>
    rw [DeclIndex.memberTypes, hi] at hmem
    cases hmem
  | some i =>
    have hknown := DeclIndex.known?_of_get? hi
    obtain ⟨tree, htree⟩ := Option.isSome_iff_exists.1 (hw.settled.sound.infos d i hi).tree
    have htree' : w.index.tree? w.units d = some tree := by
      rw [DeclIndex.tree?_of_known? hknown]
      exact htree
    rw [hw.settled.memberTypes_eq htree'] at hmem
    obtain ⟨m, -, hc⟩ := List.mem_filterMap.1 hmem
    rw [DeclIndex.typeChild?] at hc
    split at hc
    case isFalse => cases hc
    rename_i htype
    obtain ⟨mem, hm, htype⟩ := (Option.any_eq_true _ _).1 htype
    cases mem with
    | field | constant => cases htype
    | type t =>
      -- the simple name is the one that is written
      have htree₁ : w.index.tree? w.units c = some t := by
        have hchild := hw.settled.tree?_child (m := m) hknown htree'
        rw [hc, hm] at hchild
        exact hchild
      have hname : j.simpleName = t.head.name.getD .empty := by
        rw [DeclIndex.tree?_of_known? (DeclIndex.known?_of_get? hj)] at htree₁
        exact (hw.settled.sound.infos c j hj).simple t htree₁
      rw [symbolOf, symbolOf, DeclIndex.keyOf_eq hi, DeclInfo.key]
      rcases hw.keyOf_member hi htree' hm hc with
        ⟨hanonymous, hkey, -⟩ | ⟨n, n', written, hnamed, hkey, hwritten, hproper, hjoins, hjoins'⟩
      · rw [hanonymous, hkey]
        exact .inl ⟨rfl, rfl⟩
      · rw [hnamed, hkey, hname, hwritten]
        refine .inr ⟨w.text n, rfl, congrArg Symbol.type ?_⟩
        rw [Option.getD_some, text, text, NameTable.text_le hproper.1 hle]
        rw [NameTable.text_eq hjoins.2, NameTable.text_eq hjoins'.2, List.map_append,
          List.map_singleton, ← joined_intercalate hjoins.1]

theorem lookup_eq {name : String} {symbol : Symbol} (h : w.lookup name = .ok symbol) :
    symbol = .type name := by
  rw [lookup] at h
  cases hout : lookupOutcome (fun n => (w.find? n).isSome) w.provider name with
  | ok u =>
    rw [hout] at h
    exact (Except.ok.inj h).symm
  | error e =>
    rw [hout] at h
    cases h

theorem tryLookup_some {name : String} {symbol : Symbol} (h : w.tryLookup name = .ok (some symbol)) :
    symbol = .type name := by
  rw [tryLookup] at h
  cases hl : w.lookup name with
  | ok found =>
    rw [hl] at h
    cases h
    exact lookup_eq hl
  | error e =>
    rw [hl] at h
    dsimp only at h
    split at h <;> cases h

/-- The declaration of a canonical name has this name. -/
theorem Indexed.symbolOf_find? (hw : w.Indexed base) {d : DeclId} (h : w.find? q = some d) :
    w.symbolOf d = .type q := by
  obtain ⟨n, hn, hd⟩ := Option.bind_eq_some_iff.1 h
  obtain ⟨i, hi, hname, -⟩ := hw.settled.sound.named n d hd
  obtain ⟨j, hj, -, -, hjname, -⟩ := DeclIndex.known?_eq hi
  rw [symbolOf, DeclIndex.keyOf_eq hj, DeclInfo.key, hjname, hname]
  exact congrArg Symbol.type (NameTable.text_eq (NameTable.resolve?_of_find? hn))

/-- **A member type that a named type declares** has its name and one segment more. -/
theorem Indexed.declares_type (hw : w.Indexed base) (hle : base.Le w.names)
    (h : w.Declares simple (.type q) member) :
    member = .type (NameTable.joined (some q) (w.text simple)) := by
  have hdecl : w.declOf? (.type q) = w.find? q := rfl
  unfold Declares declaredMember at h
  rw [hdecl] at h
  cases hd : w.find? q with
  | none =>
    rw [hd] at h
    exact tryLookup_some h
  | some d =>
    rw [hd] at h
    obtain ⟨c, hc, rfl⟩ := Option.map_eq_some_iff.1 (Except.ok.inj h)
    rcases hw.symbolOf_memberType hle hc with ⟨hunnamed, -⟩ | ⟨q', hq', hmember⟩
    · cases (hw.symbolOf_find? hd).symm.trans hunnamed
    · cases (hw.symbolOf_find? hd).symm.trans hq'
      exact hmember

/-- A name ends in a simple one, with a dot between what precedes it and it. -/
def EndsIn (w : World) (q : String) (simple : Name) : Prop :=
  ∃ outer, q = NameTable.joined outer (w.text simple)

theorem Indexed.declares_endsIn (hw : w.Indexed base) (hle : base.Le w.names)
    (h : w.Declares simple owner (.type q)) : w.EndsIn q simple := by
  cases owner with
  | type o => exact ⟨some o, Symbol.type.inj (hw.declares_type hle h)⟩
  | unnamed d =>
    obtain ⟨c, hc, hmember⟩ := Option.map_eq_some_iff.1 (Except.ok.inj h)
    rcases hw.symbolOf_memberType hle hc with ⟨-, hunnamed⟩ | ⟨o, -, hnamed⟩
    · cases hmember.symm.trans hunnamed
    · exact ⟨some o, Symbol.type.inj (hmember.symm.trans hnamed)⟩
  | _ => cases h

/-! ### Names of types that simple names resolve to -/

/-- What a search comes to, one of the types declares. -/
theorem Searches.exists_declares {seen queue : List Symbol} {r : Option Symbol}
    (h : w.Searches lists simple seen queue r) :
    ∀ m ∈ r, ∃ owner, w.Declares simple owner m := by
  induction h with
  | exhausted => exact nofun
  | again _ _ ih => exact ih
  | found _ declares _ =>
    intro m hm
    cases hm
    exact ⟨_, declares⟩
  | onwards _ _ _ _ ih => exact ih

/-- **The type of a simple name has a canonical name that ends in it**, or none. -/
theorem Indexed.resolveSimple_endsIn (hw : w.Indexed base) (hle : base.Le w.names) (hs : w.Sound)
    {sc : ScopeView} (h : (w.resolveSimple sc simple).run.Finds lists (.ok (some (.type q)))) :
    w.EndsIn q simple := by
  rw [resolveSimple_eq] at h
  obtain ⟨rule, hmem, hrule⟩ := Rule.firstFound_mem h
  rcases List.mem_append.1 hmem with hlevel | hfile
  · -- a level of the scope declares the type, or inherits it from a type that does
    obtain ⟨d, -, rfl⟩ := List.mem_map.1 hlevel
    unfold memberAt at hrule
    cases hm : w.index.memberType? d simple with
    | some c =>
      rw [hm] at hrule
      have hc : w.symbolOf c = .type q := (Option.some.inj (Except.ok.inj hrule.pure_inv)).symm
      rcases hw.symbolOf_memberType hle hm with ⟨-, hunnamed⟩ | ⟨o, -, hnamed⟩
      · cases hc.symm.trans hunnamed
      · exact ⟨some o, Symbol.type.inj (hc.symm.trans hnamed)⟩
    | none =>
      rw [hm] at hrule
      obtain ⟨l, -, hsearch⟩ := Rule.finds_lift_inv hrule
      obtain ⟨owner, hdeclares⟩ := (searches_of_finds hsearch).exists_declares _ rfl
      exact hw.declares_endsIn hle hdeclares
  · -- outside of all levels, only names that end in the simple one are tried
    obtain ⟨name, hname, rfl⟩ := List.mem_map.1 hfile
    obtain rfl := Symbol.type.inj (tryLookup_some hrule.pure_inv.symm)
    simp only [candidates, List.mem_append, List.mem_map, List.mem_singleton] at hname
    rcases hname with ((⟨i, hi, rfl⟩ | rfl) | ⟨o, -, rfl⟩) | ⟨o, -, rfl⟩
    · obtain ⟨hmem, hsimple⟩ := List.mem_filter.1 hi
      obtain ⟨-, -, hends⟩ := (hs.imports_issued sc.unit).single i hmem
      exact of_decide_eq_true hsimple ▸ hends
    all_goals exact ⟨_, rfl⟩

/-! ### Paths -/

theorem canonicalPath_append (outer : Option String) (path rest : List Name) :
    w.canonicalPath outer (path ++ rest) = w.canonicalPath (w.canonicalPath outer path) rest := by
  induction path generalizing outer with
  | nil => rfl
  | cons first path ih => exact ih _

/-- Each segment of a path names a member type that the type reached so far declares itself. -/
def DeclaresPath (w : World) : Symbol → List Name → Prop
  | _, [] => True
  | owner, simple :: rest => ∃ member, w.Declares simple owner member ∧ w.DeclaresPath member rest

/-- **Descending by declared member types spells the canonical name.** -/
theorem Indexed.foldlM_declared (hw : w.Indexed base) (hle : base.Le w.names) {rest : List Name}
    (h : w.DeclaresPath (.type q) rest)
    (hfound : (rest.foldlM w.memberOf (.type q)).run.Finds lists (.ok member)) :
    ∃ name, w.canonicalPath (some q) rest = some name ∧ member = .type name := by
  induction rest generalizing q with
  | nil =>
    cases hfound.pure_inv
    exact ⟨q, rfl, rfl⟩
  | cons simple rest ih =>
    obtain ⟨inner, hdeclares, hrest⟩ := h
    obtain rfl := hw.declares_type hle hdeclares
    rw [List.foldlM_cons] at hfound
    rcases Rule.finds_bind_inv hfound with ⟨e, -, he⟩ | ⟨found, hmember, hfound⟩
    · cases he
    · have hdirect : w.memberOf (.type q) simple =
          (pure (.type (NameTable.joined (some q) (w.text simple))) : Rule Symbol) := by
        rw [memberOf, show w.declaredMember (.type q) simple = _ from hdeclares]
        rfl
      rw [hdirect] at hmember
      obtain rfl := Except.ok.inj hmember.pure_inv
      exact ih hrest hfound

/-- Without a dot there is nothing before the simple name. -/
theorem EndsIn.eq_text (h : w.EndsIn q simple) (hdot : '.' ∉ q.toList) : q = w.text simple := by
  obtain ⟨outer, rfl⟩ := h
  cases outer with
  | none => rfl
  | some o =>
    rw [NameTable.joined] at hdot ⊢
    split
    · rfl
    · rename_i ho
      rw [if_neg ho] at hdot
      simp at hdot

/-- **A canonical name is looked up as a whole**, where its first segment is no type. -/
theorem Indexed.resolvePath_spelled (hw : w.Indexed base) (hle : base.Le w.names) (hs : w.Sound)
    (hl : ∀ symbol l l', lists symbol l → lists symbol l' → l = l') {sc : ScopeView} {first : Name}
    {more rest : List Name} (hsimple : w.names.Issued simple) (hfirst : w.names.Issued first)
    (hdot : '.' ∉ (w.text first).toList) (hq : w.canonicalPath none (first :: more) = some q)
    (hplain : (w.resolveSimple sc simple).run.Finds lists (.ok (some (.type q))))
    (hnothing : (w.resolveSimple sc first).run.Finds lists (.ok none))
    {y : Except ModelError Symbol}
    (h : (w.resolvePath sc (first :: more ++ rest)).run.Finds lists y) :
    ∃ name, w.canonicalPath (some q) rest = some name ∧ y = w.lookup name := by
  rw [List.cons_append, resolvePath] at h
  rcases Rule.finds_bind_inv h with ⟨e, he, -⟩ | ⟨found, hfound, h⟩
  · cases hnothing.unique hl he
  · cases hnothing.unique hl hfound
    dsimp only at h
    split at h
    · -- a name of one segment is one that its type is visible under
      rename_i hempty
      obtain ⟨rfl, -⟩ := List.append_eq_nil_iff.1 (List.isEmpty_iff.1 hempty)
      obtain rfl : w.text first = q := Option.some.inj hq
      have htext := (hw.resolveSimple_endsIn hle hs hplain).eq_text hdot
      obtain rfl := NameTable.eq_of_text_eq hfirst hsimple htext
      cases hplain.unique hl hnothing
    · -- any other is looked up by the text that its segments make up
      have hpath : w.canonicalPath none (first :: (more ++ rest)) = w.canonicalPath (some q) rest := by
        rw [← List.cons_append, canonicalPath_append, hq]
      have hsome : (w.canonicalPath (some q) rest).isSome := w.canonicalPath_isSome (.inl rfl)
      obtain ⟨name, hname⟩ := Option.isSome_iff_exists.1 hsome
      rw [hpath, hname] at h
      exact ⟨name, hname, h.pure_inv⟩

end World

/-! ### Mentions of types -/

/-- A mention of a type in a scope: a simple name, under which one may be visible there, or a written
    reference. -/
inductive Mention where
  | simple (name : Name)
  | path (names : List Name)

namespace Mention

/-- What is looked for in a scope. -/
def query (sc : Scope) (place : Span) : Mention → Query (Option ElementId)
  | simple name => resolveSimple directSupertypes sc name
  | path names => some <$> resolveReference directSupertypes ⟨sc, names, place⟩

/-- The rule for it. -/
def rule (w : World) (sc : ScopeView) (place : Span) : Mention → Rule (Option Symbol)
  | simple name => w.resolveSimple sc name
  | path names => some <$> w.resolveReference ⟨sc, names, place⟩

/-- A mention of which all segments are names. -/
def Proper (t : NameTable) : Mention → Prop
  | simple name => t.Proper name
  | path names => names ≠ [] ∧ ∀ n ∈ names, t.Proper n

theorem query_obeys {w : World} {s : Session} (n : Nat) {sc : Scope} {place : Span} {m : Mention}
    (hsc : s.Scoped w sc) (hm : m.Proper w.names) :
    (w.stage n).Obeys s (m.query sc place) (m.rule w sc.view place) (optional shown) := by
  cases m with
  | simple name =>
    exact resolveSimple_obeys (g := w.stage n) (directSupertypes_supplies w n) hsc hm
  | path names =>
    exact (resolveReference_obeys (g := w.stage n) (directSupertypes_supplies w n)
      ⟨hsc, hm.1, hm.2⟩).map fun _ _ _ _ _ h => h

/-- How the rule for a reference goes on from that for its path. -/
theorem finds_path {w : World} {lists : Symbol → List Symbol → Prop} {sc : ScopeView} {place : Span}
    {names : List Name} {y : Except ModelError (Option Symbol)}
    (h : ((path names).rule w sc place).run.Finds lists y) :
    ∃ z, (w.resolvePath sc names).run.Finds lists z ∧
      y = (z.mapError fun e => e.located place).map some := by
  have hbind : (path names).rule w sc place =
      w.resolveReference ⟨sc, names, place⟩ >>= fun symbol => pure (some symbol) := rfl
  rw [hbind] at h
  rcases Rule.finds_bind_inv h with ⟨e, he, rfl⟩ | ⟨symbol, hsymbol, h⟩
  · obtain ⟨z, hz, hy⟩ := World.finds_located he
    exact ⟨z, hz, by rw [← hy]; rfl⟩
  · obtain ⟨z, hz, hy⟩ := World.finds_located hsymbol
    exact ⟨z, hz, by rw [← hy, h.pure_inv]; rfl⟩

end Mention

/-- Types that are mentioned in a scope, looked for one after the other. -/
def readMentions (sc : Scope) (place : Span) (ms : List Mention) :
    SessionM (List (Except ModelError (Option ElementId))) :=
  ms.mapM fun m => (m.query sc place).run

section Session

variable {w : World} {s t : Session} {sc : Scope} {place : Span}

/-- What was found for a mention is what the rule gives, by the lists of a session. -/
def Session.Found (w : World) (sc : Scope) (place : Span) (t : Session) (m : Mention)
    (x : Except ModelError (Option ElementId)) : Prop :=
  ∃ y, (m.rule w sc.view place).run.Finds t.HoldsList y ∧
    outcomes w.provider.Excuses (optional shown) x y t

theorem Session.Found.grow {m : Mention} {x : Except ModelError (Option ElementId)} (hs : s.Sound)
    (h : s.Found w sc place m x) (hg : s.Resolves t) : t.Found w sc place m x := by
  obtain ⟨y, hy, hxy⟩ := h
  exact ⟨y, hy.mono (hg.keepsLists hs), hxy.imp fun _ _ h => h.imp fun _ _ hshow =>
    Session.ShowsType.grow hs hshow hg.toKeeps⟩

/-- **A session finds what the rules give** for each mention, by the lists that it holds in the end. -/
theorem readMentions_found (place : Span) {ms : List Mention} (hs : s.Idle w)
    (hsc : s.Scoped w sc) (hms : ∀ m ∈ ms, m.Proper w.names) :
    ∃ xs t, (readMentions sc place ms).run.run s = (.ok xs, t) ∧ t.Idle w ∧ s.Resolves t ∧
      List.Forall₂ (t.Found w sc place) ms xs := by
  induction ms generalizing s with
  | nil => exact ⟨[], s, rfl, hs, .refl s, .nil⟩
  | cons m ms ih =>
    obtain ⟨hm, hms⟩ := List.forall_mem_cons.1 hms
    have hobeys : ∀ n, (w.stage n).Follows s (m.query sc place).run (m.rule w sc.view place).run
        (outcomes w.provider.Excuses (optional shown)) := fun n => Mention.query_obeys n hsc hm
    obtain ⟨_, t, hrun, ht, hg, x, rfl, y, hxy, hy⟩ :=
      Stage.Follows.settled hobeys hs.making hs.resolved
    have hsc' : t.Scoped w sc := fun level hl => (hsc level hl).grow hs.resolved.sound hg.toKeeps
    obtain ⟨xs, u, hruns, hu, hg', hfound⟩ := ih (hs.resolves ht hg) hsc' hms
    have hcons : (readMentions sc place (m :: ms)).run.run s = (.ok (x :: xs), u) := by
      unfold readMentions at hruns ⊢
      rw [List.mapM_cons]
      exact (SessionM.run_bind hrun).trans ((SessionM.run_bind hruns).trans rfl)
    have hx : t.Found w sc place m x := ⟨y, hy.held, hxy⟩
    exact ⟨x :: xs, u, hcons, hu, hg.trans hg', .cons (hx.grow ht.sound hg') hfound⟩

/-- The name of a type that has an element can be looked up. -/
theorem Session.Resolved.lookup_shown (hs : s.Resolved w) {name : String} {id : ElementId}
    (h : s.Shows (.type name) id) : w.lookup name = .ok (.type name) := by
  obtain ⟨key, hd, hkey⟩ := h
  cases key with
  | type n =>
    obtain rfl := Symbol.type.inj hkey
    have hlookup := hs.of.lookup hs.world n
    rw [← hs.sound.outcome _ _ hd] at hlookup
    exact hlookup
  | _ => cases hkey

/-- A declared type that was found. -/
theorem Session.Found.type {m : Mention} {id : ElementId}
    (h : t.Found w sc place m (.ok (some id))) :
    ∃ symbol, (m.rule w sc.view place).run.Finds t.HoldsList (.ok (some symbol)) ∧
      t.ShowsType symbol id := by
  obtain ⟨y, hy, hxy⟩ := h
  match y, hxy with
  | .ok (some symbol), hshow => exact ⟨symbol, hy, hshow⟩

theorem Session.Found.nothing {m : Mention} (h : t.Found w sc place m (.ok none)) :
    (m.rule w sc.view place).run.Finds t.HoldsList (.ok none) := by
  obtain ⟨y, hy, hxy⟩ := h
  match y, hxy with
  | .ok none, _ => exact hy

section Qualified

variable {base : NameTable} {simple first : Name} {more rest : List Name} {q : String}
  {id : ElementId}

/-- **A type written in full is looked up by its name**, where the first segment is no type. -/
theorem Session.Resolved.spelled_out (rest : List Name) (hs : t.Resolved w) (hw : w.Indexed base)
    (hle : base.Le w.names) (hsimple : w.names.Issued simple) (hfirst : w.names.Issued first)
    (hdot : '.' ∉ (w.text first).toList) (hq : w.canonicalPath none (first :: more) = some q)
    (hplain : t.Found w sc place (.simple simple) (.ok (some id))) (hid : t.ShowsType (.type q) id)
    (hnothing : t.Found w sc place (.simple first) (.ok none)) :
    ∃ name, w.canonicalPath (some q) rest = some name ∧
      ∀ x, t.Found w sc place (.path (first :: more ++ rest)) x →
        ∀ e, x = .ok (some e) ↔ t.ShowsType (.type name) e := by
  have hunique : ∀ symbol l l', t.HoldsList symbol l → t.HoldsList symbol l' → l = l' :=
    fun _ _ _ h h' => h.unique hs.sound h'
  obtain ⟨symbol, hsymbol, hshow⟩ := hplain.type
  obtain rfl := hshow.shows.unique hs.sound hid.shows
  have hsome : (w.canonicalPath (some q) rest).isSome := w.canonicalPath_isSome (.inl rfl)
  obtain ⟨name, hname⟩ := Option.isSome_iff_exists.1 hsome
  refine ⟨name, hname, fun x ⟨y, hy, hxy⟩ e => ?_⟩
  obtain ⟨z, hz, rfl⟩ := Mention.finds_path hy
  -- The first segment is no type, so the path is looked up by its whole text.
  obtain ⟨name', hname', rfl⟩ := hw.resolvePath_spelled hle hs.world hunique hsimple hfirst hdot hq
    hsymbol hnothing.nothing hz
  cases hname.symm.trans hname'
  constructor
  · rintro rfl
    cases hlookup : w.lookup name with
    | ok symbol =>
      rw [hlookup] at hxy
      exact World.lookup_eq hlookup ▸ hxy
    | error error =>
      rw [hlookup] at hxy
      exact hxy.elim
  · -- What the name shows has been looked up before, with this outcome.
    intro he
    rw [hs.lookup_shown he.shows] at hxy
    match x, hxy with
    | .ok (some e'), hshow => rw [Session.Shows.functional hs.sound hshow.shows he.shows]

/-- **Member types that are declared are found by the name in full** that they are found by below the
    simple name. -/
theorem Session.Resolved.shown_below (hs : t.Resolved w) (hw : w.Indexed base)
    (hle : base.Le w.names) (hplain : t.Found w sc place (.simple simple) (.ok (some id)))
    (hid : t.ShowsType (.type q) id) (hdeclares : w.DeclaresPath (.type q) rest) {e : ElementId}
    (hwritten : t.Found w sc place (.path (simple :: rest)) (.ok (some e))) :
    ∃ name, w.canonicalPath (some q) rest = some name ∧ t.ShowsType (.type name) e := by
  obtain ⟨symbol, hsymbol, hshow⟩ := hplain.type
  obtain rfl := hshow.shows.unique hs.sound hid.shows
  obtain ⟨member, hmember, hshow'⟩ := hwritten.type
  obtain ⟨z, hz, heq⟩ := Mention.finds_path hmember
  cases z with
  | error error => cases heq
  | ok found =>
    cases heq
    rw [World.resolvePath] at hz
    rcases Rule.finds_bind_inv hz with ⟨_, -, herror⟩ | ⟨found, hfound, hz⟩
    · cases herror
    · obtain rfl := Except.ok.inj
        (Inquiry.Finds.unique (fun _ _ _ h h' => h.unique hs.sound h') hfound hsymbol)
      obtain ⟨name, hname, rfl⟩ := hw.foldlM_declared hle hdeclares hz
      exact ⟨name, hname, hshow'⟩

end Qualified

end Session

/-! ### Clients -/

namespace Client

section Asked

variable (token : SessionToken) (files : Batch) (provider : Provider) (config : ModelConfig)
  {table : NameTable} (htable : (parseBatch files).2.1.Le table)

include htable

theorem trees_startWith :
    ∀ u ∈ (startWith token files provider config table).session.world.units, u.Sound table False :=
  fun u hu => (parseBatch_sound files u hu).weaken htable False.elim

/-- The index records the batch, also with more names. -/
theorem indexed_startWith :
    (startWith token files provider config table).session.world.Indexed table where
  settled :=
    (DeclIndex.settled_ofUnits (trees_startWith token files provider config htable)
      (parseBatch_fields files).1).le (WellKnown.issued_ofConfig config _).1
  trees := trees_startWith token files provider config htable
  named := (parseBatch_fields files).1

theorem names_startWith :
    table.Le (startWith token files provider config table).session.world.names :=
  (DeclIndex.sound_ofUnits (trees_startWith token files provider config htable)).1.trans
    (WellKnown.issued_ofConfig config _).1

/-- **Qualified names.** After any questions, types are mentioned in a scope, in any order. Let a simple
    name have been found as the type of a canonical name, and nothing for the first segment of this
    name. A reference to the name in full, and to more segments after it, finds the type of the name
    that all of them make up, and no other type; it finds what the simple name and the same segments
    after it refer to, if each of them names a member type that the type before it declares. -/
theorem qualified_name (questions : List Question) (sc : Scope) (place : Span) (ms : List Mention) :
    let c : Client := startWith token files provider config table
    let w : World := c.session.world
    let s : Session := (c.askAll questions).session
    s.HasScope sc → (∀ m ∈ ms, m.Proper w.names) →
      ∃ xs t, (readMentions sc place ms).run.run s = (.ok xs, t) ∧ xs.length = ms.length ∧
        ∀ (simple first : Name) (more rest : List Name) (q : String) (id : ElementId),
          '.' ∉ (w.text first).toList → w.canonicalPath none (first :: more) = some q →
          (.simple simple, .ok (some id)) ∈ ms.zip xs → t.ShowsType (.type q) id →
          (.simple first, .ok none) ∈ ms.zip xs →
            ∃ name, w.canonicalPath (some q) rest = some name ∧
              ∀ x, (.path (first :: more ++ rest), x) ∈ ms.zip xs →
                (∀ e, x = .ok (some e) ↔ t.ShowsType (.type name) e) ∧
                (w.DeclaresPath (.type q) rest →
                  ∀ e, (.path (simple :: rest), .ok (some e)) ∈ ms.zip xs → x = .ok (some e)) := by
  intro c w s hscope hms
  have hidle : s.Idle w :=
    (fits_askAll (fits_startWith token files provider config htable) questions).1.idle
  have hw : w.Indexed table := indexed_startWith token files provider config htable
  have hle : table.Le w.names := names_startWith token files provider config htable
  obtain ⟨xs, t, hrun, ht, -, hall⟩ :=
    readMentions_found place hidle (hscope.scoped hidle.resolved) hms
  refine ⟨xs, t, hrun, hall.length_eq.symm, ?_⟩
  intro simple first more rest q id hdot hq hplain hid hnothing
  -- Each mention is answered as the rules say, for the session that has answered all of them.
  have hfound : ∀ m x, (m, x) ∈ ms.zip xs → t.Found w sc place m x := fun m x hmx =>
    (List.forall₂_iff_zip.1 hall).2 hmx
  have hissued : ∀ n x, (.simple n, x) ∈ ms.zip xs → w.names.Issued n := fun n x hmx =>
    (hms _ (List.of_mem_zip hmx).1).1
  obtain ⟨name, hname, hspelled⟩ := ht.resolved.spelled_out rest hw hle
    (hissued _ _ hplain) (hissued _ _ hnothing) hdot hq (hfound _ _ hplain) hid
    (hfound _ _ hnothing)
  refine ⟨name, hname, fun x hx => ⟨hspelled x (hfound _ _ hx), fun hdeclares e hwritten => ?_⟩⟩
  obtain ⟨name', hname', he⟩ := ht.resolved.shown_below hw hle (hfound _ _ hplain) hid hdeclares
    (hfound _ _ hwritten)
  cases hname.symm.trans hname'
  exact (hspelled x (hfound _ _ hx) e).2 he

end Asked

/-- A class that inherits a member type. -/
def inheriting : Batch :=
  #[⟨"A.java", "package p; class A { class X {} } class B extends A { B.X f; p.B.X g; }"⟩]

/-- A new client for it. -/
def inheritingStart : Client :=
  startWith 0 inheriting onlyObject {} (parseBatch inheriting).2.1

/-- The session after the class was looked up. -/
def inheritingAsked : Session := (inheritingStart.askAll [.lookupType "p.B"]).session

/-- A name of the batch. -/
def inheritingName (text : String) : Name := ((parseBatch inheriting).2.1.intern text).1

/-- The member type in the class that declares it or inherits it, by its simple name and in full. -/
def memberMentions (owner : String) : List Mention :=
  [.simple (inheritingName owner), .simple (inheritingName "p"),
    .path [inheritingName owner, inheritingName "X"],
    .path [inheritingName "p", inheritingName owner, inheritingName "X"]]

/-- The inside of the class is a scope. -/
theorem inheriting_scope : inheritingAsked.HasScope ⟨0, [(2, 1)], false⟩ := by
  have hidle : inheritingAsked.Idle _ :=
    (fits_askAll (fits_startWith 0 inheriting onlyObject {} (.refl _)) _).1.idle
  obtain ⟨r, hrun, -⟩ := run_scopeOf hidle.resolved 1
  have heq : ((scopeOf 1).run.run.run inheritingAsked).1 = .ok (.ok ⟨0, [(2, 1)], false⟩) := by
    decide +kernel
  exact ⟨1, .inl (hrun.trans (Prod.ext (by rw [← heq, hrun]) rfl))⟩

/-- The names of the batch, and those that they make up. -/
theorem inheriting_names :
    let w : World := inheritingStart.session.world
    (∀ text ∈ ["A", "X", "p"], w.names.resolve? (inheritingName text) = some text ∧
        inheritingName text ≠ .empty) ∧
      '.' ∉ (w.text (inheritingName "p")).toList ∧
      w.canonicalPath none [inheritingName "p", inheritingName "A"] = some "p.A" ∧
      w.canonicalPath (some "p.A") [inheritingName "X"] = some "p.A.X" ∧
      w.Declares (inheritingName "X") (.type "p.A") (.type "p.A.X") := by
  unfold World.Declares
  decide +kernel

/-- In the class that inherits the member type, its name in the class that declares it finds it. -/
theorem qualified_name_declared :
    let w : World := inheritingStart.session.world
    let ms := memberMentions "A"
    inheritingAsked.HasScope ⟨0, [(2, 1)], false⟩ ∧ (∀ m ∈ ms, m.Proper w.names) ∧
      '.' ∉ (w.text (inheritingName "p")).toList ∧
      w.canonicalPath none [inheritingName "p", inheritingName "A"] = some "p.A" ∧
      w.DeclaresPath (.type "p.A") [inheritingName "X"] ∧
      ∃ t e, (readMentions ⟨0, [(2, 1)], false⟩ ⟨none, 0, 0⟩ ms).run.run inheritingAsked =
          (.ok [.ok (some 2), .ok none, .ok (some e), .ok (some e)], t) ∧
        t.ShowsType (.type "p.A") 2 ∧ t.ShowsType (.type "p.A.X") e := by
  intro w ms
  have hscope := inheriting_scope
  obtain ⟨hnames, hdot, hq, hspelled, hmember⟩ := inheriting_names
  have hname : ∀ text ∈ ["A", "X", "p"], w.names.Proper (inheritingName text) := fun text htext =>
    ⟨⟨text, (hnames text htext).1⟩, (hnames text htext).2⟩
  obtain ⟨ha, hx, hp, -⟩ : _ ∧ _ ∧ _ ∧ _ := by simpa only [List.forall_mem_cons] using hname
  have hms : ∀ m ∈ ms, m.Proper w.names := by
    refine List.forall_mem_cons.2 ⟨ha, List.forall_mem_cons.2 ⟨hp, List.forall_mem_cons.2 ⟨?_, ?_⟩⟩⟩
    · exact ⟨nofun, by simp [ha, hx]⟩
    · exact List.forall_mem_singleton.2 ⟨nofun, by simp [ha, hx, hp]⟩
  have hdeclares : w.DeclaresPath (.type "p.A") [inheritingName "X"] := ⟨_, hmember, trivial⟩
  obtain ⟨xs, t, hrun, -, h⟩ := qualified_name 0 inheriting onlyObject {} (.refl _)
    [.lookupType "p.B"] ⟨0, [(2, 1)], false⟩ ⟨none, 0, 0⟩ ms hscope hms
  -- The session that has read the names is evaluated; the theorem says what its answers mean.
  have hevaluated :
      let r := (readMentions ⟨0, [(2, 1)], false⟩ ⟨none, 0, 0⟩ ms).run.run inheritingAsked
      r.1 = .ok [.ok (some 2), .ok none, .ok (some 5), .ok (some 5)] ∧
        r.2.Denotes (.type ⟨7⟩) 2 ∧ (ElementKey.type ⟨7⟩).symbol r.2.names = .type "p.A" := by
    unfold Session.Denotes
    decide +kernel
  change (readMentions _ _ ms).run.run inheritingAsked = _ at hrun
  rw [hrun] at hevaluated
  obtain ⟨hxs, hdenotes, hsymbol⟩ := hevaluated
  cases hxs
  have hshow : t.ShowsType (.type "p.A") 2 := ⟨⟨_, hdenotes, hsymbol⟩, trivial⟩
  obtain ⟨name, hname, hfull⟩ := h (inheritingName "A") (inheritingName "p") [inheritingName "A"]
    [inheritingName "X"] "p.A" 2 hdot hq (by simp [ms, memberMentions]) hshow
    (by simp [ms, memberMentions])
  obtain rfl := Option.some.inj (hname.symm.trans hspelled)
  obtain ⟨hall, hsame⟩ := hfull (.ok (some 5)) (by simp [ms, memberMentions])
  exact ⟨hscope, hms, hdot, hq, hdeclares, t, 5, hrun, hshow,
    (hall 5).1 (hsame hdeclares 5 (by simp [ms, memberMentions]))⟩

/-- In the class that inherits the member type, its name in this class does not, though the class is
    the one that is visible by its simple name. -/
theorem inherited_member_in_full :
    let r := (readMentions ⟨0, [(2, 1)], false⟩ ⟨none, 0, 0⟩ (memberMentions "B")).run.run
      inheritingAsked
    inheritingAsked.HasScope ⟨0, [(2, 1)], false⟩ ∧
      inheritingStart.session.world.canonicalPath none [inheritingName "p", inheritingName "B"] =
        some "p.B" ∧
      r.2.ShowsType (.type "p.B") 1 ∧ r.2.ShowsType (.type "p.A.X") 5 ∧
      r.1 = .ok [.ok (some 1), .ok none, .ok (some 5),
        .error (.unknownSymbol "p.B.X" (some ⟨none, 0, 0⟩))] := by
  intro r
  have hevaluated :
      inheritingStart.session.world.canonicalPath none [inheritingName "p", inheritingName "B"] =
          some "p.B" ∧
        (r.2.Denotes (.type ⟨9⟩) 1 ∧ (ElementKey.type ⟨9⟩).symbol r.2.names = .type "p.B") ∧
        (r.2.Denotes (.type ⟨8⟩) 5 ∧ (ElementKey.type ⟨8⟩).symbol r.2.names = .type "p.A.X") ∧
        r.1 = .ok [.ok (some 1), .ok none, .ok (some 5),
          .error (.unknownSymbol "p.B.X" (some ⟨none, 0, 0⟩))] := by
    unfold r Session.Denotes
    decide +kernel
  obtain ⟨hpath, hclass, hmember, hxs⟩ := hevaluated
  exact ⟨inheriting_scope, hpath, ⟨⟨_, hclass⟩, trivial⟩, ⟨⟨_, hmember⟩, trivial⟩, hxs⟩

end Client

end JavaAbi
