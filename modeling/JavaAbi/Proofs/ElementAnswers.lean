import JavaAbi.Proofs.OwnTypes

namespace JavaAbi

/-!
# Supertypes of elements follow the rules

The superclass and the interfaces of an element, and what it encloses. Whatever was asked before, the
first answer is the one that the rules settle, and it is kept.

* `superclassOf_honours`, `interfacesOf_honours` — the supertypes of an element;
* `enclosedOf_answers` — what it encloses.
-/

open Course Stage

variable {w : World} {s : Session}

/-! ### What elements are made from -/

namespace Session

/-- What the element of a symbol is made from: a declaration, a descriptor, or no type at all. -/
inductive MadeFrom (w : World) (s : Session) (symbol : Symbol) (id : ElementId) (e : Element) : Prop
  | tree {d : DeclId} {i : DeclInfo} {tree : TypeDecl} (decl : w.declOf? symbol = some d)
      (denotes : s.Denotes (s.index.keyOf d) id) (isTree : s.IsTree id d i tree e)
  | described {n : Name} {d : Descriptor} (undeclared : w.declOf? symbol = none)
      (descriptor : w.descriptorOf? symbol = some d) (isDescribed : s.IsDescribed id n d e)
  | other (notType : ¬symbol.IsType) (kind : e.kind.isType = false)
      (source : e.source = .package ∨ (∃ type, e.source = .field type) ∨
        ∃ body, e.source = .constant body)

theorem Shows.madeFrom {symbol : Symbol} {id : ElementId} {e : Element} (hs : s.Resolved w)
    (h : s.Shows symbol id) (he : s.elements.get? id = some e) : s.MadeFrom w symbol id e := by
  cases hd : w.declOf? symbol with
  | some d =>
    obtain ⟨hp, -, hden⟩ := h.tree hs.world hs.sound hs.of hd
    obtain ⟨i, tree, e', htree⟩ := hs.sound.isTree hp hden
    cases he.symm.trans htree.get
    exact .tree hd hden htree
  | none =>
    have hsymbol := h
    obtain ⟨key, hden, rfl⟩ := h
    obtain ⟨e', he', hdesc, -⟩ := hs.sound.element key id hden
    cases he.symm.trans he'
    cases key with
    | type n =>
      obtain ⟨m, d, e', htext, -, hdesc⟩ := hsymbol.described hs.world hs.sound hs.of hd
      cases he.symm.trans hdesc.get
      -- No declaration has the name, so the provider is asked.
      refine .described hd ?_ hdesc
      have hanswer := hdesc.answer
      rw [htext, hs.of.provider] at hanswer
      show (if (w.find? _).isSome then none else w.provider.resolve? _) = some d
      rw [if_neg (by rw [show w.find? (s.names.text n) = none from hd]; nofun)]
      exact hanswer
    | unnamed d => cases hd
    | package n =>
      obtain ⟨simple, -, hb⟩ := hdesc.package_inv
      refine .other (fun h => h) ?_ (.inl (congrArg Element.source hb))
      rw [show e.kind = .package from congrArg Element.kind hb]
      rfl
    | field d m v =>
      obtain ⟨f, v, owner, -, -, -, hb⟩ := hdesc.field_inv
      refine .other (fun h => h) ?_ (.inr (.inl ⟨_, congrArg Element.source hb⟩))
      rw [show e.kind = .field from congrArg Element.kind hb]
      rfl
    | constant d m =>
      obtain ⟨_, _, _, _, -, -, hb⟩ := hdesc.constant_inv
      refine .other (fun h => h) ?_ (.inr (.inr ⟨_, congrArg Element.source hb⟩))
      rw [show e.kind = .enumConstant from congrArg Element.kind hb]
      rfl

end Session

theorem Symbol.undeclared (w : World) {symbol : Symbol} (h : ¬symbol.IsType) :
    w.declOf? symbol = none ∧ w.descriptorOf? symbol = none := by
  cases symbol with
  | type _ | unnamed _ => exact absurd trivial h
  | _ => exact ⟨rfl, rfl⟩

/-! ### Types of canonical names -/

/-- The type of a name, of which the error is given its place. -/
theorem locatedType_honours {excused : ModelError → Prop} {n : Name} {place : Span}
    (hn : s.names.Issued n) (hx : ∀ e, w.provider.Excuses e → excused e) :
    w.Honours s (tryCatch (findType n) fun e => throw (e.located place))
      (tryCatch (Rule.ofExcept (w.lookup (s.names.text n))) fun e => throw (e.located place))
      excused shown := by
  have hfind : w.Honours s (findType n) (Rule.ofExcept (w.lookup (s.names.text n)))
      w.provider.Excuses shown := .of_obeys fun k => findType_obeys (g := w.stage k) hn
  refine World.Honours.mono (hfind.handle fun e t _ _ he => ?_) hx fun _ _ _ _ _ h => h
  exact .throw (he.located place)

theorem plainTypeOf_honours {excused : ModelError → Prop} {n : Name} {place : Span}
    (hn : s.names.Issued n) (hx : ∀ e, w.provider.Excuses e → excused e) :
    w.Honours s (plainTypeOf place n) (w.plainType place (s.names.text n)) excused (viewed w) := by
  unfold plainTypeOf World.plainType
  refine (locatedType_honours hn hx).bind fun id symbol t ht _ hshow => .read (.pure fun _ => ?_)
  refine ⟨⟨rfl, ⟨symbol, hshow⟩, trivial, trivial⟩, ?_⟩
  show TypeView.declared (.known (t.symbolAt id)) [] .absent = _
  rw [Session.symbolAt_eq ht.resolved hshow]
  rfl

/-- The same for a name that the batch knows. -/
theorem plainName_honours {excused : ModelError → Prop} {n : Name} {place : Span}
    (hn : w.names.Issued n) (hx : ∀ e, w.provider.Excuses e → excused e) :
    w.Honours s (plainTypeOf place n) (w.plainType place (w.text n)) excused (viewed w) := by
  refine .sound fun hs => ?_
  rw [← hs.resolved.of.text hn]
  exact plainTypeOf_honours (hn.le hs.resolved.of.names) hx

/-- The same for a name as text. -/
theorem plainText_honours {excused : ModelError → Prop} {place : Span} (name : String)
    (hx : ∀ e, w.provider.Excuses e → excused e) :
    w.Honours s (do plainTypeOf place (← internName name)) (w.plainType place name) excused
      (viewed w) := by
  refine .after (internName_ends name).resolving.asking fun n t _ _ hn => ?_
  rw [← NameTable.text_eq hn]
  exact plainTypeOf_honours ⟨name, hn⟩ hx

/-! ### Written supertypes -/

/-- **A supertype clause is read and resolved as the rules say.** -/
theorem resolveSupertype_honours {excused : ModelError → Prop} {sc : Scope} {written : TypeRef}
    (hsc : s.Scoped w sc) (ht : written.Sound w.names)
    (hx : ∀ e, w.provider.Excuses e → excused e)
    (herror : written.isError = true → excused .unparsableSupertype) :
    w.Honours s (resolveSupertype sc written) (w.supertype sc.view written) excused
      (viewed w) := by
  unfold resolveSupertype World.supertype
  refine .lift (typeOf_heeds hsc ht) fun type v t ht hg hheld => ?_
  have hresolve : w.Honours t
      (do
        let _ ← elementOfType type
        return type)
      (do
        let _ ← w.resolveType v
        return v) excused (viewed w) := by
    have helement := elementOfType_honours (s := t) hheld.holds
    rw [hheld.view] at helement
    refine (helement.mono hx fun _ _ _ _ _ h => h).bind fun _ _ u hu hg' _ => .pure fun _ => ?_
    exact Session.viewed_learn ht.resolved hu.resolved ⟨hheld.holds, hheld.view⟩ hg'
  obtain ⟨hholds, rfl, hcell, hfault⟩ := hheld
  cases type with
  | error => exact .throw (herror (hfault rfl))
  | _ => exact hresolve

/-! ### The superclass -/

section Superclass

variable {id : ElementId} {e : Element} {d : DeclId} {i : DeclInfo} {tree : TypeDecl}

/-- The type of a name of the batch, as one of an enum's superclass. -/
theorem enumSuperclass_honours {excused : ModelError → Prop} (he : s.IsTree id d i tree e)
    (hd : s.Denotes (s.index.keyOf d) id) (hx : ∀ e, w.provider.Excuses e → excused e)
    (hn : w.names.Issued w.wellKnown.enumBase) :
    w.Honours s (enumSuperclass s.wellKnown.enumBase i.nameSpan id)
      (do
        let base ← tryCatch (Rule.ofExcept (w.lookup (w.text w.wellKnown.enumBase))) fun e =>
          throw (e.located i.nameSpan)
        return .declared (.known base) [w.declaredType d] .absent) excused (viewed w) := by
  refine .sound fun hs => ?_
  have hr := hs.resolved
  rw [hr.of.wellKnown, ← hr.of.text hn]
  refine (locatedType_honours (hn.le hr.of.names) hx).bind fun base symbol t ht hg hshow => ?_
  have hlevel := (hr.level he.primary hd).2.grow hr.sound hg.toKeeps
  refine .after (ownType_ends hlevel.shows) fun own u hu hg' hown => .read (.pure fun _ => ?_)
  have hp : u.index.Primary d := (hg.toKeeps.trans hg'.toKeeps).index ▸ he.primary
  have hview := hown.declared hu.resolved hp
  have hshow' := Session.ShowsType.grow ht.resolved.sound hshow hg'.toKeeps
  refine ⟨⟨rfl, ⟨symbol, hshow'⟩, ⟨hview.1, trivial⟩, trivial⟩, ?_⟩
  show TypeView.declared (.known (u.symbolAt base)) [u.view own] .absent = _
  rw [Session.symbolAt_eq hu.resolved hshow', hview.2]

/-- The superclass of the body of a constant is its enum. -/
theorem bodySuperclass_honours {excused : ModelError → Prop} (he : s.IsTree id d i tree e)
    (hc : i.constant.isSome) :
    w.Honours s (bodySuperclass e.enclosing)
      (match i.parent with
        | some p => return w.declaredType p
        | none => throw .bodyOutsideEnum) excused (viewed w) := by
  refine .sound fun hs => ?_
  have hr := hs.resolved
  obtain ⟨m, hm⟩ := Option.isSome_iff_exists.1 hc
  obtain ⟨p, -, -, -, -, -, hparent, -⟩ := (hr.sound.index.infos d i he.info).constant m hm
  have haround := he.around hr.sound
  generalize e.enclosing = enc at haround
  cases haround with
  | nothing hnone | package hnone => cases hparent.symm.trans hnone
  | type _ hnone => cases hm.symm.trans hnone
  | constant hparent' _ hget _ _ howner hden _ =>
    have hpp := he.primary.parent hr.sound.index he.info hparent'
    rw [hparent']
    refine .reads (reads_elementAt hget) ?_
    rw [howner]
    exact .ends (ownType_ends (hr.level hpp hden).2.shows) fun own t ht hg hown =>
      hown.declared ht.resolved (hg.toKeeps.index ▸ hpp)

/-- **The superclass of a declaration.** -/
theorem treeSuperclass_honours {excused : ModelError → Prop} (he : s.IsTree id d i tree e)
    (hd : s.Denotes (s.index.keyOf d) id) (hx : ∀ e, w.provider.Excuses e → excused e)
    (herror : ∀ r ∈ tree.head.extended ++ tree.head.implemented, r.isError = true →
      excused .unparsableSupertype) :
    w.Honours s (computeSuperclass id e) (w.declaredSuperclass d i tree.head) excused
      (viewed w) := by
  refine .sound fun hs => ?_
  have hr := hs.resolved
  have hspan : e.span = some i.nameSpan := congrArg Element.span he.bare
  have hwk := hr.world.wellKnown
  have hhead := (DeclIndex.sound_of_tree? hr.world.trees (he.tree_world hr.of)).head
  unfold computeSuperclass World.declaredSuperclass
  rw [he.kind, hspan, he.source, he.qualifiedName]
  dsimp only [Option.getD_some]
  refine .ite ?_ (fun _ => .pure fun _ => ⟨trivial, rfl⟩) fun _ => .read ?_
  · cases tree.head.kind <;> decide
  refine .ite Iff.rfl (bodySuperclass_honours he) fun hconstant => ?_
  refine .ite ?_ (fun _ => enumSuperclass_honours he hd hx hwk.enumBase) fun _ => ?_
  · cases tree.head.kind <;> decide
  refine .ite ?_ (fun _ => ?_) fun _ => ?_
  · cases tree.head.kind <;> decide
  · rw [hr.of.wellKnown]
    exact plainName_honours hwk.recordBase hx
  rw [hr.of.wellKnown]
  refine .ite Iff.rfl (fun _ => .pure fun _ => ⟨trivial, rfl⟩) fun _ => ?_
  dsimp only [Session.shapeOf]
  cases hext : tree.head.extended with
  | nil => exact plainName_honours hwk.rootObject hx
  | cons written rest =>
    have hmem : written ∈ tree.head.extended ++ tree.head.implemented := by
      rw [hext]
      exact List.mem_cons_self
    -- The clause is read in the scope of the header.
    obtain ⟨sc, hreads, hview, hscoped⟩ := reads_headerScopeOf hr he.primary hd
    rw [← hview]
    refine .reads_ok (q := headerScopeOf id) hreads ?_
    exact resolveSupertype_honours hscoped (hhead.supertypes written hmem) hx
      (herror written hmem)

/-- The superclass of a precompiled type. -/
theorem describedSuperclass_honours {excused : ModelError → Prop} {n : Name} {desc : Descriptor}
    (he : s.IsDescribed id n desc e) (hx : ∀ e, w.provider.Excuses e → excused e) :
    w.Honours s (computeSuperclass id e)
      (if desc.kind = .interfaceType || desc.kind = .annotationType then return .absent
      else
        match desc.superclass with
        | some name => w.plainType .nowhere name
        | none => return .absent) excused (viewed w) := by
  obtain ⟨simple, params, -, -, hb⟩ := he.bare
  unfold computeSuperclass
  rw [show e.kind = .ofDecl desc.kind from congrArg Element.kind hb,
    show e.span = none from congrArg Element.span hb, he.source]
  refine .ite ?_ (fun _ => .pure fun _ => ⟨trivial, rfl⟩) fun _ => .read ?_
  · cases desc.kind <;> decide
  dsimp only
  cases desc.superclass with
  | some name => exact plainText_honours name hx
  | none => exact .pure fun _ => ⟨trivial, rfl⟩

/-- **The superclass of an element.** -/
theorem computeSuperclass_honours {symbol : Symbol} (hshow : s.Shows symbol id)
    (he : s.elements.get? id = some e) :
    w.Honours s (computeSuperclass id e) (w.superclassOf symbol) (w.ExcusesOf symbol)
      (viewed w) := by
  refine .sound fun hs => ?_
  have hr := hs.resolved
  unfold World.superclassOf
  cases hshow.madeFrom hr he with
  | tree decl denotes htree =>
    rw [decl]
    dsimp only
    rw [htree.info_world hr.of, htree.tree_world hr.of]
    exact treeSuperclass_honours htree denotes (fun _ => .inl) fun r hmem herror =>
      .inr ⟨rfl, _, _, decl, htree.tree_world hr.of, r, hmem, herror⟩
  | described undeclared descriptor hdesc =>
    rw [undeclared, descriptor]
    exact describedSuperclass_honours hdesc fun _ => .inl
  | other notType kind source =>
    have hnone := Symbol.undeclared w notType
    rw [hnone.1, hnone.2]
    unfold computeSuperclass
    rw [kind, Bool.not_false, Bool.or_true, if_pos rfl]
    exact .pure fun _ => ⟨trivial, rfl⟩

end Superclass

/-! ### The interfaces -/

section Interfaces

variable {id : ElementId} {e : Element} {d : DeclId} {i : DeclInfo} {tree : TypeDecl}

/-- **The interfaces of a declaration.** -/
theorem treeInterfaces_honours {excused : ModelError → Prop} (he : s.IsTree id d i tree e)
    (hd : s.Denotes (s.index.keyOf d) id) (hx : ∀ e, w.provider.Excuses e → excused e)
    (herror : ∀ r ∈ tree.head.extended ++ tree.head.implemented, r.isError = true →
      excused .unparsableSupertype) :
    w.Honours s (computeInterfaces id e) (w.declaredInterfaces d i tree.head) excused
      (viewedAll w) := by
  refine .sound fun hs => ?_
  have hr := hs.resolved
  have hspan : e.span = some i.nameSpan := congrArg Element.span he.bare
  have hwk := hr.world.wellKnown
  have hhead := (DeclIndex.sound_of_tree? hr.world.trees (he.tree_world hr.of)).head
  unfold computeInterfaces World.declaredInterfaces
  rw [he.kind, hspan, he.source]
  dsimp only [Option.getD_some]
  -- The clauses differ only in which references they consist of.
  have hwritten : ∀ written : List TypeRef,
      (∀ r ∈ written, r ∈ tree.head.extended ++ tree.head.implemented) →
      w.Honours s
        (if written.isEmpty then return [] else do written.mapM (resolveSupertype (← headerScopeOf id)))
        (written.mapM (w.supertype (w.headerScopeOf d))) excused (viewedAll w) := by
    intro written hmem
    cases hw : written with
    | nil =>
      rw [List.mapM_nil]
      exact .pure fun _ => .nil
    | cons first rest =>
      obtain ⟨sc, hreads, hview, hscoped⟩ := reads_headerScopeOf hr he.primary hd
      rw [← hview]
      refine .reads_ok (q := headerScopeOf id) hreads ?_
      refine .mapM (fun _ _ t u ht hu hg h => Session.viewed_learn ht.resolved hu.resolved h hg) ?_
      intro r hr' t ht
      have hr'' := hmem r (hw ▸ hr')
      exact resolveSupertype_honours (hscoped.grow hr.sound ht.toKeeps) (hhead.supertypes r hr'') hx
        (herror r hr'')
  refine .ite ?_ (fun _ => .read ?_) fun _ => ?_
  · cases tree.head.kind <;> decide
  · rw [hr.of.wellKnown]
    exact (plainName_honours hwk.annotationBase hx).bind fun type v t ht hg h =>
      .pure fun _ => .cons h .nil
  · have hkind : (ElementKind.ofDecl tree.head.kind = .interfaceType) =
        (tree.head.kind = .interfaceType) := by
      cases tree.head.kind <;> decide
    simp only [hkind]
    split
    · -- Interfaces extend interfaces, all other types implement them.
      exact hwritten _ fun r h => List.mem_append_left _ h
    · exact hwritten _ fun r h => List.mem_append_right _ h

/-- The interfaces of a precompiled type. -/
theorem describedInterfaces_honours {excused : ModelError → Prop} {n : Name} {desc : Descriptor}
    (he : s.IsDescribed id n desc e) (hx : ∀ e, w.provider.Excuses e → excused e) :
    w.Honours s (computeInterfaces id e) (desc.interfaces.mapM (w.plainType .nowhere)) excused
      (viewedAll w) := by
  obtain ⟨simple, params, -, -, hb⟩ := he.bare
  unfold computeInterfaces
  rw [show e.span = none from congrArg Element.span hb, he.source]
  exact .mapM (fun _ _ t u ht hu hg h => Session.viewed_learn ht.resolved hu.resolved h hg)
    fun name _ t _ => plainText_honours name hx

/-- **The interfaces of an element.** -/
theorem computeInterfaces_honours {symbol : Symbol} (hshow : s.Shows symbol id)
    (he : s.elements.get? id = some e) :
    w.Honours s (computeInterfaces id e) (w.interfacesOf symbol) (w.ExcusesOf symbol)
      (viewedAll w) := by
  refine .sound fun hs => ?_
  have hr := hs.resolved
  unfold World.interfacesOf
  cases hshow.madeFrom hr he with
  | tree decl denotes htree =>
    rw [decl]
    dsimp only
    rw [htree.info_world hr.of, htree.tree_world hr.of]
    exact treeInterfaces_honours htree denotes (fun _ => .inl) fun r hmem herror =>
      .inr ⟨rfl, _, _, decl, htree.tree_world hr.of, r, hmem, herror⟩
  | described undeclared descriptor hdesc =>
    rw [undeclared, descriptor]
    exact describedInterfaces_honours hdesc fun _ => .inl
  | other notType kind source =>
    have hnone := Symbol.undeclared w notType
    rw [hnone.1, hnone.2]
    unfold computeInterfaces
    obtain hsource | ⟨type, hsource⟩ | ⟨body, hsource⟩ := source <;> rw [hsource] <;>
      exact .pure fun _ => .nil

end Interfaces

/-! ### Answers that are kept -/

section Kept

variable {α : Type} {id : ElementId} {e : Element} {symbol : Symbol}

/-- **An answer is kept with its element.** -/
theorem keepAnswer_answers {q : Query α} {R : Except ModelError α → Session → Prop}
    {keep : Except ModelError α → Element → Element} (hshow : s.Shows symbol id)
    (he : s.elements.get? id = some e) (hq : (asking w).Answers s q R)
    (hbare : ∀ r e', (keep r e').bare = e'.bare)
    (hkeep : ∀ r t e', t.Recalls w symbol e' → e'.bare = e.bare → R r t →
      t.Recalls w symbol (keep r e'))
    (hgrow : ∀ r t u, t.Resolved w → u.Resolved w → t.Learns w u → R r t → R r u) :
    (asking w).Answers s
      (do
        let r ← Query.attempt q
        updateElement id (keep r)
        Query.ofExcept r) R := by
  refine .sound fun hs => Answers.attempt hq fun r t ht hg hr => ?_
  obtain ⟨e', he', hb⟩ := hg.elements id e he
  have hshow' := hshow.grow hs.resolved.sound hg.toKeeps
  have hupdate := updateElement_ends (w := w) he' (hbare r e') fun other hother => by
    obtain rfl := hshow'.unique ht.resolved.sound hother
    exact hkeep r t e' (ht.recalls symbol id e' hother he') hb hr
  exact Answers.lift hupdate fun _ u hu hg' _ => .ofExcept fun _ =>
    hgrow r t u ht.resolved hu.resolved hg' hr

/-- **The superclass of an element is the one that the rules settle**, whenever it is asked for. -/
theorem superclassOf_honours (hshow : s.Shows symbol id) :
    w.Honours s (superclassOf id) (w.superclassOf symbol) (w.ExcusesOf symbol) (viewed w) := by
  refine .sound fun hs => ?_
  obtain ⟨e, he⟩ := hshow.get? hs.resolved.sound
  unfold superclassOf
  refine .reads (reads_elementAt he) ?_
  cases hkept : e.superclass with
  | some r => exact Answers.ofExcept fun _ => (hs.recalls symbol id e hshow he).superclass r hkept
  | none =>
    refine keepAnswer_answers hshow he (computeSuperclass_honours hshow he) (fun _ _ => rfl) ?_ ?_
    · exact fun r t e' h _ hr => { h with superclass := fun _ hr' => Option.some.inj hr' ▸ hr }
    · exact fun r t u ht hu hg hr =>
        Session.OutcomeAs.learn hr hg fun _ _ h => Session.viewed_learn ht hu h hg

/-- **The interfaces of an element are those that the rules settle**, whenever they are asked for. -/
theorem interfacesOf_honours (hshow : s.Shows symbol id) :
    w.Honours s (interfacesOf id) (w.interfacesOf symbol) (w.ExcusesOf symbol) (viewedAll w) := by
  refine .sound fun hs => ?_
  obtain ⟨e, he⟩ := hshow.get? hs.resolved.sound
  unfold interfacesOf
  refine .reads (reads_elementAt he) ?_
  cases hkept : e.interfaces with
  | some r => exact Answers.ofExcept fun _ => (hs.recalls symbol id e hshow he).interfaces r hkept
  | none =>
    refine keepAnswer_answers hshow he (computeInterfaces_honours hshow he) (fun _ _ => rfl) ?_ ?_
    · exact fun r t e' h _ hr => { h with interfaces := fun _ hr' => Option.some.inj hr' ▸ hr }
    · exact fun r t u ht hu hg hr =>
        Session.OutcomeAs.learn hr hg fun _ _ h => Session.viewedAll_learn ht hu h hg

end Kept

/-! ### Elements of declarations and keys -/

section Enclosed

variable {id : ElementId} {e : Element} {symbol : Symbol}

theorem canonical_asking {key : ElementKey} (h : s.Askable key) (ho : s.outcomeOf key = .ok ()) :
    (asking w).Answers s (canonical key) fun r t => ∃ id, r = .ok id ∧ t.Denotes key id :=
  .sound fun hs => (canonical_denotes hs.resolved.quiet h ho).resolving.asking

theorem Session.Sound.lt_size_of_forall₂ {ids : List ElementId} {keys : List ElementKey}
    (hs : s.Sound) (h : List.Forall₂ (fun id key => s.Denotes key id) ids keys) :
    ∀ id ∈ ids, id < s.elements.size := by
  induction h with
  | nil => exact fun _ h => absurd h List.not_mem_nil
  | cons hd _ ih => exact List.forall_mem_cons.2 ⟨hs.lt_size hd, ih⟩

/-- The elements of keys that have elements. -/
theorem canonicals_answers {keys : List ElementKey}
    (h : ∀ key ∈ keys, s.Askable key ∧ s.outcomeOf key = .ok ()) :
    (asking w).Answers s (keys.mapM canonical) fun r t =>
      ∃ ids, r = .ok ids ∧ List.Forall₂ (fun id key => t.Denotes key id) ids keys := by
  induction keys generalizing s with
  | nil =>
    rw [List.mapM_nil]
    exact .pure fun _ => ⟨[], rfl, .nil⟩
  | cons key rest ih =>
    rw [List.mapM_cons]
    refine .sound fun hs => ?_
    obtain ⟨ha, ho⟩ := h key List.mem_cons_self
    refine (canonical_asking ha ho).bind_ok fun id t ht hg hd => ?_
    have hrest : ∀ key ∈ rest, t.Askable key ∧ t.outcomeOf key = .ok () := fun k hk => by
      obtain ⟨hak, hok⟩ := h k (List.mem_cons_of_mem _ hk)
      refine ⟨hak.grow hg.toKeeps, ?_⟩
      rw [Session.outcomeOf_grow hs.resolved.sound.index hak hg.toKeeps, hok]
    refine (ih hrest).bind_ok fun ids u hu hg' hall => .pure fun _ => ?_
    exact ⟨id :: ids, rfl, .cons (hd.grow hg'.toKeeps) hall⟩

/-- A declaration at the top, or in one with an element of its own, has an element. -/
theorem elementOfDecl_answers {parent : Option DeclId} {c : DeclId}
    (hp : ∀ p ∈ parent, s.index.Primary p) (hc : ChildOf s.index.known? s.index.find? parent c) :
    (asking w).Answers s (elementOfDecl c) fun r t =>
      ∃ id, r = .ok id ∧ t.Denotes (s.index.keyOf c) id := by
  refine .sound fun hs => ?_
  obtain ⟨i, hi⟩ := DeclIndex.info_of_childOf hc
  obtain ⟨ha, ho⟩ := Session.askable_child hs.resolved.sound hp hc
  exact .reads (reads_keyOf hi) (canonical_asking ha ho)

/-- Top-level declarations have elements, in order, if their keys differ. -/
theorem distinctElements_answers {ds : List DeclId} {seen : List ElementId}
    (hseen : ∀ id ∈ seen, id < s.elements.size)
    (hds : ∀ d ∈ ds, ChildOf s.index.known? s.index.find? none d) :
    (asking w).Answers s (distinctElements seen ds) fun r t =>
      ∃ ids, r = .ok ids ∧ (∀ id ∈ ids, id < t.elements.size) ∧
        ∀ keys, List.Forall₂ (fun id key => s.Denotes key id) seen keys →
          (keys ++ ds.map s.index.keyOf).Nodup →
            List.Forall₂ (fun id key => t.Denotes key id) ids (keys ++ ds.map s.index.keyOf) := by
  induction ds generalizing s seen with
  | nil =>
    refine .pure fun _ => ⟨seen, rfl, hseen, fun keys hkeys _ => ?_⟩
    rw [List.map_nil, List.append_nil]
    exact hkeys
  | cons d rest ih =>
    refine (elementOfDecl_answers (fun _ h => by cases h) (hds d List.mem_cons_self)).bind_ok
      fun id t ht hg hd => ?_
    have hindex := hg.toKeeps.index
    refine (ih (fun k hk => ?_) fun c hc => ?_).mono ?_
    · have hold : ∀ k ∈ seen, k < t.elements.size := fun k hk =>
        Nat.lt_of_lt_of_le (hseen k hk) hg.size_le
      split at hk
      · exact hold k hk
      · refine (List.mem_append.1 hk).elim (hold k) fun hk => ?_
        obtain rfl := List.mem_singleton.1 hk
        exact ht.resolved.sound.lt_size hd
    · rw [hindex]
      exact hds c (List.mem_cons_of_mem _ hc)
    · rintro _ u - - ⟨ids, rfl, hids, hall⟩
      refine ⟨ids, rfl, hids, fun keys hkeys hnodup => ?_⟩
      have hgrown : List.Forall₂ (fun id key => t.Denotes key id) seen keys :=
        hkeys.imp fun _ _ h => h.grow hg.toKeeps
      -- A key of its own has an element of its own, so the element has not been seen.
      have hnew : seen.contains id = false := by
        rw [Bool.eq_false_iff, Ne, List.contains_iff_mem]
        intro hmem
        obtain ⟨key, hkey, hden⟩ := forall₂_mem_left hgrown id hmem
        obtain rfl := ht.resolved.sound.unique _ _ id hden hd
        exact (List.nodup_append.1 hnodup).2.2 _ hkey _ List.mem_cons_self rfl
      have hsplit : keys ++ (d :: rest).map s.index.keyOf =
          (keys ++ [t.index.keyOf d]) ++ rest.map t.index.keyOf := by
        rw [hindex, List.append_assoc]
        rfl
      rw [hsplit] at hnodup ⊢
      refine hall _ ?_ hnodup
      rw [hnew, hindex]
      exact List.rel_append hgrown (.cons hd .nil)

/-- The elements of the top-level declarations, each once. -/
theorem topLevelTypes_answers :
    (asking w).Answers s topLevelTypes fun r t =>
      ∃ ids, r = .ok ids ∧ (∀ id ∈ ids, id < t.elements.size) ∧
        ((s.index.topLevel.map s.index.keyOf).Nodup →
          List.Forall₂ (fun id key => t.Denotes key id) ids (s.index.topLevel.map s.index.keyOf)) :=
  .sound fun hs => .read fun _ =>
    (distinctElements_answers (fun _ h => absurd h List.not_mem_nil)
      hs.resolved.sound.index.topLevel).mono fun _ _ _ _ ⟨ids, hr, hids, hall⟩ =>
        ⟨ids, hr, hids, hall [] .nil⟩

theorem computeEnclosed_answers (hshow : s.Shows symbol id) (he : s.elements.get? id = some e) :
    (asking w).Answers s (computeEnclosed e) fun r t => t.EnclosedAs e r := by
  refine .sound fun hs => ?_
  have hr := hs.resolved
  unfold computeEnclosed
  cases hshow.madeFrom hr he with
  | tree decl denotes htree =>
    have hask := Session.askable_allMemberKeys hr.sound htree.primary htree.tree_eq
      (List.nil_append _).symm
    rw [htree.source]
    refine (canonicals_answers hask).mono ?_
    rintro _ t ht hg ⟨ids, rfl, hall⟩
    refine ⟨ids, rfl, fun id hid => ?_, fun shape hshape => ?_, fun hpackage => ?_⟩
    · exact ht.resolved.sound.lt_size_of_forall₂ hall id hid
    · rw [htree.source] at hshape
      cases hshape
      exact hall
    · cases htree.source.symm.trans hpackage
  | described undeclared descriptor hdesc =>
    rw [hdesc.source]
    exact .pure fun _ => .nil (fun shape hshape => nomatch hdesc.source.symm.trans hshape)
      fun hpackage => nomatch hdesc.source.symm.trans hpackage
  | other notType kind source =>
    -- What is no type encloses nothing, unless it is a package.
    have hnone : ∀ shape, e.source ≠ .tree shape := by
      intro shape hshape
      obtain hsource | ⟨type, hsource⟩ | ⟨body, hsource⟩ := source <;>
        cases hshape.symm.trans hsource
    obtain hsource | ⟨type, hsource⟩ | ⟨body, hsource⟩ := source
    · rw [hsource]
      refine .read fun _ => Ends.reads (f := ExceptT.bindCont (distinctElements []))
        (reads_inPackage hr.sound _) ?_
      refine (distinctElements_collects hr.quiet (fun d hd => hr.sound.index.topLevel d
        (DeclIndex.mem_inPackage.1 hd).1) (.nil s)).resolving.asking.mono ?_
      rintro _ t ht hg ⟨ids, rfl, hids⟩
      refine ⟨ids, rfl, fun id hid => ?_, fun shape h => absurd h (hnone shape), fun _ => ?_⟩
      · obtain ⟨d, -, hd⟩ := hids.of id hid
        exact ht.resolved.sound.lt_size hd
      · rw [hg.toKeeps.index]
        exact hids
    · rw [hsource]
      exact .pure fun _ => .nil hnone fun hpackage => nomatch hsource.symm.trans hpackage
    · rw [hsource]
      exact .pure fun _ => .nil hnone fun hpackage => nomatch hsource.symm.trans hpackage

/-- **What an element encloses has elements**, for a declaration those of its members, and for a
    package those of the top-level declarations in it. -/
theorem enclosedOf_answers (hshow : s.Shows symbol id) (he : s.elements.get? id = some e) :
    (asking w).Answers s (enclosedOf id) fun r t => t.EnclosedAs e r := by
  refine .sound fun hs => ?_
  unfold enclosedOf
  refine .reads (reads_elementAt he) ?_
  cases hkept : e.enclosed with
  | some r => exact .ofExcept fun _ => (hs.recalls symbol id e hshow he).enclosed r hkept
  | none =>
    refine keepAnswer_answers hshow he (computeEnclosed_answers hshow he) (fun _ _ => rfl) ?_ ?_
    · intro r t e' h hb hr
      refine { h with enclosed := fun r' hr' => ?_ }
      cases hr'
      exact hr.of_bare hb
    · exact fun r t u _ _ hg hr => Session.EnclosedAs.learn hr hg

/-- The class that the body of a constant declares has an element. -/
theorem bodyOf_answers (hshow : s.Shows symbol id) :
    (asking w).Answers s (bodyOf id) fun r t => ∃ body, r = .ok body ∧
      ∀ id ∈ body, id < t.elements.size := by
  refine .sound fun hs => ?_
  have hr := hs.resolved
  obtain ⟨e, he⟩ := hshow.get? hr.sound
  have hnone : (asking w).Answers s (pure none) fun r t => ∃ body : Option ElementId,
      r = .ok body ∧ ∀ id ∈ body, id < t.elements.size :=
    .pure fun _ => ⟨none, rfl, nofun⟩
  unfold bodyOf
  refine .reads (reads_elementAt he) ?_
  split
  · rename_i decl hsource
    -- Only a constant can have a body, which is a declaration inside of its enum.
    obtain ⟨key, hden, -⟩ := hshow
    obtain ⟨e', he', hdesc, -⟩ := hr.sound.element key id hden
    cases he.symm.trans he'
    have hbare : e.bare.source = .constant (some decl) := hsource
    generalize e.bare = b at hdesc hbare
    cases hdesc with
    | @constant d m n body sp owner hm ho =>
      have hp := (hr.sound.askable _ _ hden).1
      have hchild := hr.sound.index.children d m decl (ElementSource.constant.inj hbare)
      refine (elementOfDecl_answers (fun _ hq => Option.some.inj hq ▸ hp) hchild).bind_ok
        (f := fun id => pure (some id)) fun body t ht _ hd => .pure fun _ => ?_
      refine ⟨some body, rfl, fun id hid => ?_⟩
      cases hid
      exact ht.resolved.sound.lt_size hd
    | _ => cases hbare
  · exact hnone

end Enclosed

end JavaAbi
