import JavaAbi.Proofs.ExtractedReports
import JavaAbi.Proofs.SimpleNames

namespace JavaAbi

/-!
# Lists of interfaces

The interfaces that a declaration writes are resolved one after the other. If all of them resolve,
the stub lists each with its text, in order. The first one that does not resolve is reported, and
its name is all that the stub lists then, whatever is written before and after it.

* `Rule.finds_mapM` — rules that are followed one after the other;
* `World.InterfacesListed` — what is listed and reported of the interfaces that are written;
* `Client.interfaces_listed` — the interfaces in the stubs that are extracted;
* `Client.one_interface_of_two` — an interface that is lost.
-/

variable {w : World} {s t : Session} {lists : Symbol → List Symbol → Prop}

/-! ### Rules in order -/

/-- Rules that are followed one after the other have answers, or there is a first one that fails. -/
theorem Rule.finds_mapM {α β : Type} {f : α → Rule β} {as : List α} {y : Except ModelError (List β)}
    (h : (as.mapM f).run.Finds lists y) :
    (∃ bs, y = .ok bs ∧ List.Forall₂ (fun a b => (f a).run.Finds lists (.ok b)) as bs) ∨
      ∃ before a after bs e, as = before ++ a :: after ∧
        List.Forall₂ (fun a b => (f a).run.Finds lists (.ok b)) before bs ∧
        (f a).run.Finds lists (.error e) ∧ y = .error e := by
  induction as generalizing y with
  | nil => exact .inl ⟨[], h.pure_inv, .nil⟩
  | cons a rest ih =>
    rw [List.mapM_cons] at h
    rcases Rule.finds_bind_inv h with ⟨e, he, rfl⟩ | ⟨b, hb, h⟩
    · exact .inr ⟨[], a, rest, [], e, rfl, .nil, he, rfl⟩
    · rcases Rule.finds_bind_inv h with ⟨e, he, rfl⟩ | ⟨bs, hbs, h⟩
      · rcases ih he with ⟨_, herror, -⟩ | ⟨before, a', after, bs, e', rfl, hbefore, he', herror⟩
        · cases herror
        · exact .inr ⟨a :: before, a', after, b :: bs, e', rfl, .cons hb hbefore, he', herror⟩
      · rcases ih hbs with ⟨bs', hok, hall⟩ | ⟨_, _, _, _, _, -, -, -, hok⟩
        · cases hok
          exact .inl ⟨b :: bs, h.pure_inv, .cons hb hall⟩
        · cases hok

/-! ### References inside types -/

/-- The references inside a type: those of a class type apart from its own. -/
def TypeView.innerReferences : TypeView → List ReferenceView
  | .declared _ args _ => TypeView.allReferences args
  | v => v.references

namespace World

section Inner

variable {place : Span} {sc : ScopeView} {ds : List Diagnostic}

/-- What is reported of references is reported of the first ones and then of the others. -/
theorem Failures.append_inv {refs refs' : List ReferenceView}
    (h : w.Failures lists place (refs ++ refs') ds) : ∃ before after, ds = before ++ after ∧
      w.Failures lists place refs before ∧ w.Failures lists place refs' after := by
  induction refs generalizing ds with
  | nil => exact ⟨[], ds, rfl, .nil, h⟩
  | cons r rest ih =>
    cases h with
    | resolves found others =>
      obtain ⟨before, after, rfl, hbefore, hafter⟩ := ih others
      exact ⟨before, after, rfl, .resolves found hbefore, hafter⟩
    | fails found excused others =>
      obtain ⟨before, after, rfl, hbefore, hafter⟩ := ih others
      exact ⟨_ :: before, after, rfl, .fails found excused hbefore, hafter⟩

/-- The type that a clause writes resolves. -/
theorem finds_supertype {r : TypeRef} {v : TypeView}
    (h : (w.supertype sc r).run.Finds lists (.ok v)) :
    ∃ y, (w.resolveType v).run.Finds lists (.ok y) := by
  unfold supertype at h
  obtain ⟨type, -, h⟩ := Rule.finds_lift_inv h
  have hresolved : (do let _ ← w.resolveType type; return type : Rule TypeView).run.Finds lists
      (.ok v) := by
    cases type with
    | error => cases h.pure_inv
    | _ => exact h
  rcases Rule.finds_bind_inv hresolved with ⟨e, -, he⟩ | ⟨y, hy, h⟩
  · cases he
  · cases h.pure_inv
    exact ⟨y, hy⟩

/-- Of a type that resolves only what is inside is reported. -/
theorem Failures.inner (hl : ∀ symbol l l', lists symbol l → lists symbol l' → l = l')
    {v : TypeView} {y : Option Symbol} (hv : (w.resolveType v).run.Finds lists (.ok y))
    (h : w.Failures lists place v.references ds) :
    w.Failures lists place v.innerReferences ds := by
  match v with
  | .declared (.written r) args enclosing =>
    rcases finds_resolveType hv with ⟨e, -, he⟩ | ⟨symbol, hsymbol, -⟩
    · cases he
    · rw [TypeView.references] at h
      cases h with
      | resolves _ others => exact others
      | fails found _ _ => cases found.unique hl hsymbol
  | .declared (.known _) _ _ | .primitive _ | .absent | .void | .package | .array _
  | .typeVariable _ _ | .wildcard _ _ | .error => exact h

theorem Failures.all_inner (hl : ∀ symbol l l', lists symbol l → lists symbol l' → l = l')
    {vs : List TypeView} (hv : ∀ v ∈ vs, ∃ y, (w.resolveType v).run.Finds lists (.ok y))
    (h : w.Failures lists place (TypeView.allReferences vs) ds) :
    w.Failures lists place (vs.flatMap TypeView.innerReferences) ds := by
  induction vs generalizing ds with
  | nil => exact h
  | cons v rest ih =>
    rw [TypeView.allReferences] at h
    obtain ⟨before, after, rfl, hbefore, hafter⟩ := h.append_inv
    obtain ⟨y, hy⟩ := hv v List.mem_cons_self
    rw [List.flatMap_cons]
    exact (hbefore.inner hl hy).append (ih (fun v h => hv v (List.mem_cons_of_mem _ h)) hafter)

end Inner

end World

/-! ### Interfaces -/

/-- The interfaces that the header of a declaration writes. -/
def DeclHead.interfaces (h : DeclHead) : List TypeRef :=
  if h.kind = .interfaceType then h.extended else h.implemented

namespace World

/-- What the stub of a declaration lists for the interfaces that are written in its header, with the
    scope `sc`, and what is reported of them. -/
inductive InterfacesListed (w : World) (lists : Symbol → List Symbol → Prop) (place : Span)
    (sc : ScopeView) (written : List TypeRef) : List String → List Diagnostic → Prop
  /-- All of them resolve: there is an entry for each, in order, with its text. What is reported are
      the references inside them that do not resolve. -/
  | all {types : List TypeView} {texts : List String} {ds : List Diagnostic}
      (resolve : List.Forall₂ (fun r v => (w.supertype sc r).run.Finds lists (.ok v)) written types)
      (shown : List.Forall₂ (fun v text => (w.textOf v).Finds lists text) types texts)
      (reported : w.Failures lists place (types.flatMap TypeView.innerReferences) ds) :
      InterfacesListed w lists place sc written texts ds
  /-- The first one that does not resolve stands for all. It is reported, and nothing else is. -/
  | first {before after : List TypeRef} {r : TypeRef} {types : List TypeView} {name : String}
      {span : Option Span} (split : written = before ++ r :: after)
      (resolve : List.Forall₂ (fun r v => (w.supertype sc r).run.Finds lists (.ok v)) before types)
      (unresolved : (w.supertype sc r).run.Finds lists (.error (.unknownSymbol name span))) :
      InterfacesListed w lists place sc written [name]
        [(ModelError.unknownSymbol name span).diagnostic place]

/-- **An account of the interfaces** that the headers of declarations write, annotations apart. -/
def interfaceAccount (w : World) (lists : Symbol → List Symbol → Prop) : Account where
  header d superclass interfaces ds :=
    ∃ i tree, w.index.get? d = some i ∧ w.index.tree? w.units d = some tree ∧
      (tree.head.kind ≠ .annotationType → ∃ r before after, ds = before ++ after ∧
        (w.superclassOf (w.symbolOf d)).run.Finds lists r ∧
        w.SuperclassShown lists i.nameSpan (w.symbolOf d) r superclass before ∧
        w.InterfacesListed lists i.nameSpan (w.headerScopeOf d) tree.head.interfaces interfaces
          after)
  field := (w.account lists).field

/-- With an honest provider, and if every clause was parsed, an extraction lists interfaces so. -/
theorem account_entails_interfaceAccount (honest : w.provider.Honest)
    (parsed : ∀ symbol, ¬w.Unparsed symbol)
    (hl : ∀ symbol l l', lists symbol l → lists symbol l' → l = l') :
    w.Entails (w.account lists) (w.interfaceAccount lists) where
  field _ _ _ _ _ _ _ _ h := h
  header d tree htree superclass interfaces ds h := by
    obtain ⟨hdecl, i, hi, r, r', before, after, rfl, hr, hsuperclass, hr', hshown⟩ := h
    refine ⟨i, tree, hi, htree, fun hkind => ⟨r, before, after, rfl, hr, hsuperclass, ?_⟩⟩
    rw [interfacesOf, hdecl] at hr'
    dsimp only at hr'
    rw [hi, htree] at hr'
    dsimp only at hr'
    rw [declaredInterfaces, if_neg hkind] at hr'
    rcases Rule.finds_mapM hr' with
      ⟨types, rfl, hall⟩ | ⟨first, r, rest, types, e, hsplit, hfirst, hr, rfl⟩
    · cases hshown with
      | shown shown =>
        refine .all hall shown.texts (shown.reported.all_inner hl fun v hv => ?_)
        obtain ⟨_, -, hfound⟩ := forall₂_mem_left hall.flip v hv
        exact finds_supertype hfound
    · cases hshown with
      | failed excused =>
        rcases excused with hexcused | ⟨-, hunparsed⟩
        · match e, honest.isUnknownSymbol hexcused with
          | .unknownSymbol name span, _ => exact .first hsplit hfirst hr
        · exact absurd hunparsed (parsed _)

end World

namespace Client

variable (token : SessionToken) (files : Batch) (provider : Provider) (config : ModelConfig)

/-- **Interfaces are listed** in the stubs of elements that are made from trees, and in those nested
    in them: one entry for each that is written, if all of them resolve; and if not, the name of the
    first one that does not resolve, which is reported once. -/
theorem interfaces_listed (honest : provider.Honest) (clean : (parseBatch files).2.2 = [])
    (questions : List Question) {ids : List ElementId} {ds : List DeclId} :
    let s : Session := ((start token files provider config).askAll questions).session
    List.Forall₂ s.Declares ids ds →
    ∃ stubs reported t,
      ((ids.mapM (extract files)).run #[]).run.run s = (.ok (stubs, reported), t) ∧
      (world token files provider config).AllExtracted
        ((world token files provider config).interfaceAccount t.HoldsList) ds stubs
        reported.toList := by
  intro s hids
  obtain ⟨stubs, reported, t, hrun, ht, hstubs⟩ :=
    extracts token files provider config questions hids
  refine ⟨stubs, reported, t, hrun, hstubs.mono ?_⟩
  exact World.account_entails_interfaceAccount honest (parsed_of_clean clean)
    fun _ _ _ h h' => h.unique ht.resolved.sound h'

/-- The interfaces in stubs and in those nested in them, and the messages of what is reported. -/
def listInterfaces (files : Batch) (ids : List ElementId) :
    SessionM (List (List (List String)) × List String) := do
  let (stubs, reported) ← (ids.mapM (extract files)).run #[]
  return (stubs.map fun x => x.surface.interfaces :: x.nested.map fun y => y.surface.interfaces,
    reported.toList.map Diagnostic.message)

/-- A class of which both interfaces resolve, with a member class of which one does not. -/
theorem interfaces_listed_nested :
    let files : Batch := #[⟨"A.java", "package p; interface J {} interface K<T> {} " ++
      "class A implements J, K<M> { static class C implements J, N, K<J> {} }"⟩]
    let s : Session := ((start 0 files onlyObject {}).askAll [.lookupType "p.A"]).session
    onlyObject.Honest ∧ (parseBatch files).2.2 = [] ∧ List.Forall₂ s.Declares [1] [2] ∧
      (∃ stubs reported t,
        (([1].mapM (extract files)).run #[]).run.run s = (.ok (stubs, reported), t) ∧
        (world 0 files onlyObject {}).AllExtracted
          ((world 0 files onlyObject {}).interfaceAccount t.HoldsList) [2] stubs
          reported.toList) ∧
      ((listInterfaces files [1]).run.run s).1 = .ok ([[["p.J", "p.K<M>"], ["N"]]],
        ["cannot find symbol `M`", "cannot find symbol `N`"]) := by
  intro files s
  have hclean : (parseBatch files).2.2 = [] := by decide +kernel
  have hids : List.Forall₂ s.Declares [1] [2] := .cons (by decide +kernel) .nil
  exact ⟨onlyObject_honest, hclean, hids,
    interfaces_listed 0 files onlyObject {} onlyObject_honest hclean _ hids, by decide +kernel⟩

/-- **One interface of two**: the second interface resolves, but the stub has the name of the first
    one only, which does not. -/
theorem one_interface_of_two :
    let files : Batch := #[⟨"A.java", "package p; class A implements M, J {} interface J {}"⟩]
    let w : World := world 0 files onlyObject {}
    let s : Session := ((start 0 files onlyObject {}).askAll [.lookupType "p.A"]).session
    onlyObject.Honest ∧ (parseBatch files).2.2 = [] ∧ s.Declares 1 0 ∧
      ((w.index.tree? w.units 0).map fun tree => tree.head.interfaces.length) = some 2 ∧
      ((lookupType "p.J").run.run.run s).1 = .ok (.ok 2) ∧
      ((listInterfaces files [1]).run.run s).1 = .ok ([[["M"]]], ["cannot find symbol `M`"]) := by
  exact ⟨onlyObject_honest, by decide +kernel⟩

end Client

end JavaAbi
