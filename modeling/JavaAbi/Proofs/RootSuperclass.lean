import JavaAbi.Proofs.ClientAnswers
import JavaAbi.Proofs.QualifiedNames
import JavaAbi.Proofs.RenderedTypes
import JavaAbi.Proofs.TwinStarts

namespace JavaAbi

/-!
# The root of all classes as a superclass

A class that extends nothing has the root type as its superclass, by its canonical name. A class may
also extend this type by writing its name in full. Such a path starts as a simple name, which is looked
for in the levels of the scope, in the imports and in the package; if no type is visible under it, the
path is looked up as a whole. Then both have the same superclass, or both have none, each with the
error in its own place.

* `World.resolvePath_full` — a path of which the first segment is no type;
* `World.PlainClass` — classes with a superclass of their own;
* `World.superclassOf_plainClass` — what it is;
* `World.plainType_named`, `World.supertype_named` — the types of the name, and what is written so;
* `Client.root_superclass` — what a client is told of the superclasses.
-/

open Course Stage

variable {w : World} {s t : Session} {lists : Symbol → List Symbol → Prop}

namespace World

/-! ### Names in full -/

/-- Segments after a name that is not empty do not make it so. -/
theorem intercalate_append_ne_empty {xs : List String} (h : ".".intercalate xs ≠ "")
    (ys : List String) : ".".intercalate (xs ++ ys) ≠ "" := by
  induction ys generalizing xs with
  | nil => rwa [List.append_nil]
  | cons y rest ih =>
    rw [List.append_cons]
    refine ih ?_
    rw [← joined_intercalate h, NameTable.joined, if_neg h]
    intro hempty
    have hlen := congrArg String.length hempty
    rw [String.length_append, String.length_append, String.length_empty] at hlen
    have hdot : ".".length = 1 := rfl
    omega

theorem canonicalPath_intercalate {xs : List String} (h : ".".intercalate xs ≠ "")
    (path : List Name) : w.canonicalPath (some (".".intercalate xs)) path =
      some (".".intercalate (xs ++ path.map w.text)) := by
  induction path generalizing xs with
  | nil => rw [List.map_nil, List.append_nil]; rfl
  | cons simple rest ih =>
    rw [canonicalPath, joined_intercalate h, ih (intercalate_append_ne_empty h _), List.map_cons,
      List.append_assoc]
    rfl

/-- A path that starts with a proper name writes a name. -/
theorem intercalate_path_ne_empty {first : Name} (h : w.names.Proper first) (rest : List String) :
    ".".intercalate (w.text first :: rest) ≠ "" := by
  have hfirst : ".".intercalate [w.text first] ≠ "" := by
    rw [String.intercalate_singleton]
    exact NameTable.text_ne_empty h.1 h.2
  exact intercalate_append_ne_empty hfirst rest

/-- **A path of which the first segment is no type** is looked up as a whole. -/
theorem resolvePath_full (honest : w.provider.Honest) {sc : ScopeView} {first second : Name}
    {rest : List Name} (hfirst : w.names.Proper first) (hidden : ¬w.Visible lists sc first)
    {y : Except ModelError Symbol}
    (h : (w.resolvePath sc (first :: second :: rest)).run.Finds lists y) :
    y = w.lookup (".".intercalate ((first :: second :: rest).map w.text)) := by
  rw [resolvePath] at h
  have hpath : w.canonicalPath none (first :: second :: rest) =
      some (".".intercalate ((first :: second :: rest).map w.text)) := by
    have hsingle : ".".intercalate [w.text first] = w.text first := String.intercalate_singleton
    rw [canonicalPath, NameTable.joined, ← hsingle,
      canonicalPath_intercalate (intercalate_path_ne_empty hfirst [])]
    rfl
  rcases Rule.finds_bind_inv h with ⟨e, he, -⟩ | ⟨found, hfound, h⟩
  · cases resolveSimple_nothing honest hidden he
  · cases resolveSimple_nothing honest hidden hfound
    dsimp only at h
    rw [if_neg (by simp), hpath] at h
    exact h.pure_inv

/-- With an honest provider the only error of a look-up is that the name is unknown. -/
theorem lookup_unknown (honest : w.provider.Honest) {name : String} {e : ModelError}
    (h : w.lookup name = .error e) : e = .unknown name := by
  refine (lookupOutcome_error name (lookupOutcome_of_lookup h)).resolve_right ?_
  rintro ⟨asked, d, hd, hne, -⟩
  exact hne (honest asked d hd)

/-! ### Superclasses -/

/-- **A class with a superclass of its own**: it is not the body of a constant, and not the type of the
    name `root`. -/
structure PlainClass (w : World) (root : String) (d : DeclId) (decl : TypeDecl) : Prop where
  tree : w.index.tree? w.units d = some decl
  kind : decl.head.kind = .classType
  noBody : decl.isConstantBody = false
  notRoot : w.symbolOf d ≠ .type root

section Superclass

variable {root : String} {d : DeclId} {decl : TypeDecl}

/-- The type of the special name is the root. -/
theorem qualifiedName_root (hw : w.Sound) (hroot : w.text w.wellKnown.rootObject = root)
    {i : DeclInfo} (hi : w.index.get? d = some i) :
    i.qualifiedName = .named w.wellKnown.rootObject ↔ w.symbolOf d = .type root := by
  rw [symbolOf, DeclIndex.keyOf_eq hi, DeclInfo.key]
  cases hq : i.qualifiedName with
  | named n =>
    have hissued := (hw.index.infos d i hi).qualified n (by rw [hq]; rfl)
    dsimp only [QualifiedName.name?, ElementKey.symbol]
    rw [← hroot]
    constructor
    · intro h
      cases h
      rfl
    · intro h
      exact congrArg _ (NameTable.eq_of_text_eq hissued hw.wellKnown.rootObject
        (Symbol.type.inj h))
  | anonymous | notApplicable => constructor <;> intro h <;> cases h

/-- The segments that a class writes are proper names. -/
theorem PlainClass.proper_first {root : String} {first : ClassSegment} {rest : List ClassSegment}
    {place : Span} (h : w.PlainClass root d decl) (hw : w.Sound)
    (hwritten : decl.head.extended.head? = some (.classType (first :: rest) place)) :
    w.names.Proper first.name := by
  have hmem := List.mem_append_left decl.head.implemented (List.mem_of_head? hwritten)
  cases (DeclIndex.sound_of_tree? hw.trees h.tree).head.supertypes _ hmem with
  | classType _ _ _ names _ => exact names first List.mem_cons_self

/-- The superclass of a class that is not the body of a constant. -/
theorem declaredSuperclass_class {i : DeclInfo} {h : DeclHead} (hkind : h.kind = .classType)
    (hconstant : i.constant.isSome = false) : w.declaredSuperclass d i h =
      if i.qualifiedName = .named w.wellKnown.rootObject then pure .absent
      else
        match h.extended with
        | written :: _ => w.supertype (w.headerScopeOf d) written
        | [] => w.plainType i.nameSpan (w.text w.wellKnown.rootObject) := by
  rw [declaredSuperclass, hkind, hconstant]
  rfl

/-- The superclass of such a class is written, or it is the root. -/
theorem superclassOf_plainClass (hw : w.Sound) (hroot : w.text w.wellKnown.rootObject = root)
    (hdecl : w.declOf? (w.symbolOf d) = some d) (h : w.PlainClass root d decl) :
    w.superclassOf (w.symbolOf d) =
      match decl.head.extended with
      | written :: _ => w.supertype (w.headerScopeOf d) written
      | [] => w.plainType decl.head.nameSpan root := by
  obtain ⟨i, hi, hat⟩ := Option.bind_eq_some_iff.1 h.tree
  have hfits := hw.index.infos d i hi
  have hconstant : i.constant.isSome = false := by
    rw [Bool.eq_false_iff]
    intro hsome
    have hname := h.noBody
    rw [TypeDecl.isConstantBody, (hfits.body decl hat hsome).name] at hname
    cases hname
  have hname : i.qualifiedName ≠ .named w.wellKnown.rootObject := fun hq =>
    h.notRoot ((qualifiedName_root hw hroot hi).1 hq)
  rw [superclassOf, hdecl]
  dsimp only
  rw [hi, h.tree]
  dsimp only
  rw [declaredSuperclass_class h.kind hconstant, if_neg hname, hroot, hfits.nameSpan decl hat]

/-- **What a superclass comes to that is the type of a name**: a type of the element of the name, or
    the error that the name is unknown, with the place of the superclass. -/
inductive NamedAt (w : World) (lists : Symbol → List Symbol → Prop) (name : String) (place : Span) :
    Except ModelError TypeView → Prop
  | found {v : TypeView} (known : w.lookup name = .ok (.type name))
      (element : (w.resolveType v).run.Finds lists (.ok (some (.type name)))) :
      NamedAt w lists name place (.ok v)
  | unknown (unknown : w.lookup name = .error (.unknown name)) :
      NamedAt w lists name place (.error (.unknownSymbol name (some place)))

/-- The type of a canonical name. -/
theorem plainType_named (honest : w.provider.Honest) {place : Span} {name : String}
    {y : Except ModelError TypeView} (h : (w.plainType place name).run.Finds lists y) :
    w.NamedAt lists name place y := by
  unfold plainType at h
  rcases Rule.finds_bind_inv h with ⟨e, he, rfl⟩ | ⟨symbol, hsymbol, h⟩
  · rcases Rule.finds_handle he with ⟨_, -, hok⟩ | ⟨e', he', hlocated⟩
    · cases hok
    · have hlookup := he'.pure_inv.symm
      obtain rfl := lookup_unknown honest hlookup
      cases hlocated.pure_inv
      exact .unknown hlookup
  · rcases Rule.finds_handle hsymbol with ⟨found, hfound, hok⟩ | ⟨e, -, hlocated⟩
    · cases hok
      have hlookup := hfound.pure_inv.symm
      obtain rfl := lookup_eq hlookup
      cases h.pure_inv
      exact .found hlookup (Inquiry.finds_pure _)
    · cases hlocated.pure_inv

/-- **A clause that writes a name in full**, where no type is visible under its first segment. -/
theorem supertype_named (honest : w.provider.Honest) {sc : ScopeView}
    {first second : ClassSegment} {rest : List ClassSegment} {place : Span}
    (hfirst : w.names.Proper first.name) (hidden : ¬w.Visible lists sc first.name)
    {y : Except ModelError TypeView}
    (h : (w.supertype sc (.classType (first :: second :: rest) place)).run.Finds lists y) :
    w.NamedAt lists
      (".".intercalate ((first :: second :: rest).map fun seg => w.text seg.name)) place y := by
  unfold supertype at h
  obtain ⟨v, hv, h⟩ := Rule.finds_lift_inv h
  rcases finds_classType hv with ⟨only, owner, honly, -, -⟩ | ⟨found, hfound, hv', -⟩
  · cases honly
  · -- the reference of the whole type has all segments
    have hnames : found.map Prod.fst = (first :: second :: rest).map ClassSegment.name := by
      rw [← List.forall₂_eq_eq_eq, List.forall₂_map_left_iff, List.forall₂_map_right_iff]
      exact (finds_segmentsOf hfound).flip.imp fun _ _ h => h.1
    obtain ⟨last, hlast⟩ : ∃ last, found.getLast? = some last := by
      cases found with
      | nil => cases hnames
      | cons x xs => exact ⟨_, List.getLast?_cons⟩
    obtain ⟨path, enclosing, htype, hpath⟩ := enclosedTypes_last sc place [] .absent hlast
    rw [List.nil_append, hnames] at hpath
    subst hpath
    rw [hv', htype] at h
    have hresolved : (do
        let _ ← w.resolveType (.declared (.written ⟨sc,
          (first :: second :: rest).map ClassSegment.name, place⟩) last.2 enclosing)
        return .declared (.written ⟨sc, (first :: second :: rest).map ClassSegment.name, place⟩)
          last.2 enclosing : Rule TypeView).run.Finds lists y := h
    -- The reference is resolved by looking up the whole name.
    have hlookup {z : Except ModelError Symbol} (hz : (w.resolvePath sc
        ((first :: second :: rest).map ClassSegment.name)).run.Finds lists z) :
        z = w.lookup
          (".".intercalate ((first :: second :: rest).map fun seg => w.text seg.name)) := by
      rw [resolvePath_full honest hfirst hidden hz, ← List.map_cons, ← List.map_cons, List.map_map]
      rfl
    rcases Rule.finds_bind_inv hresolved with ⟨e, he, rfl⟩ | ⟨o, ho, hy⟩
    · -- An error of the clause is that of the look-up, with the place of the reference.
      rcases finds_resolveType he with ⟨e', he', heq⟩ | ⟨symbol, -, hok⟩
      · cases heq
        obtain ⟨z, hz, herror⟩ := finds_located he'
        cases z with
        | ok symbol => cases herror
        | error e'' =>
          have hunknown := (hlookup hz).symm
          obtain rfl := lookup_unknown honest hunknown
          cases herror
          exact .unknown hunknown
      · cases hok
    · rcases finds_resolveType ho with ⟨e', -, heq⟩ | ⟨symbol, hsymbol, hok⟩
      · cases heq
      · cases hok
        cases hy.pure_inv
        obtain ⟨z, hz, hok⟩ := finds_located hsymbol
        cases z with
        | error e => cases hok
        | ok found =>
          cases hok
          have hknown := (hlookup hz).symm
          obtain rfl := lookup_eq hknown
          exact .found hknown ho

/-- The class of the name has no superclass. -/
theorem superclassOf_root (hw : w.Sound) (hroot : w.text w.wellKnown.rootObject = root)
    (hdecl : w.declOf? (w.symbolOf d) = some d) (htree : w.index.tree? w.units d = some decl)
    (hkind : decl.head.kind = .classType) (hname : w.symbolOf d = .type root) :
    w.superclassOf (w.symbolOf d) = pure .absent := by
  obtain ⟨i, hi, -⟩ := Option.bind_eq_some_iff.1 htree
  have hqualified := (qualifiedName_root hw hroot hi).2 hname
  have hconstant : i.constant = none := by
    rw [hname] at hdecl
    obtain ⟨n, -, hfind⟩ := Option.bind_eq_some_iff.1 (show w.find? root = some d from hdecl)
    obtain ⟨j, hj, -, hnone, -⟩ := hw.index.named n d hfind
    obtain ⟨i', hi', rfl⟩ := Option.map_eq_some_iff.1 hj
    cases hi.symm.trans hi'
    exact hnone
  rw [superclassOf, hdecl]
  dsimp only
  rw [hi, htree]
  dsimp only
  rw [declaredSuperclass_class hkind (by rw [hconstant]; rfl), if_pos hqualified]

end Superclass

end World

/-! ### Clients -/

namespace Client

variable {c : Client} {id : ElementId} {type : ModelType}

/-- A client received the type of a name, or it was told that the name is unknown, at `place`. -/
inductive ToldName (w : World) (name : String) (place : Span) (reply : Reply) (c : Client) : Prop
  | found {type : ModelType} (told : reply = .types [type]) (holds : c.session.Holds w type)
      (known : w.lookup name = .ok (.type name))
      (element : (w.resolveType (c.session.view type)).run.Finds c.session.HoldsList
        (.ok (some (.type name))))
  | unknown (told : reply = .unanswered (.unknownSymbol name (some place)))
      (unknown : w.lookup name = .error (.unknown name))

theorem ask_superclass_named {symbol : Symbol} {name : String} {place : Span} (h : c.Fits w)
    (hid : c.session.Shows symbol id)
    (hnamed : ∀ y, (w.superclassOf symbol).run.Finds (c.ask (.superclass id)).2.session.HoldsList y →
      w.NamedAt (c.ask (.superclass id)).2.session.HoldsList name place y) :
    ToldName w name place (c.ask (.superclass id)).1 (c.ask (.superclass id)).2 := by
  rcases ask_superclass h hid with ⟨type, v, hreply, hview, hrule⟩ | ⟨e, hreply, hrule⟩
  · cases hnamed _ hrule.held with
    | found known element => exact .found hreply hview.1 known (hview.2 ▸ element)
  · cases hnamed _ hrule.held with
    | unknown unknown => exact .unknown hreply unknown

theorem ToldName.grow {name : String} {place : Span} {reply : Reply} {d : Client}
    (hc : c.Fits w) (hd : d.Fits w) (hg : c.session.Learns w d.session)
    (h : ToldName w name place reply c) : ToldName w name place reply d := by
  cases h with
  | found told holds known element =>
    refine .found told (holds.learn hc.idle.resolved.sound hg) known ?_
    rw [Session.view_grow hc.idle.resolved hd.idle.resolved hg.toKeeps holds]
    exact element.mono hg.lists
  | unknown told unknown => exact .unknown told unknown

/-- A class that extends nothing: its superclass is the type of the root, at its own name. -/
theorem ask_superclass_implicit {root : String} {d : DeclId} {decl : TypeDecl} (h : c.Fits w)
    (honest : w.provider.Honest) (hroot : w.text w.wellKnown.rootObject = root)
    (hshow : c.session.Shows (w.symbolOf d) id) (hdecl : w.declOf? (w.symbolOf d) = some d)
    (hplain : w.PlainClass root d decl) (hnothing : decl.head.extended = []) :
    ToldName w root decl.head.nameSpan (c.ask (.superclass id)).1 (c.ask (.superclass id)).2 := by
  refine ask_superclass_named h hshow fun y hy => ?_
  rw [World.superclassOf_plainClass h.idle.resolved.world hroot hdecl hplain, hnothing] at hy
  exact World.plainType_named honest hy

/-- A class that extends the root by its full name: its superclass is the type of this name, at the
    clause. -/
theorem ask_superclass_explicit {root : String} {d : DeclId} {decl : TypeDecl}
    {first second : ClassSegment} {rest : List ClassSegment} {place : Span} (h : c.Fits w)
    (honest : w.provider.Honest) (hroot : w.text w.wellKnown.rootObject = root)
    (hshow : c.session.Shows (w.symbolOf d) id) (hdecl : w.declOf? (w.symbolOf d) = some d)
    (hplain : w.PlainClass root d decl)
    (hwritten : decl.head.extended.head? = some (.classType (first :: second :: rest) place))
    (hfirst : w.names.Proper first.name)
    (hspelled : ".".intercalate ((first :: second :: rest).map fun seg => w.text seg.name) = root)
    (hidden : ¬w.Visible (c.ask (.superclass id)).2.session.HoldsList (w.headerScopeOf d)
      first.name) :
    ToldName w root place (c.ask (.superclass id)).1 (c.ask (.superclass id)).2 := by
  refine ask_superclass_named h hshow fun y hy => ?_
  obtain ⟨more, hextended⟩ := List.head?_eq_some_iff.1 hwritten
  rw [World.superclassOf_plainClass h.idle.resolved.world hroot hdecl hplain, hextended] at hy
  have hnamed := World.supertype_named honest hfirst hidden hy
  rwa [hspelled] at hnamed

/-- **Two replies about one name agree with its look-up**: both are of the element that is found, or
    the name is unknown to all three. -/
theorem ToldName.agree {name : String} {place place' : Span} {reply reply' : Reply}
    (h : c.Fits w) (hname : name ≠ "")
    (htold : ToldName w name place reply (c.ask (.lookupType name)).2)
    (htold' : ToldName w name place' reply' (c.ask (.lookupType name)).2) :
    (∃ id type type', (c.ask (.lookupType name)).1 = .elements [id] ∧
      reply = .types [type] ∧ (c.ask (.lookupType name)).2.Names type id ∧
      reply' = .types [type'] ∧ (c.ask (.lookupType name)).2.Names type' id) ∨
    ((c.ask (.lookupType name)).1 = .unanswered (.unknown name) ∧
      reply = .unanswered (.unknownSymbol name (some place)) ∧
      reply' = .unanswered (.unknownSymbol name (some place'))) := by
  have hlookup := ask_lookupType h hname
  obtain ⟨hlater, -⟩ := fits_ask h (.lookupType name)
  cases htold with
  | found told holds known element =>
    rw [known] at hlookup
    obtain ⟨id, hid, hshow⟩ := hlookup
    cases htold' with
    | unknown told unknown => cases known.symm.trans unknown
    | found told' holds' _ element' =>
      exact .inl ⟨id, _, _, hid, told, names_of_finds hlater hshow.shows holds element,
        told', names_of_finds hlater hshow.shows holds' element'⟩
  | unknown told unknown =>
    rw [unknown] at hlookup
    cases htold' with
    | found told holds known element => cases unknown.symm.trans known
    | unknown told' _ => exact .inr ⟨hlookup, told, told'⟩

/-- The root has no superclass. -/
theorem ask_superclass_root {root : String} {d : DeclId} {decl : TypeDecl} (h : c.Fits w)
    (hroot : w.text w.wellKnown.rootObject = root) (hid : c.session.Declares id d)
    (htree : w.index.tree? w.units d = some decl) (hkind : decl.head.kind = .classType)
    (hname : w.symbolOf d = .type root) : (c.ask (.superclass id)).1 = .types [.absent] := by
  obtain ⟨hshow, hdecl⟩ := hid.shows h.idle.resolved
  have hrule := World.superclassOf_root h.idle.resolved.world hroot hdecl htree hkind hname
  rcases ask_superclass h hshow with ⟨type, v, hreply, hview, hfound⟩ | ⟨e, -, hfound⟩
  · rw [hrule] at hfound
    cases hfound.held.pure_inv
    rw [hreply, Session.view_eq_absent hview.2]
  · rw [hrule] at hfound
    cases hfound.held.pure_inv

section Asked

variable (token : SessionToken) (files : Batch) (provider : Provider) (config : ModelConfig)

/-- The root of a client's world is the one that was configured. -/
theorem text_rootObject : (world token files provider config).text
    (world token files provider config).wellKnown.rootObject = config.rootObject :=
  NameTable.text_eq (WellKnown.spells_ofConfig config _).rootObject

/-- **Implicit and explicit root superclass.** After any questions, let there be two classes, none of
    them the root: one that extends nothing, and one of which the clause writes the name of the root
    in full, where no type is visible under its first segment. Then the superclasses of both are of
    the element that the name is looked up as; or the name is unknown, and each has this error, with
    the name of the first class and the clause of the second as the places. The root itself has no
    superclass. -/
theorem root_superclass (honest : provider.Honest) (questions : List Question) :
    let w : World := world token files provider config
    let c : Client := (start token files provider config).askAll questions
    (∀ a b d e declA declB first second rest place between₁ between₂,
      c.session.Declares a d → w.PlainClass config.rootObject d declA →
      declA.head.extended = [] →
      c.session.Declares b e → w.PlainClass config.rootObject e declB →
      declB.head.extended.head? = some (.classType (first :: second :: rest) place) →
      ".".intercalate ((first :: second :: rest).map fun seg => w.text seg.name) =
        config.rootObject →
      let c₁ : Client := (c.ask (.superclass a)).2.askAll between₁
      ¬w.Visible (c₁.ask (.superclass b)).2.session.HoldsList (w.headerScopeOf e) first.name →
      let c₂ : Client := (c₁.ask (.superclass b)).2.askAll between₂
      let c₃ : Client := (c₂.ask (.lookupType config.rootObject)).2
      (∃ id type type', (c₂.ask (.lookupType config.rootObject)).1 = .elements [id] ∧
        (c.ask (.superclass a)).1 = .types [type] ∧ c₃.Names type id ∧
        (c₁.ask (.superclass b)).1 = .types [type'] ∧ c₃.Names type' id) ∨
      ((c₂.ask (.lookupType config.rootObject)).1 = .unanswered (.unknown config.rootObject) ∧
        (c.ask (.superclass a)).1 =
          .unanswered (.unknownSymbol config.rootObject (some declA.head.nameSpan)) ∧
        (c₁.ask (.superclass b)).1 =
          .unanswered (.unknownSymbol config.rootObject (some place)))) ∧
    ∀ id d decl, c.session.Declares id d → w.index.tree? w.units d = some decl →
      decl.head.kind = .classType → w.symbolOf d = .type config.rootObject →
      (c.ask (.superclass id)).1 = .types [.absent] := by
  intro w c
  have h : c.Fits w := fits_asked token files provider config questions
  have hroot : w.text w.wellKnown.rootObject = config.rootObject :=
    text_rootObject token files provider config
  refine ⟨?_, fun id d decl hid htree hkind hname =>
    ask_superclass_root h hroot hid htree hkind hname⟩
  intro a b d e declA declB first second rest place between₁ between₂ ha hplainA hnothing hb
    hplainB hwritten hspelled c₁ hidden c₂ c₃
  obtain ⟨h₀, hg₀⟩ := fits_ask h (.superclass a)
  obtain ⟨h₁, hg₁⟩ := fits_askAll h₀ between₁
  obtain ⟨h₁', hg₁'⟩ := fits_ask h₁ (.superclass b)
  obtain ⟨h₂, hg₂⟩ := fits_askAll h₁' between₂
  obtain ⟨h₃, hg₃⟩ := fits_ask h₂ (.lookupType config.rootObject)
  obtain ⟨hshowA, hdeclA⟩ := ha.shows h.idle.resolved
  obtain ⟨hshowB, hdeclB⟩ := hb.shows h.idle.resolved
  have hfirst := hplainB.proper_first h.idle.resolved.world hwritten
  -- what a client received keeps its meaning, so that the replies can be compared at the end
  have htoldA : ToldName w config.rootObject declA.head.nameSpan (c.ask (.superclass a)).1 c₃ :=
    (ask_superclass_implicit h honest hroot hshowA hdeclA hplainA hnothing).grow h₀ h₃
      (hg₁.trans (hg₁'.trans (hg₂.trans hg₃)))
  have htoldB : ToldName w config.rootObject place (c₁.ask (.superclass b)).1 c₃ := by
    have hshowB' := hshowB.grow h.idle.resolved.sound (hg₀.trans hg₁).toKeeps
    exact (ask_superclass_explicit h₁ honest hroot hshowB' hdeclB hplainB hwritten hfirst hspelled
      hidden).grow h₁' h₃ (hg₂.trans hg₃)
  have hname : config.rootObject ≠ "" := by
    rw [← hspelled]
    exact World.intercalate_path_ne_empty hfirst _
  exact htoldA.agree h₂ hname htoldB

end Asked

/-- A class that extends nothing, one that extends the root, and the root. -/
def rooted : Batch :=
  #[⟨"A.java", "package p; class A {} class B extends java.lang.Object {}"⟩,
    ⟨"Object.java", "package java.lang; public class Object {}"⟩]

/-- Whether a written type is a name in full and its first segment names no type of the file. -/
def spellsOut (w : World) (unit : Nat) (name : String) : TypeRef → Bool
  | .classType (first :: second :: rest) _ =>
    (".".intercalate ((first :: second :: rest).map fun seg => w.text seg.name) = name) &&
      (w.candidates first.name unit).all fun candidate => (w.lookup candidate).toOption.isNone
  | _ => false

/-- The first two have the third as their superclass, which has none. -/
theorem root_superclass_of_both :
    let w : World := world 0 rooted onlyObject {}
    let c : Client := (start 0 rooted onlyObject {}).askAll
      [.lookupType "p.A", .lookupType "p.B", .lookupType "java.lang.Object"]
    let c₁ : Client := (c.ask (.superclass 1)).2.askAll [.interfaces 1]
    let c₂ : Client := (c₁.ask (.superclass 2)).2.askAll []
    let c₃ : Client := (c₂.ask (.lookupType "java.lang.Object")).2
    ∃ declA declB first second rest place,
      (c.session.Declares 1 0 ∧ w.PlainClass "java.lang.Object" 0 declA ∧
        declA.head.extended = []) ∧
      (c.session.Declares 2 1 ∧ w.PlainClass "java.lang.Object" 1 declB ∧
        declB.head.extended.head? = some (.classType (first :: second :: rest) place) ∧
        ".".intercalate ((first :: second :: rest).map fun seg => w.text seg.name) =
          "java.lang.Object" ∧
        ¬w.Visible (c₁.ask (.superclass 2)).2.session.HoldsList (w.headerScopeOf 1) first.name) ∧
      (∃ id type type', (c₂.ask (.lookupType "java.lang.Object")).1 = .elements [id] ∧
        (c.ask (.superclass 1)).1 = .types [type] ∧ c₃.Names type id ∧
        (c₁.ask (.superclass 2)).1 = .types [type'] ∧ c₃.Names type' id) ∧
      (c.ask (.superclass 4)).1 = .types [.absent] := by
  intro w c c₁ c₂ c₃
  obtain ⟨hA, hB, hR, htreeA, htreeB, htreeR, hroot, hnotA, hnotB, hlevels, hreply⟩ :
      c.session.Declares 1 0 ∧ c.session.Declares 2 1 ∧ c.session.Declares 4 2 ∧
        ((w.index.tree? w.units 0).any fun t => t.head.kind = .classType && !t.isConstantBody &&
          t.head.extended.isEmpty) ∧
        ((w.index.tree? w.units 1).any fun t => t.head.kind = .classType && !t.isConstantBody &&
          t.head.extended.head?.any (spellsOut w (w.headerScopeOf 1).unit "java.lang.Object")) ∧
        ((w.index.tree? w.units 2).any fun t => t.head.kind = .classType) ∧
        w.symbolOf 2 = .type "java.lang.Object" ∧ w.symbolOf 0 ≠ .type "java.lang.Object" ∧
        w.symbolOf 1 ≠ .type "java.lang.Object" ∧ (w.headerScopeOf 1).levels = [] ∧
        (c₂.ask (.lookupType "java.lang.Object")).1.error? = none := by
    decide +kernel
  obtain ⟨declA, htreeA, hA'⟩ := (Option.any_eq_true _ _).1 htreeA
  obtain ⟨declB, htreeB, hB'⟩ := (Option.any_eq_true _ _).1 htreeB
  obtain ⟨declR, htreeR, hkindR⟩ := (Option.any_eq_true _ _).1 htreeR
  rw [Bool.and_eq_true, Bool.and_eq_true, decide_eq_true_eq, Bool.not_eq_true',
    List.isEmpty_iff] at hA'
  rw [Bool.and_eq_true, Bool.and_eq_true, decide_eq_true_eq, Bool.not_eq_true'] at hB'
  obtain ⟨⟨hkindA, hbodyA⟩, hnothing⟩ := hA'
  obtain ⟨⟨hkindB, hbodyB⟩, hwritten⟩ := hB'
  obtain ⟨written, hclause, hwritten⟩ := (Option.any_eq_true _ _).1 hwritten
  have hplainA : w.PlainClass "java.lang.Object" 0 declA := ⟨htreeA, hkindA, hbodyA, hnotA⟩
  have hplainB : w.PlainClass "java.lang.Object" 1 declB := ⟨htreeB, hkindB, hbodyB, hnotB⟩
  unfold spellsOut at hwritten
  split at hwritten
  · rename_i first second rest place
    obtain ⟨hspelled, hunknown⟩ := Bool.and_eq_true_iff.1 hwritten
    replace hspelled := of_decide_eq_true hspelled
    have hhidden : ¬w.Visible (c₁.ask (.superclass 2)).2.session.HoldsList (w.headerScopeOf 1)
        first.name := by
      rintro (⟨d, hd, -⟩ | ⟨name, hname, symbol, hsymbol⟩)
      · rw [hlevels] at hd
        cases hd
      · have hnone := List.all_eq_true.1 hunknown name hname
        rw [hsymbol] at hnone
        cases hnone
    -- the facts from the general theorem are about the client as it is written
    unfold c₂ c₁ c at hreply
    unfold c₁ c at hhidden
    unfold c₃ c₂ c₁ c
    obtain ⟨hboth, hroots⟩ := root_superclass 0 rooted onlyObject {} onlyObject_honest
      [.lookupType "p.A", .lookupType "p.B", .lookupType "java.lang.Object"]
    have hnone := hroots 4 2 declR hR htreeR (of_decide_eq_true hkindR) hroot
    have hsame := hboth 1 2 0 1 declA declB first second rest place [.interfaces 1] [] hA hplainA
      hnothing hB hplainB hclause hspelled hhidden
    refine ⟨declA, declB, first, second, rest, place, ⟨hA, hplainA, hnothing⟩,
      ⟨hB, hplainB, hclause, hspelled, hhidden⟩, hsame.resolve_right ?_, hnone⟩
    rintro ⟨htold, -⟩
    rw [htold] at hreply
    cases hreply
  · cases hwritten

end Client

end JavaAbi
