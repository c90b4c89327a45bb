import JavaAbi.Proofs.ArgumentTexts
import JavaAbi.Proofs.SimpleNames

namespace JavaAbi

/-!
# Class types as text

The text of a class type is the name of its element, and the arguments of its last segment. Two
class types of one element have the same text just where these arguments have: commas and brackets
in their texts do not mix up, because all names are closed texts. The arguments of the segments
before the last one are not part of the text.

* `renderClass` — a class type as text, with its element and the texts of all its arguments;
* `World.Closed` — worlds in which the names are closed texts;
* `displayType_closed` — then so are the texts of the types that are written;
* `renderClass_ends` — what the text of a class type is made of;
* `Client.text_eq_iff` — when two class types of one element have one text.
-/

open Course Stage

variable {w : World} {s t : Session} {base : NameTable} {lists : Symbol → List Symbol → Prop}

/-! ### Rendering -/

/-- A class type as text, with the element that it names and the texts of the arguments of each of
    its segments. -/
structure Rendering where
  element : Except ModelError (Option ElementId)
  text : String
  args : List (List String)
  deriving DecidableEq

/-- The texts of the arguments of each segment. -/
def argumentTexts (sc : Scope) (segments : List ClassSegment) : SessionM (List (List String)) :=
  segments.mapM fun seg => do displayTypes (← typesOf directSupertypes sc seg.args)

/-- The class type that is written in a scope, as text. -/
def renderClass (sc : Scope) (segments : List ClassSegment) (place : Span) :
    SessionM Rendering := do
  let type ← typeOf directSupertypes sc (.classType segments place)
  let element ← (elementOfType type).run
  let text ← displayType type
  return ⟨element, text, ← argumentTexts sc segments⟩

/-! ### Worlds of closed names -/

/-- The provider knows closed names only. -/
def Provider.Closed (p : Provider) : Prop :=
  ∀ name d, p.resolve? name = some d → ClosedText name

namespace World

/-- **The names of a world are closed texts**: those of the batch, which are those of the table
    `base`, and those that the provider knows. -/
structure Closed (w : World) (base : NameTable) : Prop where
  settled : w.index.Settled w.units base w.names
  trees : ∀ u ∈ w.units, u.Sound base False
  names : base.Le w.names
  batch : base.Closed
  provider : w.provider.Closed

/-- The world of a client. -/
theorem closed_of_client {token : SessionToken} {files : Batch} {provider : Provider}
    {config : ModelConfig} (h : provider.Closed) :
    (Client.world token files provider config).Closed (parseBatch files).2.1 where
  settled := settled_of_client
  trees := Client.trees_world token files provider config
  names := names_of_client
  batch := parseBatch_closed files
  provider := h

namespace Closed

variable (h : w.Closed base)

include h

theorem text {n : Name} (hn : base.Issued n) : ClosedText (w.text n) := by
  rw [World.text, NameTable.text_le hn h.names]
  exact h.batch n

/-- **The name of a type is a closed text.** -/
theorem nameOf (hs : s.Resolved w) {symbol : Symbol} {id : ElementId}
    (hshow : s.ShowsType symbol id) : ClosedText (w.nameOf symbol) := by
  cases hd : w.declOf? symbol with
  | some d =>
    obtain ⟨hp, rfl, hden⟩ := hshow.shows.tree hs.world hs.sound hs.of hd
    obtain ⟨i, tree, e, he⟩ := hs.sound.isTree hp hden
    have hi := he.info_world hs.of
    have htree := he.tree_world hs.of
    -- a declaration without a canonical name has the simple name that its tree has
    have hsimple : ClosedText (w.text i.simpleName) := by
      have hplace : treeAt w.units i.unit i.path = some tree := by
        rwa [DeclIndex.tree?, hi] at htree
      rw [(hs.world.index.infos d i hi).simple tree hplace]
      cases hname : tree.head.name with
      | none => exact h.text ⟨_, base.resolve?_empty⟩
      | some n => exact h.text ((DeclIndex.sound_of_tree? h.trees htree).head.name n hname).1
    rw [symbolOf, DeclIndex.keyOf_eq hi, DeclInfo.key]
    cases hq : i.qualifiedName with
    | named n =>
      have htitled := h.settled.orderly.titled d _ (DeclIndex.known?_of_get? hi)
      rw [show i.fixed.qualifiedName = .named n from hq] at htitled
      show ClosedText (w.names.text n)
      rw [NameTable.text_eq htitled.2.2]
      refine .dotted fun text htext => ?_
      obtain ⟨m, -, rfl⟩ := List.mem_map.1 htext
      exact h.batch m
    | anonymous | notApplicable =>
      dsimp only [QualifiedName.name?, ElementKey.symbol, World.nameOf]
      rw [hi]
      exact hsimple
  | none =>
    cases symbol with
    | type name =>
      obtain ⟨n, d, e, rfl, -, he⟩ := hshow.shows.described hs.world hs.sound hs.of hd
      exact h.provider _ d (hs.of.provider ▸ he.answer)
    | unnamed d => cases hd
    | _ => exact hshow.isType.elim

end Closed

end World

/-! ### Types of closed names -/

/-- The names that a type target writes are closed texts. -/
def TargetView.Closed (w : World) : TargetView → Prop
  | .known _ => True
  | .written r => ∀ n ∈ r.path, ClosedText (w.text n)

mutual

/-- The names in a type are closed texts. -/
def TypeView.Closed (w : World) : TypeView → Prop
  | .declared target args _ => target.Closed w ∧ TypeView.AllClosed w args
  | .array component => component.Closed w
  | .typeVariable name _ => ClosedText name
  | .wildcard upper lower => TypeView.BoundClosed w upper ∧ TypeView.BoundClosed w lower
  | _ => True

/-- So are those in types. -/
def TypeView.AllClosed (w : World) : List TypeView → Prop
  | [] => True
  | v :: rest => v.Closed w ∧ TypeView.AllClosed w rest

/-- So are those in a bound. -/
def TypeView.BoundClosed (w : World) : Option TypeView → Prop
  | none => True
  | some v => v.Closed w

end

namespace World

section Finds

variable {sc : ScopeView}

/-- A type parameter has the name by which it is found. -/
theorem finds_typeVariable?_name {name n : Name} {owner : Symbol}
    (h : (w.typeVariable? name sc).Finds lists (some (n, owner))) : n = name := by
  unfold typeVariable? at h
  cases hlevel : w.parameterLevel name sc.chain with
  | none =>
    rw [hlevel] at h
    cases h.pure_inv
  | some level =>
    rw [hlevel] at h
    obtain ⟨hides, -, h⟩ := h.bind_inv
    cases hides with
    | true => cases h.pure_inv
    | false =>
      obtain ⟨d, -, hd⟩ := Option.map_eq_some_iff.1 h.pure_inv.symm
      cases hd
      rfl

/-- The type of some segments is that of the last one. -/
theorem enclosedTypes_last (sc : ScopeView) (place : Span) (path : List Name)
    (enclosing : TypeView) {segments : List (Name × List TypeView)} {name : Name}
    {args : List TypeView}
    (h : segments.getLast? = some (name, args)) : ∃ path' enclosing',
      World.enclosedTypes sc place path enclosing segments =
        .declared (.written ⟨sc, path', place⟩) args enclosing' ∧
      path' = path ++ segments.map Prod.fst := by
  induction segments generalizing path enclosing with
  | nil => cases h
  | cons first rest ih =>
    obtain ⟨n, as⟩ := first
    cases rest with
    | nil =>
      cases h
      exact ⟨_, enclosing, rfl, rfl⟩
    | cons next rest =>
      rw [List.getLast?_cons_cons] at h
      unfold World.enclosedTypes
      dsimp only
      split
      · obtain ⟨path', enclosing', htype, hpath⟩ := ih _ _ h
        exact ⟨path', enclosing', htype, by rw [hpath, List.append_assoc]; rfl⟩
      · obtain ⟨path', enclosing', htype, hpath⟩ := ih _ _ h
        exact ⟨path', enclosing', htype, by rw [hpath, List.append_assoc]; rfl⟩

/-- The arguments of segments are read one after the other. -/
theorem finds_segmentsOf {segments : List ClassSegment} {found : List (Name × List TypeView)}
    (h : (w.segmentsOf sc segments).Finds lists found) :
    List.Forall₂ (fun seg x => x.1 = seg.name ∧ (w.typesOf sc seg.args).Finds lists x.2) segments
      found := by
  induction segments generalizing found with
  | nil =>
    rw [World.segmentsOf] at h
    cases h.pure_inv
    exact .nil
  | cons seg rest ih =>
    obtain ⟨later, views, hlater, hviews, rfl⟩ := finds_segmentsOf_cons h
    exact .cons ⟨rfl, hviews⟩ (ih hlater)

/-- How a class type is read: as a type parameter, if it is a simple name that denotes one, or else
    by its segments. -/
theorem finds_classType {segments : List ClassSegment} {place : Span} {v : TypeView}
    (h : (w.typeOf sc (.classType segments place)).Finds lists v) :
    (∃ only owner, segments = [only] ∧
      (w.typeVariable? only.name sc).Finds lists (some (only.name, owner)) ∧
      v = .typeVariable (w.text only.name) owner) ∨
    ∃ found, (w.segmentsOf sc segments).Finds lists found ∧
      v = World.enclosedTypes sc place [] .absent found ∧
      ∀ only, segments = [only] → (w.typeVariable? only.name sc).Finds lists none := by
  unfold World.typeOf at h
  dsimp only at h
  split at h
  · rename_i only
    obtain ⟨parameter, hparameter, h⟩ := h.bind_inv
    cases parameter with
    | some p =>
      obtain ⟨n, owner⟩ := p
      obtain rfl := finds_typeVariable?_name hparameter
      exact .inl ⟨only, owner, rfl, hparameter, h.pure_inv⟩
    | none =>
      obtain ⟨found, hfound, h⟩ := h.bind_inv
      refine .inr ⟨found, hfound, h.pure_inv, fun other hother => ?_⟩
      cases hother
      exact hparameter
  · rename_i hsegments
    obtain ⟨parameter, hparameter, h⟩ := h.bind_inv
    cases hparameter.pure_inv
    obtain ⟨found, hfound, h⟩ := h.bind_inv
    exact .inr ⟨found, hfound, h.pure_inv, fun only honly => absurd honly (hsegments only)⟩

mutual

/-- **What is written has closed names.** -/
theorem finds_typeOf_closed (hc : w.Closed base) {type : TypeRef} {v : TypeView}
    (ht : type.Sound base) (h : (w.typeOf sc type).Finds lists v) : v.Closed w := by
  match type with
  | .primitive _ _ | .void _ | .error _ =>
    rw [World.typeOf] at h
    cases h.pure_inv
    trivial
  | .wildcard _ =>
    rw [World.typeOf] at h
    cases h.pure_inv
    exact ⟨trivial, trivial⟩
  | .array component _ =>
    rw [World.typeOf] at h
    obtain ⟨inner, hinner, h⟩ := h.bind_inv
    cases h.pure_inv
    show inner.Closed w
    exact finds_typeOf_closed hc (by cases ht; assumption) hinner
  | .wildcardExtends bound _ =>
    rw [World.typeOf] at h
    obtain ⟨inner, hinner, h⟩ := h.bind_inv
    cases h.pure_inv
    exact ⟨finds_typeOf_closed hc (by cases ht; assumption) hinner, trivial⟩
  | .wildcardSuper bound _ =>
    rw [World.typeOf] at h
    obtain ⟨inner, hinner, h⟩ := h.bind_inv
    cases h.pure_inv
    exact ⟨trivial, finds_typeOf_closed hc (by cases ht; assumption) hinner⟩
  | .classType segments place =>
    obtain ⟨hnames, hargs⟩ : (∀ seg ∈ segments, base.Proper seg.name) ∧
        ∀ seg ∈ segments, ∀ a ∈ seg.args, a.Sound base := by
      cases ht with
      | classType _ _ _ hn ha => exact ⟨hn, ha⟩
    rcases finds_classType h with ⟨only, owner, rfl, -, rfl⟩ | ⟨found, hfound, rfl, -⟩
    · exact hc.text (hnames only List.mem_cons_self).1
    · -- The type is that of the last segment, and its path has the names of all of them.
      have hclosed := finds_segmentsOf_closed hc hargs hfound
      cases hlast : found.getLast? with
      | none =>
        rw [List.getLast?_eq_none_iff.1 hlast]
        trivial
      | some last =>
        obtain ⟨path, enclosing, htype, hpath⟩ :=
          enclosedTypes_last sc place [] .absent hlast
        rw [htype]
        refine ⟨fun n hn => ?_, hclosed _ (List.mem_of_getLast? hlast)⟩
        rw [show (ReferenceView.mk sc path place).path = path from rfl, hpath,
          List.nil_append] at hn
        obtain ⟨x, hx, rfl⟩ := List.mem_map.1 hn
        obtain ⟨seg, hseg, hname, -⟩ := forall₂_mem_left (finds_segmentsOf hfound).flip x hx
        rw [hname]
        exact hc.text (hnames seg hseg).1

theorem finds_segmentsOf_closed (hc : w.Closed base) {segments : List ClassSegment}
    {found : List (Name × List TypeView)} (ht : ∀ seg ∈ segments, ∀ a ∈ seg.args, a.Sound base)
    (h : (w.segmentsOf sc segments).Finds lists found) :
    ∀ x ∈ found, TypeView.AllClosed w x.2 := by
  match segments with
  | [] =>
    rw [World.segmentsOf] at h
    cases h.pure_inv
    exact List.forall_mem_nil _
  | .mk name args :: rest =>
    obtain ⟨later, views, hlater, hviews, rfl⟩ := finds_segmentsOf_cons h
    exact List.forall_mem_cons.2 ⟨finds_typesOf_closed hc (ht _ List.mem_cons_self) hviews,
      finds_segmentsOf_closed hc (fun seg hseg => ht seg (List.mem_cons_of_mem _ hseg)) hlater⟩

theorem finds_typesOf_closed (hc : w.Closed base) {types : List TypeRef} {vs : List TypeView}
    (ht : ∀ type ∈ types, type.Sound base) (h : (w.typesOf sc types).Finds lists vs) :
    TypeView.AllClosed w vs := by
  match types with
  | [] =>
    rw [World.typesOf] at h
    cases h.pure_inv
    trivial
  | type :: rest =>
    obtain ⟨first, views, hfirst, hviews, rfl⟩ := finds_typesOf_cons h
    exact ⟨finds_typeOf_closed hc (ht type List.mem_cons_self) hfirst,
      finds_typesOf_closed hc (fun t h => ht t (List.mem_cons_of_mem _ h)) hviews⟩

end

end Finds

end World

/-! ### Texts of closed names -/

/-- What stands for a type that does not resolve. -/
theorem TargetView.Closed.pathOf? {target : TargetView} (h : target.Closed w) :
    ClosedText ((w.pathOf? target).getD "<error>") := by
  cases target with
  | known symbol =>
    show ClosedText "<error>"
    decide
  | written r =>
    refine .dotted fun text htext => ?_
    obtain ⟨n, hn, rfl⟩ := List.mem_map.1 htext
    exact h n hn

mutual

/-- **The text of a type of closed names is a closed text.** -/
theorem displayType_closed (hc : w.Closed base) {s : Session} {type : ModelType}
    (h : s.Holds w type) (hv : (s.view type).Closed w) :
    (asking w).Ends s (displayType type) fun text _ => ClosedText text := by
  match type with
  | .declared origin target args enclosing =>
    refine .sound fun hs => ?_
    have helement := elementOfType_honours h
    rw [Session.Holds] at h
    rw [Session.view] at hv
    obtain ⟨rfl, htarget, hargs, -⟩ := h
    obtain ⟨htargetv, hargsv⟩ := hv
    rw [displayType_declared]
    refine Ends.bind (m := (elementOfType (.declared s.token target args enclosing)).run)
      helement fun r t ht hg ⟨y, hy, _⟩ => .reads (reads_displayHead hs ht hg htarget hy) ?_
    have hhead : ClosedText (w.headOf (s.viewTarget target) y) := by
      match r, y, hy with
      | .ok (some id), .ok (some symbol), hy => exact hc.nameOf ht.resolved hy
      | .ok none, .ok none, _ | .error _, .error _, _ => exact htargetv.pathOf?
    -- The arguments are put between brackets behind it.
    have htexts := displayTypes_closed hc (hargs.learn hs.resolved.sound hg) (by
      rwa [Session.viewAll_grow hs.resolved ht.resolved hg.toKeeps hargs])
    exact htexts.bind fun texts _ _ _ hclosed =>
      .pure fun _ => closedText_argumentText hhead hclosed
  | .typeVariable name owner =>
    rw [Session.Holds] at h
    refine (reads_nameText h.1).ends.mono fun text t _ _ htext => ?_
    rw [htext.1]
    exact hv
  | .array component =>
    rw [Session.Holds] at h
    rw [displayType]
    exact (displayType_closed hc h hv).bind fun _ _ _ _ htext =>
      .pure fun _ => htext.append (by decide)
  | .wildcard upper lower =>
    rw [Session.Holds] at h
    refine .sound fun hs => ?_
    rw [displayType]
    refine (displayBound_closed hc " extends " (by decide) h.1 hv.1).bind
      fun text t ht hg htext => ?_
    have hlower := displayBound_closed hc " super " (by decide)
      (h.2.learn hs.resolved.sound hg) (by
        rw [Session.viewBound_grow hs.resolved ht.resolved hg.toKeeps h.2]
        exact hv.2)
    refine hlower.bind fun more _ _ _ hmore => .pure fun _ => ?_
    exact ((show ClosedText "?" by decide).append htext).append hmore
  | .primitive p =>
    exact .pure fun _ => by cases p <;> decide
  | .absent | .void | .package | .error => exact .pure fun _ => by decide

theorem displayBound_closed (hc : w.Closed base) {s : Session} {bound : Option ModelType}
    (word : String) (hword : ClosedText word) (h : s.HoldsBound w bound)
    (hv : TypeView.BoundClosed w (s.viewBound bound)) :
    (asking w).Ends s (displayBound word bound) fun text _ => ClosedText text := by
  match bound with
  | none => exact .pure fun _ => by decide
  | some type =>
    rw [Session.HoldsBound] at h
    rw [displayBound]
    exact (displayType_closed hc h hv).bind fun _ _ _ _ htext =>
      .pure fun _ => hword.append htext

theorem displayTypes_closed (hc : w.Closed base) {s : Session} {types : List ModelType}
    (h : s.HoldsAll w types) (hv : TypeView.AllClosed w (s.viewAll types)) :
    (asking w).Ends s (displayTypes types) fun texts _ => ∀ text ∈ texts, ClosedText text := by
  match types with
  | [] => exact .pure fun _ => List.forall_mem_nil _
  | type :: rest =>
    rw [Session.HoldsAll] at h
    refine .sound fun hs => ?_
    rw [displayTypes]
    refine (displayType_closed hc h.1 hv.1).bind fun text t ht hg htext => ?_
    have hrest := displayTypes_closed hc (h.2.learn hs.resolved.sound hg) (by
      rw [Session.viewAll_grow hs.resolved ht.resolved hg.toKeeps h.2]
      exact hv.2)
    exact hrest.bind fun texts _ _ _ htexts => .pure fun _ => List.forall_mem_cons.2 ⟨htext, htexts⟩

end

/-! ### The text of a class type -/

namespace World

/-- How the texts of arguments are found. -/
def argumentTexts (w : World) (sc : ScopeView) (segments : List ClassSegment) :
    Inquiry (List (List String)) :=
  segments.mapM fun seg => do w.textsOf (← w.typesOf sc seg.args)

section Finds

variable {sc : ScopeView}

/-- The texts of the arguments of a segment. -/
theorem finds_argumentTexts {segments : List ClassSegment} {found : List (List String)}
    (h : (w.argumentTexts sc segments).Finds lists found) :
    List.Forall₂ (fun seg texts => ∃ vs, (w.typesOf sc seg.args).Finds lists vs ∧
      (w.textsOf vs).Finds lists texts) segments found := by
  unfold argumentTexts at h
  induction segments generalizing found with
  | nil =>
    rw [List.mapM_nil] at h
    cases h.pure_inv
    exact .nil
  | cons seg rest ih =>
    rw [List.mapM_cons] at h
    obtain ⟨texts, htexts, h⟩ := h.bind_inv
    obtain ⟨later, hlater, h⟩ := h.bind_inv
    cases h.pure_inv
    exact .cons htexts.bind_inv (ih hlater)

end Finds

end World

theorem typesOf_heeds {sc : Scope} {types : List TypeRef} (hsc : s.Scoped w sc)
    (ht : ∀ type ∈ types, type.Sound w.names) :
    w.Heeds s (typesOf directSupertypes sc types) (w.typesOf sc.view types) (heldAll w) :=
  .of_follows fun n => typesOf_follows (directSupertypes_supplies w n) hsc ht

/-- **The arguments of a class type are put into text** as the rules say, and their texts are
    closed. -/
theorem argumentTexts_heeds (hc : w.Closed base) {sc : Scope} {segments : List ClassSegment}
    (hsc : s.Scoped w sc) (ht : ∀ seg ∈ segments, ∀ a ∈ seg.args, a.Sound base) :
    w.Heeds s (argumentTexts sc segments) (w.argumentTexts sc.view segments) fun found texts _ =>
      found = texts ∧ ∀ group ∈ found, ∀ text ∈ group, ClosedText text := by
  refine .sound fun hs => ?_
  -- The groups of arguments are put into text one after the other.
  have hall : w.Heeds s (argumentTexts sc segments) (w.argumentTexts sc.view segments)
      fun found texts _ => List.Forall₂ (fun x y => x = y ∧ ∀ text ∈ x, ClosedText text) found
        texts := by
    refine .mapM fun seg hseg t hg => ?_
    have hsc' := hsc.grow hs.resolved.sound hg.toKeeps
    have hargs := fun a ha => (ht seg hseg a ha).le hc.names
    intro hidle
    have hread : (asking w).Ends t (typesOf directSupertypes sc seg.args) fun types u =>
        ∃ vs, heldAll w types vs u ∧ u.Concludes w (w.typesOf sc.view seg.args) vs :=
      typesOf_heeds hsc' hargs
    refine (Ends.bind hread fun types u hu hg' ⟨vs, ⟨hholds, hview⟩, hvs⟩ => ?_) hidle
    subst hview
    have hclosed := displayTypes_closed hc hholds
      (World.finds_typesOf_closed hc (fun a ha => ht seg hseg a ha) hvs.held)
    refine (hclosed.and (displayTypes_heeds hholds)).mono ?_
    rintro found v hv hg'' ⟨htexts, texts, heq, hx⟩
    obtain rfl : found = texts := heq
    exact ⟨found, ⟨rfl, htexts⟩, hvs.bind hg''.lists hx⟩
  refine hall.mono fun found texts t _ _ hfound => ?_
  refine ⟨List.forall₂_eq_eq_eq ▸ hfound.imp fun _ _ h => h.1, fun group hgroup => ?_⟩
  obtain ⟨_, -, -, htexts⟩ := forall₂_mem_left hfound group hgroup
  exact htexts

/-- In lists that correspond, the last entries do. -/
theorem forall₂_concat {α β : Type} {rel : α → β → Prop} {front : List α} {a : α} {bs : List β}
    (h : List.Forall₂ rel (front ++ [a]) bs) :
    ∃ bfront b, bs = bfront ++ [b] ∧ List.Forall₂ rel front bfront ∧ rel a b := by
  induction front generalizing bs with
  | nil =>
    cases h with
    | cons hab hrest =>
      cases hrest
      exact ⟨[], _, rfl, .nil, hab⟩
  | cons first rest ih =>
    cases h with
    | cons hfirst hrest =>
      obtain ⟨bfront, b, rfl, hfront, hab⟩ := ih hrest
      exact ⟨_ :: bfront, b, rfl, .cons hfirst hfront, hab⟩

/-- Segments without arguments have no texts. -/
def Unargued (seg : ClassSegment) (texts : List String) : Prop := seg.args = [] → texts = []

/-- **What is found of a class type** that has an element: its text is the name of the element with
    the texts of the arguments of the last segment. -/
theorem World.finds_text (hl : ∀ symbol l l', lists symbol l → lists symbol l' → l = l')
    {sc : ScopeView} {front : List ClassSegment} {last : ClassSegment} {place : Span} {v : TypeView}
    {symbol : Symbol} {text : String} {args : List (List String)}
    (hv : (w.typeOf sc (.classType (front ++ [last]) place)).Finds lists v)
    (hsymbol : (w.resolveType v).run.Finds lists (.ok (some symbol)))
    (htext : (w.textOf v).Finds lists text)
    (hargs : (w.argumentTexts sc (front ++ [last])).Finds lists args) :
    ∃ outer texts, args = outer ++ [texts] ∧ text = argumentText (w.nameOf symbol) texts ∧
      List.Forall₂ Unargued front outer := by
  obtain ⟨outer, texts, rfl, houter, vs, hvs, htexts⟩ := forall₂_concat (finds_argumentTexts hargs)
  refine ⟨outer, texts, rfl, ?_, houter.imp ?_⟩
  · rcases finds_classType hv with ⟨only, owner, -, -, rfl⟩ | ⟨found, hfound, rfl, -⟩
    · cases hsymbol.pure_inv
    · obtain ⟨ffront, ⟨name, vs'⟩, rfl, -, -, hvs'⟩ := forall₂_concat (finds_segmentsOf hfound)
      obtain rfl := hvs.unique hl hvs'
      obtain ⟨path, enclosing, htype, -⟩ := enclosedTypes_last sc place [] .absent
        (List.getLast?_concat (l := ffront) (a := (name, vs)))
      rw [htype] at hsymbol htext
      rw [World.textOf] at htext
      obtain ⟨r, hr, htext⟩ := htext.bind_inv
      obtain rfl := hsymbol.unique hl hr
      obtain ⟨head, hhead, htext⟩ := htext.bind_inv
      obtain rfl : head = w.nameOf symbol := hhead.pure_inv
      obtain ⟨texts', htexts', htext⟩ := htext.bind_inv
      obtain rfl := htexts.unique hl htexts'
      exact htext.pure_inv
  · rintro seg group ⟨vs, hvs, hgroup⟩ hnone
    rw [hnone, World.typesOf] at hvs
    cases hvs.pure_inv
    exact hgroup.pure_inv

/-- **What the text of a class type is made of.** -/
theorem renderClass_ends (hc : w.Closed base) {sc : Scope} {front : List ClassSegment}
    {last : ClassSegment} {place : Span} (hsc : s.Scoped w sc)
    (ht : (TypeRef.classType (front ++ [last]) place).Sound base) :
    (asking w).Ends s (renderClass sc (front ++ [last]) place) fun r t =>
      ∀ id, r.element = .ok (some id) → ∃ symbol outer texts, t.ShowsType symbol id ∧
        r.args = outer ++ [texts] ∧ r.text = argumentText (w.nameOf symbol) texts ∧
        (∀ text ∈ texts, ClosedText text) ∧ List.Forall₂ Unargued front outer := by
  refine .sound fun hs => ?_
  have hargs : ∀ seg ∈ front ++ [last], ∀ a ∈ seg.args, a.Sound base := by
    cases ht with
    | classType _ _ _ _ ha => exact ha
  unfold renderClass
  have hread : (asking w).Ends s (typeOf directSupertypes sc (.classType (front ++ [last]) place))
      fun type t => ∃ v, Held w 0 (.classType (front ++ [last]) place) type v t ∧
        t.Concludes w (w.typeOf sc.view (.classType (front ++ [last]) place)) v :=
    typeOf_heeds hsc (ht.le hc.names)
  refine Ends.bind hread fun type t ht' hg ⟨v, hheld, hv⟩ => ?_
  obtain ⟨hholds, rfl, -⟩ := hheld
  have helement : (asking w).Ends t (elementOfType type).run fun r u =>
      ∃ y, outcomes w.provider.Excuses (optional shown) r y u ∧
        u.Concludes w (w.resolveType (t.view type)).run y := elementOfType_honours hholds
  refine Ends.bind helement fun r u hu hg' ⟨y, hry, hy⟩ => ?_
  have hdisplay : (asking w).Ends u (displayType type) fun text x =>
      ∃ text', text = text' ∧ x.Concludes w (w.textOf (u.view type)) text' :=
    displayType_heeds (hholds.learn ht'.resolved.sound hg')
  rw [Session.view_grow ht'.resolved hu.resolved hg'.toKeeps hholds] at hdisplay
  refine Ends.bind hdisplay fun text x hx hg'' ⟨_, heq, htext⟩ => ?_
  subst heq
  have htexts : (asking w).Ends x (argumentTexts sc (front ++ [last])) fun found z =>
      ∃ texts, (found = texts ∧ ∀ group ∈ found, ∀ text ∈ group, ClosedText text) ∧
        z.Concludes w (w.argumentTexts sc.view (front ++ [last])) texts :=
    argumentTexts_heeds hc (hsc.grow hs.resolved.sound
      (hg.toKeeps.trans (hg'.toKeeps.trans hg''.toKeeps))) hargs
  refine Ends.bind htexts fun found z hz hg₃ ⟨_, ⟨heq, hclosed⟩, hfound⟩ => .pure fun _ => ?_
  subst heq
  intro id hid
  -- all answers are found with the lists that the session holds at the end
  match r, y, hry, hid with
  | .ok (some _), .ok (some symbol), hshow, rfl =>
    obtain ⟨outer, texts, hsplit, htext', houter⟩ := World.finds_text
      (fun _ _ _ h h' => h.unique hz.resolved.sound h')
      (hv.held.mono (hg'.lists.trans (hg''.lists.trans hg₃.lists)))
      (hy.held.mono (hg''.lists.trans hg₃.lists)) (htext.held.mono hg₃.lists) hfound.held
    refine ⟨symbol, outer, texts, ?_, hsplit, htext', fun a ha => ?_, houter⟩
    · exact Session.ShowsType.grow hu.resolved.sound hshow (hg''.toKeeps.trans hg₃.toKeeps)
    · exact hclosed texts (hsplit ▸ List.mem_append_right _ List.mem_cons_self) a ha

/-! ### Types of one element -/

/-- Lists of one length that are empty but for the last entry. -/
theorem eq_of_unargued {front front' : List ClassSegment} {outer outer' : List (List String)}
    (hlength : front.length = front'.length) (h : List.Forall₂ Unargued front outer)
    (h' : List.Forall₂ Unargued front' outer') (hnone : ∀ seg ∈ front, seg.args = [])
    (hnone' : ∀ seg ∈ front', seg.args = []) : outer = outer' := by
  have hempty : ∀ {front : List ClassSegment} {outer : List (List String)},
      List.Forall₂ Unargued front outer → (∀ seg ∈ front, seg.args = []) →
      outer = List.replicate front.length [] := by
    intro front outer h hnone
    induction h with
    | nil => rfl
    | cons hx _ ih =>
      rw [List.length_cons, List.replicate_succ, hx (hnone _ List.mem_cons_self),
        ih fun seg hseg => hnone seg (List.mem_cons_of_mem _ hseg)]
  rw [hempty h hnone, hempty h' hnone', hlength]

namespace Client

variable (token : SessionToken) (files : Batch) (provider : Provider) (config : ModelConfig)

/-- **When two class types of one element have one text.** After any questions, two class types of
    one path of names that are written in one scope and name one element have the same text just
    where the arguments of their last segments have the same texts; so all their arguments can be
    told from the texts, if there are none at the segments before the last one. -/
theorem text_eq_iff (closed : provider.Closed) (questions : List Question) (sc : Scope)
    (segments segments' : List ClassSegment) (place place' : Span) :
    let s : Session := ((start token files provider config).askAll questions).session
    s.HasScope sc →
    (TypeRef.classType segments place).Sound (parseBatch files).2.1 →
    (TypeRef.classType segments' place').Sound (parseBatch files).2.1 →
    segments.map ClassSegment.name = segments'.map ClassSegment.name →
    ∃ r r' t u, (renderClass sc segments place).run.run s = (.ok r, t) ∧
      (renderClass sc segments' place').run.run t = (.ok r', u) ∧
      ∀ id, r.element = .ok (some id) → r'.element = .ok (some id) →
        (r.text = r'.text ↔ r.args.getLast? = r'.args.getLast?) ∧
        ((∀ seg ∈ segments.dropLast ++ segments'.dropLast, seg.args = []) →
          (r.text = r'.text ↔ r.args = r'.args)) := by
  intro s hscope ht ht' hnames
  have hs : s.Idle (world token files provider config) :=
    (fits_asked token files provider config questions).idle
  have hc : (world token files provider config).Closed (parseBatch files).2.1 :=
    World.closed_of_client closed
  have hsc := hscope.scoped hs.resolved
  have hsplit : ∀ {segments : List ClassSegment} {place : Span},
      (TypeRef.classType segments place).Sound (parseBatch files).2.1 →
      ∃ front last, segments = front ++ [last] := by
    intro segments place h
    cases h with
    | classType _ _ filled => exact ⟨_, _, (List.dropLast_append_getLast filled).symm⟩
  obtain ⟨front, last, rfl⟩ := hsplit ht
  obtain ⟨front', last', rfl⟩ := hsplit ht'
  obtain ⟨_, t, hrun, htidle, hg, r, rfl, hr⟩ := renderClass_ends hc hsc ht hs
  obtain ⟨_, u, hrun', hu, hg', r', rfl, hr'⟩ :=
    renderClass_ends hc (hsc.grow hs.resolved.sound hg.toKeeps) ht' htidle
  refine ⟨r, r', t, u, hrun, hrun', fun id hid hid' => ?_⟩
  obtain ⟨symbol, outer, texts, hshow, hargs, htext, hclosed, houter⟩ := hr id hid
  obtain ⟨symbol', outer', texts', hshow', hargs', htext', hclosed', houter'⟩ := hr' id hid'
  obtain rfl : symbol = symbol' :=
    (hshow.grow htidle.resolved.sound hg'.toKeeps).shows.unique hu.resolved.sound hshow'.shows
  -- Both texts begin with the name of the element, and closed texts of arguments can be told apart.
  have heq : r.text = r'.text ↔ texts = texts' := by
    rw [htext, htext']
    exact argumentText_inj hclosed hclosed'
  rw [heq, hargs, hargs', List.getLast?_concat, List.getLast?_concat, Option.some_inj]
  refine ⟨Iff.rfl, fun hnone => ?_⟩
  rw [List.dropLast_concat, List.dropLast_concat] at hnone
  -- Without arguments before the last segments, only those of the last ones are left.
  have hlength : front.length = front'.length := by
    have := congrArg List.length hnames
    simpa using this
  have houters : outer = outer' := eq_of_unargued hlength houter houter'
    (fun seg hseg => hnone seg (List.mem_append_left _ hseg))
    fun seg hseg => hnone seg (List.mem_append_right _ hseg)
  rw [houters]
  exact ⟨fun h => h ▸ rfl, fun h => (List.cons.inj (List.append_cancel_left h)).1⟩

theorem onlyObject_closed : onlyObject.Closed := by
  intro name d hd
  dsimp only [onlyObject] at hd
  split at hd
  · rename_i hname
    rw [hname]
    decide
  · cases hd

/-- Two class types of one path of names, put into text one after the other. -/
def renderBoth (sc : Scope) (first second : List ClassSegment) (place : Span) :
    SessionM (Option (Rendering × Rendering)) := do
  if first.map ClassSegment.name = second.map ClassSegment.name then
    return some (← renderClass sc first place, ← renderClass sc second place)
  else
    return none

/-- The same for the types of the first variables of two members of a declaration. -/
def renderFields (w : World) (sc : Scope) (d : DeclId) (m m' : Nat) :
    SessionM (Option (Rendering × Rendering)) :=
  match w.fieldType? d m 0, w.fieldType? d m' 0 with
  | some (.classType first _), some (.classType second place) => renderBoth sc first second place
  | _, _ => return none

/-- Two types of a generic class, read in the body of another class. -/
theorem text_of_last_arguments :
    let files : Batch :=
      #[⟨"A.java", "package p; class Box<T> {} class A { Box<A> x; Box<B> y; } class B {}"⟩]
    let table := (parseBatch files).2.1
    let s := ((start 0 files onlyObject {}).askAll [.lookupType "p.A"]).session
    let place : Span := ⟨none, 0, 0⟩
    let of (arg : String) : List ClassSegment :=
      [.mk (table.intern "Box").1 [.classType [.mk (table.intern arg).1 []] place]]
    s.HasScope ⟨0, [(1, 1)], false⟩ ∧
      (∃ r r' t u, (renderClass ⟨0, [(1, 1)], false⟩ (of "A") place).run.run s = (.ok r, t) ∧
        (renderClass ⟨0, [(1, 1)], false⟩ (of "B") place).run.run t = (.ok r', u) ∧
        ∀ id, r.element = .ok (some id) → r'.element = .ok (some id) →
          (r.text = r'.text ↔ r.args.getLast? = r'.args.getLast?) ∧
          ((∀ seg ∈ (of "A").dropLast ++ (of "B").dropLast, seg.args = []) →
            (r.text = r'.text ↔ r.args = r'.args))) ∧
      ((renderBoth ⟨0, [(1, 1)], false⟩ (of "A") (of "B") place).run.run s).1 =
        .ok (some (⟨.ok (some 4), "p.Box<p.A>", [["p.A"]]⟩,
          ⟨.ok (some 4), "p.Box<p.B>", [["p.B"]]⟩)) := by
  intro files table s place of
  have hidle : s.Idle (world 0 files onlyObject {}) := (fits_asked 0 files onlyObject {} _).idle
  have hscope : s.HasScope ⟨0, [(1, 1)], false⟩ := by
    obtain ⟨r, hrun, -⟩ := run_scopeOf hidle.resolved 1
    refine ⟨1, .inl (hrun.trans (Prod.ext ?_ rfl))⟩
    have heq : ((scopeOf 1).run.run.run s).1 = .ok (.ok ⟨0, [(1, 1)], false⟩) := by
      decide +kernel
    rw [← heq, hrun]
  -- The theorem applies to what is written with names of the batch.
  have hproper : table.Proper (table.intern "Box").1 ∧ table.Proper (table.intern "A").1 ∧
      table.Proper (table.intern "B").1 := by
    refine ⟨⟨⟨"Box", ?_⟩, ?_⟩, ⟨⟨"A", ?_⟩, ?_⟩, ⟨⟨"B", ?_⟩, ?_⟩⟩ <;> decide +kernel
  have hsound : ∀ arg, table.Proper (table.intern arg).1 →
      (TypeRef.classType (of arg) place).Sound table := fun arg harg =>
    .classType _ _ (List.cons_ne_nil _ _) (List.forall_mem_singleton.2 hproper.1)
      (List.forall_mem_singleton.2 (List.forall_mem_singleton.2
        (.classType _ _ (List.cons_ne_nil _ _) (List.forall_mem_singleton.2 harg)
          (List.forall_mem_singleton.2 (List.forall_mem_nil _)))))
  exact ⟨hscope, text_eq_iff 0 files onlyObject {} onlyObject_closed _ _ (of "A") (of "B") place
    place hscope (hsound "A" hproper.2.1) (hsound "B" hproper.2.2) rfl, by decide +kernel⟩

/-- **Arguments before the last segment are lost.** The fields `x` and `y` have the types of one
    inner class in two types of the class around it; the texts of these types are the same. -/
theorem text_without_outer_arguments :
    let files : Batch := #[⟨"A.java", "package p; class Outer<T> { class Inner {} } " ++
      "class A { Outer<A>.Inner x; Outer<B>.Inner y; } class B {}"⟩]
    let s := ((start 0 files onlyObject {}).askAll [.lookupType "p.A"]).session
    let sc : Scope := ⟨0, [(2, 1)], false⟩
    ((scopeOf 1).run.run.run s).1 = .ok (.ok sc) ∧
      ((renderFields (world 0 files onlyObject {}) sc 2 0 1).run.run s).1 =
        .ok (some (⟨.ok (some 5), "p.Outer.Inner", [["p.A"], []]⟩,
          ⟨.ok (some 5), "p.Outer.Inner", [["p.B"], []]⟩)) := by
  decide +kernel

end Client

end JavaAbi
