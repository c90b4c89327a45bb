import JavaAbi.Proofs.FaithfulIndex
import JavaAbi.Proofs.SimpleNames

namespace JavaAbi

/-!
# Reported supertypes

The supertypes of a type are found in two ways. Its superclass and its interfaces are reported on
request, and a supertype that does not resolve is an error. For member types that it inherits, all of
them are listed at once, and what does not resolve is left out. The list has the elements of what is
reported, in order, where both can be had.

* `Rule.finds_collectFound` — what is listed is what was found, one after the other;
* `World.ReportsFound` — a rule for a supertype that has an answer has the one that was found;
* `World.ExtendsProperly` — symbols with a superclass may have one;
* `World.listing_lined` — the list of a symbol, for each kind of declaration and for descriptions;
* `World.Steady` — lists that do not depend on themselves;
* `Client.inherits_from_reported` — what is inherited from in a session;
* `Client.inherits_from_unreported` — an interface with a superclass.
-/

open Course Stage

variable {w : World} {s t : Session} {α β : Type} {lists : Symbol → List Symbol → Prop}

/-- What belongs to two lists one after the other. -/
theorem forall₂_append_left {R : α → β → Prop} {as as' : List α} {bs : List β}
    (h : List.Forall₂ R (as ++ as') bs) : ∃ before after, bs = before ++ after ∧
      List.Forall₂ R as before ∧ List.Forall₂ R as' after :=
  ⟨_, _, (List.take_append_drop as.length bs).symm, (List.forall₂_take_append _ _ _ h.flip).flip,
    (List.forall₂_drop_append _ _ _ h.flip).flip⟩

/-! ### Rules one after the other -/

namespace Rule

theorem finds_bind_ok {rule : Rule α} {f : α → Rule β} {a : α} {y : Except ModelError β}
    (h : rule.run.Finds lists (.ok a)) (hf : (f a).run.Finds lists y) :
    (rule >>= f).run.Finds lists y :=
  Inquiry.Finds.bind (i := rule.run) h hf

theorem finds_bind_error {rule : Rule α} {f : α → Rule β} {e : ModelError}
    (h : rule.run.Finds lists (.error e)) : (rule >>= f).run.Finds lists (.error e) :=
  Inquiry.Finds.bind (i := rule.run) h (Inquiry.finds_pure _)

theorem finds_lift {i : Inquiry α} {a : α} (h : i.Finds lists a) :
    (liftM i : Rule α).run.Finds lists (.ok a) :=
  h.bind (Inquiry.finds_pure _)

/-- The symbol that a rule finds, if it has an answer and finds one. -/
def found? : Except ModelError (Option Symbol) → Option Symbol
  | .ok found => found
  | .error _ => none

@[simp] theorem filterMap_nothing (ys : List (Except ModelError (Option Symbol))) :
    (.ok none :: ys).filterMap found? = ys.filterMap found? := rfl

/-- What is collected is what was found, one after the other. -/
theorem finds_collectFound {rule : α → Rule (Option Symbol)} {as : List α} {l : List Symbol}
    (h : (collectFound rule as).Finds lists l) :
    ∃ ys, l = ys.filterMap found? ∧
      List.Forall₂ (fun a y => (rule a).run.Finds lists y) as ys := by
  induction as generalizing l with
  | nil =>
    cases h.pure_inv
    exact ⟨[], rfl, .nil⟩
  | cons a rest ih =>
    rw [collectFound] at h
    obtain ⟨y, hy, h⟩ := h.bind_inv
    obtain ⟨l', hl', h⟩ := h.bind_inv
    obtain ⟨ys, rfl, hall⟩ := ih hl'
    refine ⟨y :: ys, ?_, .cons hy hall⟩
    cases h.pure_inv
    rcases y with e | _ | symbol <;> rfl

end Rule

namespace World

/-! ### What is reported and what is listed -/

/-- A rule for a supertype reports what was found in its place: if it has an answer, the element of
    this type is what was found. -/
def ReportsFound (w : World) (lists : Symbol → List Symbol → Prop) (rule : Rule TypeView)
    (y : Except ModelError (Option Symbol)) : Prop :=
  ∃ x, rule.run.Finds lists x ∧
    ∀ v, x = .ok v → ∃ o, y = .ok o ∧ (w.resolveType v).run.Finds lists (.ok o)

/-- The same for the types of a list. -/
def ReportsAll (w : World) (lists : Symbol → List Symbol → Prop) (rule : Rule (List TypeView))
    (ys : List (Except ModelError (Option Symbol))) : Prop :=
  ∃ x, rule.run.Finds lists x ∧
    ∀ vs, x = .ok vs → ∃ os : List (Option Symbol), ys = os.map .ok ∧
      List.Forall₂ (fun v o => (w.resolveType v).run.Finds lists (.ok o)) vs os

theorem reports_absent : w.ReportsFound lists (pure .absent) (.ok none) := by
  refine ⟨_, Inquiry.finds_pure _, fun v hv => ⟨none, rfl, ?_⟩⟩
  cases hv
  exact Inquiry.finds_pure _

/-- The type of a canonical name, with any arguments. -/
theorem reports_lookup (args : Symbol → List TypeView) {place : Span} {name : String} :
    w.ReportsFound lists
      (do
        let base ← tryCatch (Rule.ofExcept (w.lookup name)) fun e => throw (e.located place)
        return .declared (.known base) (args base) .absent)
      ((w.lookup name).map some) := by
  cases w.lookup name with
  | error e =>
    exact ⟨_, Rule.finds_bind_error (Inquiry.finds_pure _), nofun⟩
  | ok base =>
    refine ⟨_, Rule.finds_bind_ok (Inquiry.finds_pure _) (Inquiry.finds_pure _), fun v hv => ?_⟩
    cases hv
    exact ⟨some base, rfl, Inquiry.finds_pure _⟩

theorem reports_plainType {place : Span} {name : String} :
    w.ReportsFound lists (w.plainType place name) ((w.lookup name).map some) :=
  reports_lookup fun _ => []

/-- The type that a clause writes. -/
theorem reports_supertype {sc : ScopeView} {r : TypeRef} {y : Except ModelError (Option Symbol)}
    (h : (do w.resolveType (← w.typeOf sc r) : Rule (Option Symbol)).run.Finds lists y) :
    w.ReportsFound lists (w.supertype sc r) y := by
  obtain ⟨v, hv, hy⟩ := Rule.finds_lift_inv h
  by_cases herror : v = .error
  · subst herror
    exact ⟨_, Rule.finds_bind_ok (Rule.finds_lift hv) (Inquiry.finds_pure _), nofun⟩
  · have hresolves : ∀ x, (do let _ ← w.resolveType v; return v : Rule TypeView).run.Finds lists x →
        (w.supertype sc r).run.Finds lists x := fun x hx => by
      refine Rule.finds_bind_ok (Rule.finds_lift hv) ?_
      cases v with
      | error => exact absurd rfl herror
      | _ => exact hx
    cases y with
    | error e => exact ⟨_, hresolves _ (Rule.finds_bind_error hy), nofun⟩
    | ok o =>
      refine ⟨_, hresolves _ (Rule.finds_bind_ok hy (Inquiry.finds_pure _)), fun v' hv' => ?_⟩
      cases hv'
      exact ⟨o, rfl, hy⟩

/-- Rules for types, in order. -/
theorem reportsAll_mapM {f : α → Rule TypeView} {as : List α}
    {ys : List (Except ModelError (Option Symbol))}
    (h : List.Forall₂ (fun a y => w.ReportsFound lists (f a) y) as ys) :
    w.ReportsAll lists (as.mapM f) ys := by
  induction h with
  | nil =>
    refine ⟨_, Inquiry.finds_pure _, fun vs hvs => ⟨[], rfl, ?_⟩⟩
    cases hvs
    exact .nil
  | cons hfirst _ ih =>
    obtain ⟨x, hx, hreports⟩ := hfirst
    obtain ⟨xs, hxs, hrest⟩ := ih
    unfold ReportsAll
    rw [List.mapM_cons]
    -- the first type without an answer leaves the whole list without one
    cases x with
    | error e => exact ⟨_, Rule.finds_bind_error hx, nofun⟩
    | ok v =>
      cases xs with
      | error e => exact ⟨_, Rule.finds_bind_ok hx (Rule.finds_bind_error hxs), nofun⟩
      | ok vs =>
        refine ⟨_, Rule.finds_bind_ok hx (Rule.finds_bind_ok hxs (Inquiry.finds_pure _)),
          fun all hall => ?_⟩
        cases hall
        obtain ⟨o, rfl, ho⟩ := hreports v rfl
        obtain ⟨os, rfl, hos⟩ := hrest vs rfl
        exact ⟨o :: os, rfl, .cons ho hos⟩

/-! ### The list of a symbol -/

/-- A symbol extends no type that it cannot have as its superclass: the root object type, if it is a
    class of the batch, extends nothing, and no interface that the provider describes does. -/
structure ExtendsProperly (w : World) (symbol : Symbol) : Prop where
  root : ∀ d i tree, w.declOf? symbol = some d → w.index.get? d = some i →
    w.index.tree? w.units d = some tree → tree.head.kind = .classType →
      i.qualifiedName = .named w.wellKnown.rootObject → tree.head.extended = []
  described : ∀ desc, w.declOf? symbol = none → w.descriptorOf? symbol = some desc →
    desc.kind = .interfaceType ∨ desc.kind = .annotationType → desc.superclass = none

/-- The list has what is found for the superclass, and then what is found for the interfaces. -/
def Lined (w : World) (lists : Symbol → List Symbol → Prop) (superclass : Rule TypeView)
    (interfaces : Rule (List TypeView)) (l : List Symbol) : Prop :=
  ∃ y ys, l = (y :: ys).filterMap Rule.found? ∧ w.ReportsFound lists superclass y ∧
    w.ReportsAll lists interfaces ys

theorem found_eq (names : List String) :
    w.found names = (names.map fun n => (w.lookup n).map some).filterMap Rule.found? := by
  rw [found, List.filterMap_map]
  refine congrArg (List.filterMap · names) (funext fun n => ?_)
  cases h : w.lookup n <;> simp [h, Rule.found?, Except.toOption, Except.map]

/-- The body of a constant extends the enum around it. -/
theorem lined_body (hw : w.Sound) {d : DeclId} {i : DeclInfo} {h : DeclHead} {l : List Symbol}
    (hi : w.index.get? d = some i) (hbody : h.IsBody) (hc : i.constant.isSome)
    (hl : (w.declaredListing d i h).Finds lists l) :
    w.Lined lists (w.declaredSuperclass d i h) (w.declaredInterfaces d i h) l := by
  rw [declaredListing, if_pos hc] at hl
  cases hl.pure_inv
  have hinterfaces : w.ReportsAll lists (w.declaredInterfaces d i h) [] := by
    rw [declaredInterfaces, hbody.kind, hbody.implemented]
    exact reportsAll_mapM .nil
  rw [declaredSuperclass, hbody.kind, if_neg (by decide), if_pos hc]
  -- the enum around it is listed as found without being looked up
  cases hp : i.parent with
  | none => exact ⟨.ok none, [], rfl, ⟨_, Inquiry.finds_pure _, nofun⟩, hinterfaces⟩
  | some p =>
    refine ⟨.ok (some (w.symbolOf p)), [], rfl, ⟨_, Inquiry.finds_pure _, fun v hv => ?_⟩,
      hinterfaces⟩
    cases hv
    obtain ⟨-, hknown⟩ := (hw.index.infos d i hi).parent p hp
    obtain ⟨j, hj⟩ := DeclIndex.info_of_known? hknown
    obtain ⟨tree, htree⟩ := Option.isSome_iff_exists.1 (hw.index.infos p j hj).tree
    have htree' : w.index.tree? w.units p = some tree := by
      rw [DeclIndex.tree?_of_known? (DeclIndex.known?_of_get? hj)]
      exact htree
    rw [declaredType_eq hw hj htree']
    exact ⟨_, rfl, Inquiry.finds_pure _⟩

/-- One rule alone. -/
theorem ReportsFound.singleton {rule : Rule TypeView} {y : Except ModelError (Option Symbol)}
    (h : w.ReportsFound lists rule y) : w.ReportsAll lists (do return [← rule]) [y] := by
  obtain ⟨x, hx, hreports⟩ := h
  cases x with
  | error e => exact ⟨_, Rule.finds_bind_error hx, nofun⟩
  | ok v =>
    refine ⟨_, Rule.finds_bind_ok hx (Inquiry.finds_pure _), fun vs hvs => ?_⟩
    cases hvs
    obtain ⟨o, rfl, ho⟩ := hreports v rfl
    exact ⟨[o], rfl, .cons ho .nil⟩

/-- What is found in place of a superclass, of what is extended and of what is implemented makes up
    the list. -/
theorem Lined.intro {superclass : Rule TypeView} {interfaces : Rule (List TypeView)} {l : List Symbol}
    {y : Except ModelError (Option Symbol)} {ys : List (Except ModelError (Option Symbol))}
    (hsuperclass : w.ReportsFound lists superclass y) (hinterfaces : w.ReportsAll lists interfaces ys)
    (hl : l = (y :: ys).filterMap Rule.found?) : w.Lined lists superclass interfaces l :=
  ⟨y, ys, hl, hsuperclass, hinterfaces⟩

/-- **Any other declaration** extends and implements what is listed of it. -/
theorem lined_declared {d : DeclId} {i : DeclInfo} {h : DeclHead} {l : List Symbol}
    (hregular : h.Regular) (hc : ¬i.constant.isSome)
    (hroot : h.kind = .classType → i.qualifiedName = .named w.wellKnown.rootObject → h.extended = [])
    (hl : (w.declaredListing d i h).Finds lists l) :
    w.Lined lists (w.declaredSuperclass d i h) (w.declaredInterfaces d i h) l := by
  rw [declaredListing, if_neg hc] at hl
  obtain ⟨written, hwritten, hl⟩ := hl.bind_inv
  obtain ⟨ys, rfl, hall⟩ := Rule.finds_collectFound hwritten
  cases hl.pure_inv
  -- each clause reports what was found for it
  obtain ⟨ys, zs, rfl, hextended, himplemented⟩ :=
    forall₂_append_left (hall.imp fun r y hy => reports_supertype (w := w) hy)
  rw [found_eq, ← List.filterMap_append]
  clear hall hwritten hl
  unfold declaredSuperclass declaredInterfaces implicit?
  cases hk : h.kind with
  | interfaceType =>
    rw [hregular.interfaces (.inl hk)] at himplemented
    cases himplemented
    exact .intro reports_absent (reportsAll_mapM hextended) (by simp)
  | annotationType =>
    rw [hregular.rootless (by simp [hk]) (by simp [hk])] at hextended
    rw [hregular.interfaces (.inr hk)] at himplemented
    cases hextended
    cases himplemented
    exact .intro reports_absent reports_plainType.singleton (by simp)
  | enumType =>
    rw [hregular.rootless (by simp [hk]) (by simp [hk])] at hextended
    cases hextended
    simp only [hc]
    exact .intro (reports_lookup _) (reportsAll_mapM himplemented) rfl
  | recordType =>
    rw [hregular.rootless (by simp [hk]) (by simp [hk])] at hextended
    cases hextended
    simp only [hc]
    exact .intro reports_plainType (reportsAll_mapM himplemented) rfl
  | classType =>
    simp only [hc]
    cases hwritten : h.extended with
    | nil =>
      rw [hwritten] at hextended
      cases hextended
      by_cases hname : i.qualifiedName = .named w.wellKnown.rootObject
      · simp only [hname]
        exact .intro reports_absent (reportsAll_mapM himplemented) (by simp)
      · simp only [hname]
        refine .intro reports_plainType (reportsAll_mapM himplemented) ?_
        rw [if_pos (by simp [hname])]
        rfl
    | cons r rest =>
      -- a class extends one type at most, and the root object type extends none
      have hname : i.qualifiedName ≠ .named w.wellKnown.rootObject := fun hname => by
        cases (hroot hk hname).symm.trans hwritten
      obtain rfl : rest = [] := by
        have hsingle := hregular.single hk
        rw [hwritten] at hsingle
        exact List.eq_nil_of_length_eq_zero (Nat.le_zero.1 (Nat.le_of_succ_le_succ hsingle))
      rw [hwritten] at hextended
      cases hextended with
      | cons hfirst hrest =>
        cases hrest
        simp only [hname]
        exact .intro hfirst (reportsAll_mapM himplemented) (by simp)

/-- A type that the provider describes extends and implements what the description names. -/
theorem lined_described {desc : Descriptor} (h : desc.kind = .interfaceType ∨
      desc.kind = .annotationType → desc.superclass = none) :
    w.Lined lists
      (if desc.kind = .interfaceType || desc.kind = .annotationType then return .absent
        else
          match desc.superclass with
          | some name => w.plainType .nowhere name
          | none => return .absent)
      (desc.interfaces.mapM (w.plainType .nowhere))
      (w.found (desc.superclass.toList ++ desc.interfaces)) := by
  have hinterfaces : w.ReportsAll lists (desc.interfaces.mapM (w.plainType .nowhere))
      (desc.interfaces.map fun n => (w.lookup n).map some) :=
    reportsAll_mapM (List.forall₂_map_right_iff.2
      (List.forall₂_same.2 fun _ _ => reports_plainType))
  rw [found_eq, List.map_append]
  cases hs : desc.superclass with
  | none =>
    refine .intro (y := .ok none) ?_ hinterfaces rfl
    split <;> exact reports_absent
  | some name =>
    have hkind : ¬(desc.kind = .interfaceType ∨ desc.kind = .annotationType) := fun hk => by
      cases (h hk).symm.trans hs
    rw [if_neg (by simpa using hkind)]
    exact .intro reports_plainType hinterfaces rfl

/-- **The list of a symbol** has what is reported of it. -/
theorem listing_lined (hw : w.Sound) {symbol : Symbol} {l : List Symbol}
    (hregular : ∀ d tree, w.index.tree? w.units d = some tree → tree.head.Regular)
    (hextends : w.ExtendsProperly symbol) (hl : (w.listing symbol).Finds lists l) :
    w.Lined lists (w.superclassOf symbol) (w.interfacesOf symbol) l := by
  -- of what has no declaration and no description, nothing is reported and nothing listed
  have hempty : (pure [] : Inquiry (List Symbol)).Finds lists l →
      w.Lined lists (pure .absent) (pure []) l := fun h => by
    cases h.pure_inv
    exact .intro reports_absent (reportsAll_mapM (f := fun v : TypeView => pure v) .nil) rfl
  unfold listing at hl
  unfold superclassOf interfacesOf
  cases hd : w.declOf? symbol with
  | some d =>
    rw [hd] at hl
    dsimp only at hl ⊢
    cases hi : w.index.get? d with
    | none =>
      rw [hi] at hl
      exact hempty hl
    | some i =>
      cases htree : w.index.tree? w.units d with
      | none =>
        rw [hi, htree] at hl
        exact hempty hl
      | some tree =>
        rw [hi, htree] at hl
        by_cases hc : i.constant.isSome
        · have hplaced : treeAt w.units i.unit i.path = some tree := by
            rw [← htree, DeclIndex.tree?_of_known? (DeclIndex.known?_of_get? hi)]
            rfl
          exact lined_body hw hi ((hw.index.infos d i hi).body tree hplaced hc) hc hl
        · exact lined_declared (hregular d tree htree) hc
            (fun hk hname => hextends.root d i tree hd hi htree hk hname) hl
  | none =>
    rw [hd] at hl
    dsimp only at hl ⊢
    cases hdesc : w.descriptorOf? symbol with
    | none =>
      rw [hdesc] at hl
      exact hempty hl
    | some desc =>
      rw [hdesc] at hl
      cases hl.pure_inv
      exact lined_described (hextends.described desc hd hdesc)

/-! ### Elements of supertypes -/

/-- The symbols of the types that are reported of a symbol, of its superclass first. -/
def supertypeElements (w : World) (symbol : Symbol) :
    Rule (List (Except ModelError (Option Symbol))) := do
  let superclass ← w.superclassOf symbol
  let interfaces ← w.interfacesOf symbol
  (superclass :: interfaces).mapM fun v => liftM (w.resolveType v).run

theorem finds_elements {vs : List TypeView} {os : List (Option Symbol)}
    (h : List.Forall₂ (fun v o => (w.resolveType v).run.Finds lists (.ok o)) vs os) :
    ((vs.mapM fun v => liftM (w.resolveType v).run :
      Rule (List (Except ModelError (Option Symbol)))).run.Finds lists (.ok (os.map .ok))) := by
  induction h with
  | nil => exact Inquiry.finds_pure _
  | cons hfirst _ ih =>
    rw [List.mapM_cons]
    exact Rule.finds_bind_ok (Rule.finds_lift hfirst)
      (Rule.finds_bind_ok ih (Inquiry.finds_pure _))

/-- What is found is what the list has. -/
theorem filterMap_found? (os : List (Option Symbol)) :
    (os.map .ok).filterMap Rule.found? = os.reduceOption := by
  rw [List.filterMap_map]
  rfl

/-- **What is reported of a symbol** has the elements that are in its list, where it can be reported. -/
theorem Lined.elements {symbol : Symbol} {l : List Symbol}
    (h : w.Lined lists (w.superclassOf symbol) (w.interfacesOf symbol) l) :
    ∃ z, (w.supertypeElements symbol).run.Finds lists z ∧
      ∀ xs, z = .ok xs → ∃ os : List (Option Symbol), xs = os.map .ok ∧ l = os.reduceOption := by
  obtain ⟨y, ys, rfl, ⟨x, hx, hfirst⟩, ⟨xs, hxs, hrest⟩⟩ := h
  unfold supertypeElements
  cases x with
  | error e => exact ⟨_, Rule.finds_bind_error hx, nofun⟩
  | ok v =>
    cases xs with
    | error e => exact ⟨_, Rule.finds_bind_ok hx (Rule.finds_bind_error hxs), nofun⟩
    | ok vs =>
      obtain ⟨o, rfl, ho⟩ := hfirst v rfl
      obtain ⟨os, rfl, hos⟩ := hrest vs rfl
      refine ⟨_, Rule.finds_bind_ok hx (Rule.finds_bind_ok hxs (finds_elements (.cons ho hos))), ?_⟩
      rintro _ ⟨⟩
      exact ⟨o :: os, rfl, filterMap_found? (o :: os)⟩

end World

/-- Told lists by a function, an inquiry comes to what it is given. -/
theorem Inquiry.given_eq_some {g : Symbol → Option (List Symbol)} {i : Inquiry α} {a : α} :
    i.given g = some a ↔ i.Finds (fun symbol l => g symbol = some l) a := by
  constructor
  · intro h
    induction i with
    | answer b =>
      cases h
      exact .answer _
    | ask symbol next ih =>
      obtain ⟨l, hl, hnext⟩ := Option.bind_eq_some_iff.1 h
      exact .ask hl (ih l hnext)
  · intro h
    induction h with
    | answer b => rfl
    | ask told _ ih => exact Option.bind_eq_some_iff.2 ⟨_, told, ih⟩

/-- Where the list of a symbol is settled, what is reported of the symbol is. -/
theorem World.settles_elements (hw : w.Sound) {symbol : Symbol} {l : List Symbol}
    (hregular : ∀ d tree, w.index.tree? w.units d = some tree → tree.head.Regular)
    (hextends : w.ExtendsProperly symbol) (hl : w.Settles (w.listing symbol) l) :
    ∃ z, w.Settles (w.supertypeElements symbol).run z ∧
      ∀ xs, z = .ok xs → ∃ os : List (Option Symbol), xs = os.map .ok ∧ l = os.reduceOption := by
  obtain ⟨n, hn⟩ := hl
  obtain ⟨z, hz, hlist⟩ :=
    (World.listing_lined hw hregular hextends (Inquiry.given_eq_some.1 hn)).elements
  exact ⟨z, ⟨n, Inquiry.given_eq_some.2 hz⟩, hlist⟩

/-! ### Sessions -/

/-- The elements of the types that an element reports as its superclass and its interfaces. -/
def supertypeElements (id : ElementId) : Query (List (Except ModelError (Option ElementId))) := do
  let superclass ← superclassOf id
  let interfaces ← interfacesOf id
  (superclass :: interfaces).mapM fun type => liftM (elementOfType type).run

/-- What is found for types is what the rules give, in order. -/
def FoundAll (w : World) (xs : List (Except ModelError (Option ElementId)))
    (ys : List (Except ModelError (Option Symbol))) (t : Session) : Prop :=
  List.Forall₂ (fun x y => outcomes w.provider.Excuses (optional shown) x y t) xs ys

theorem elements_honours {excused : ModelError → Prop} {types : List ModelType}
    {vs : List TypeView} (h : viewedAll w types vs s) :
    w.Honours s (types.mapM fun type => liftM (elementOfType type).run)
      (vs.mapM fun v => liftM (w.resolveType v).run) excused (FoundAll w) := by
  refine .sound fun hs => ?_
  induction types generalizing s vs with
  | nil =>
    cases h
    exact .pure fun _ => .nil
  | cons type types ih =>
    cases h with
    | cons hview hviews =>
      rw [List.mapM_cons, List.mapM_cons]
      have hfirst := elementOfType_honours hview.1
      rw [hview.2] at hfirst
      refine .lift hfirst fun x y t ht hg hxy => ?_
      refine (ih (Session.viewedAll_learn hs.resolved ht.resolved hviews hg) ht).bind
        fun xs ys u hu hg' hall => .pure fun _ => .cons ?_ hall
      exact hxy.imp fun _ _ h => h.imp fun _ _ hshow =>
        Session.ShowsType.grow ht.resolved.sound hshow hg'.toKeeps

/-- **What an element reports** is what the rules settle, whenever it is asked for. -/
theorem supertypeElements_honours {symbol : Symbol} {id : ElementId} (hshow : s.ShowsType symbol id) :
    w.Honours s (supertypeElements id) (w.supertypeElements symbol) (fun _ => True) (FoundAll w) := by
  refine .sound fun hs => ?_
  refine ((superclassOf_honours hshow.shows).mono (fun _ _ => trivial) fun _ _ _ _ _ h => h).bind
    fun type v t ht hg hview => ?_
  have hshow' := hshow.shows.grow hs.resolved.sound hg.toKeeps
  refine ((interfacesOf_honours hshow').mono (fun _ _ => trivial) fun _ _ _ _ _ h => h).bind
    fun types vs u hu hg' hviews => ?_
  exact elements_honours (.cons (Session.viewed_learn ht.resolved hu.resolved hview hg') hviews)

theorem directSupertypes_heeds {symbol : Symbol} {id : ElementId} (hshow : s.ShowsType symbol id) :
    w.Heeds s (directSupertypes id) (Inquiry.listOf symbol) shownAll :=
  .of_follows fun n => directSupertypes_supplies w n s id symbol hshow

/-- Elements that were found for symbols stand for those that there are. -/
theorem FoundAll.elements {xs : List (Except ModelError (Option ElementId))}
    {os : List (Option Symbol)} (h : FoundAll w xs (os.map .ok) t) :
    ∃ found : List (Option ElementId), xs = found.map .ok ∧
      t.ShowsAll found.reduceOption os.reduceOption := by
  induction os generalizing xs with
  | nil =>
    cases h
    exact ⟨[], rfl, .nil⟩
  | cons o os ih =>
    cases h with
    | @cons x _ xs _ hx hxs =>
      obtain ⟨found, rfl, hshow⟩ := ih hxs
      match x, o, hx with
      | .ok (some id), some symbol, hid => exact ⟨some id :: found, rfl, .cons hid hshow⟩
      | .ok none, none, _ => exact ⟨none :: found, rfl, hshow⟩

theorem Session.ShowsAll.functional (hs : s.Sound) {ids ids' : List ElementId}
    {symbols : List Symbol} (h : s.ShowsAll ids symbols) (h' : s.ShowsAll ids' symbols) :
    ids = ids' := by
  induction h generalizing ids' with
  | nil =>
    cases h'
    rfl
  | cons hid _ ih =>
    cases h' with
    | cons hid' hrest' => rw [hid.shows.functional hs hid'.shows, ih hrest']

/-- What an element reports, and the types that member types are inherited from. -/
def compareSupertypes (id : ElementId) :
    SessionM (Except ModelError (List (Except ModelError (Option ElementId))) × List ElementId) := do
  let reported ← (supertypeElements id).run
  return (reported, ← directSupertypes id)

/-- A list that is settled is given. -/
theorem directSupertypes_settled (hs : s.Idle w) {symbol : Symbol} {id : ElementId}
    {l : List Symbol} (hlist : w.Settles (Inquiry.listOf symbol) l) (hshow : s.ShowsType symbol id) :
    ∃ ids t, (directSupertypes id).run.run s = (.ok ids, t) ∧ t.Idle w ∧ s.Learns w t ∧
      t.ShowsAll ids l := by
  obtain ⟨_, t, hrun, ht, hg, ids, rfl, l', hids, hset⟩ := directSupertypes_heeds hshow hs
  exact ⟨ids, t, hrun, ht, hg, hset.settled l hlist ▸ hids⟩

/-- The list of a symbol can be made by way of lists none of which needs it, and it is the same when
    the clauses of the symbol are resolved with it. -/
structure World.Steady (w : World) (symbol : Symbol) (l : List Symbol) : Prop where
  made : w.Settles (Inquiry.listOf symbol) l
  again : w.Settles (w.listing symbol) l

/-- **A session inherits from what it reports**, where the list is steady. -/
theorem compareSupertypes_agree (hs : s.Idle w) {symbol : Symbol} {id : ElementId} {l : List Symbol}
    (hregular : ∀ d tree, w.index.tree? w.units d = some tree → tree.head.Regular)
    (hextends : w.ExtendsProperly symbol) (hsteady : w.Steady symbol l)
    (hshow : s.ShowsType symbol id) :
    ∃ r ids t, (compareSupertypes id).run.run s = (.ok (r, ids), t) ∧
      ∀ xs, r = .ok xs → ∃ found : List (Option ElementId), xs = found.map .ok ∧
        ids = found.reduceOption := by
  obtain ⟨_, t, hrun, ht, hg, r, rfl, y, hr, hset⟩ := supertypeElements_honours hshow hs
  have hshow' := hshow.grow hs.resolved.sound hg.toKeeps
  obtain ⟨ids, u, hrun', hu, hg', hids⟩ := directSupertypes_settled ht hsteady.made hshow'
  refine ⟨r, ids, u, (SessionM.run_bind hrun).trans ((SessionM.run_bind hrun').trans rfl), ?_⟩
  rintro xs rfl
  obtain ⟨z, hz, hall⟩ :=
    World.settles_elements hs.resolved.world hregular hextends hsteady.again
  obtain rfl := hset.settled z hz
  match z, hr with
  | .ok ys, hfound =>
    obtain ⟨os, rfl, rfl⟩ := hall ys rfl
    obtain ⟨found, rfl, hshown⟩ := FoundAll.elements hfound
    exact ⟨found, rfl, hids.functional hu.resolved.sound (hshown.grow ht.resolved.sound hg'.toKeeps)⟩

/-! ### Clients -/

namespace Client

section Asked

variable (token : SessionToken) (files : Batch) (provider : Provider) (config : ModelConfig)

/-- **Member types are inherited from the types that are reported.** In a batch that parses without
    diagnostics, after any questions, the types that the search for inherited member types goes on to
    from a type are the element of its superclass, if this is a declared type, and then those of its
    interfaces, if the list of the type is steady. -/
theorem inherits_from_reported (clean : (parseBatch files).2.2 = []) (questions : List Question)
    {symbol : Symbol} {l : List Symbol} :
    let w : World := world token files provider config
    let s : Session := ((start token files provider config).askAll questions).session
    w.ExtendsProperly symbol → w.Steady symbol l → ∀ id, s.ShowsType symbol id →
      (∃ ids t, (directSupertypes id).run.run s = (.ok ids, t) ∧ t.ShowsAll ids l) ∧
      ∃ r ids t, (compareSupertypes id).run.run s = (.ok (r, ids), t) ∧
        ∀ xs, r = .ok xs → ∃ found : List (Option ElementId), xs = found.map .ok ∧
          ids = found.reduceOption := by
  intro w s hextends hsteady id hshow
  have hidle : s.Idle w := (fits_asked token files provider config questions).idle
  have hregular : ∀ d tree, w.index.tree? w.units d = some tree → tree.head.Regular :=
    fun d tree htree => (DeclIndex.sound_of_tree? (parseBatch_sound files) htree).head.regular clean
  obtain ⟨ids, t, hrun, -, -, hids⟩ := directSupertypes_settled hidle hsteady.made hshow
  exact ⟨⟨ids, t, hrun, hids⟩, compareSupertypes_agree hidle hregular hextends hsteady hshow⟩

end Asked

/-- A class that extends a class and implements an interface. -/
def extending : Batch :=
  #[⟨"A.java", "package p; class A extends B implements I {} class B {} interface I {}"⟩]

/-- It is searched after its superclass, and this one before the interface. -/
theorem inherits_from_superclass_first :
    let w : World := world 0 extending onlyObject {}
    let s : Session := ((start 0 extending onlyObject {}).askAll [.lookupType "p.A"]).session
    (parseBatch extending).2.2 = [] ∧ w.ExtendsProperly (.type "p.A") ∧
      w.Steady (.type "p.A") [.type "p.B", .type "p.I"] ∧ s.ShowsType (.type "p.A") 1 ∧
      ∃ r ids t, (compareSupertypes 1).run.run s = (.ok (r, ids), t) ∧
        r = .ok [.ok (some 2), .ok (some 3)] ∧ ids = [2, 3] := by
  intro w s
  have hclean : (parseBatch extending).2.2 = [] := by decide +kernel
  have hextends : w.ExtendsProperly (.type "p.A") := by
    obtain ⟨hdecl, hname⟩ : w.declOf? (.type "p.A") = some 0 ∧
        (w.index.get? 0).map DeclInfo.qualifiedName ≠ some (.named w.wellKnown.rootObject) := by
      decide +kernel
    refine ⟨fun d i tree hd hi _ _ hroot => absurd ?_ hname, fun desc hd _ _ => ?_⟩
    · cases hdecl.symm.trans hd
      rw [hi, ← hroot]
      rfl
    · cases hdecl.symm.trans hd
  have hsteady : w.Steady (.type "p.A") [.type "p.B", .type "p.I"] :=
    ⟨⟨2, by decide +kernel⟩, ⟨2, by decide +kernel⟩⟩
  -- The answers are evaluated, and the theorem says that the list agrees with them.
  have hevaluated : (s.Denotes (.type ⟨5⟩) 1 ∧ (ElementKey.type ⟨5⟩).symbol s.names = .type "p.A") ∧
      ((compareSupertypes 1).run.run s).1.map Prod.fst = .ok (.ok [.ok (some 2), .ok (some 3)]) := by
    unfold Session.Denotes
    decide +kernel
  obtain ⟨hdenotes, hfirst⟩ := hevaluated
  have hshow : s.ShowsType (.type "p.A") 1 := ⟨⟨_, hdenotes⟩, trivial⟩
  obtain ⟨-, r, ids, t, hrun, hagree⟩ := inherits_from_reported 0 extending onlyObject {} hclean
    [.lookupType "p.A"] hextends hsteady 1 hshow
  have hr : r = .ok [.ok (some 2), .ok (some 3)] := by
    rw [show (compareSupertypes 1).run.run s = _ from hrun] at hfirst
    exact Except.ok.inj hfirst
  obtain ⟨found, hfound, rfl⟩ := hagree _ hr
  obtain rfl : found = [some 2, some 3] :=
    List.map_injective_iff.2 (fun _ _ h => Except.ok.inj h) hfound.symm
  exact ⟨hclean, hextends, hsteady, hshow, r, _, t, hrun, hr, rfl⟩

/-- A provider that describes an interface with a superclass. -/
def interfaceWithSuperclass : Provider where
  resolve? name :=
    if name = "p.I" then
      some { qualifiedName := name, package := "p", kind := .interfaceType,
             superclass := some "p.B" }
    else if name = "p.B" then
      some { qualifiedName := name, package := "p", kind := .classType }
    else none
  extent := 2

/-- **A superclass that is not reported** is inherited from: that of an interface which the provider
    describes with one. The interface has no superclass and no interfaces, and its list has the class. -/
theorem inherits_from_unreported :
    let files : Batch := #[⟨"C.java", "package q; class C implements p.I {}"⟩]
    let s : Session := ((start 0 files interfaceWithSuperclass {}).askAll [.lookupType "p.I"]).session
    let x := (compareSupertypes 1).run.run s
    (parseBatch files).2.2 = [] ∧ interfaceWithSuperclass.Honest ∧ s.symbolAt 1 = .type "p.I" ∧
      x.1 = .ok (.ok [.ok none], [2]) ∧ x.2.symbolAt 2 = .type "p.B" := by
  refine ⟨by decide +kernel, fun name d hd => ?_, by decide +kernel⟩
  dsimp only [interfaceWithSuperclass] at hd
  split at hd
  · rw [← Option.some.inj hd]
  · split at hd
    · rw [← Option.some.inj hd]
    · cases hd

end Client

end JavaAbi
