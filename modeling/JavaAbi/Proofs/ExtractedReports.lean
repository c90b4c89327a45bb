import JavaAbi.Proofs.ExtractedStubs
import JavaAbi.Proofs.ReportedErrors
import Mathlib.Data.Finset.Card

namespace JavaAbi

/-!
# Stubs and their reports

A stub is extracted part by part, and each part reports what does not resolve in it: first the
supertypes of the declaration, then its variables and the stubs of its member types, in the order in
which they are declared. So what is said of supertypes and of variables is said of all stubs.

* `World.rank` — a bound on how deep member types are nested, duplicates included;
* `World.Extracted` — a stub with all stubs in it and with what is reported, as an account has it;
* `World.account` — the account that extractions give;
* `extractWithin_emits` — the stub of a declaration;
* `Client.extracts` — the stubs that a client extracts, whatever it has asked before.
-/

open Course Stage

variable {w : World} {s : Session} {base : NameTable} {lists lists' : Symbol → List Symbol → Prop}

/-! ### Nesting

A member type that is a duplicate stands for the first declaration of its name, which may have a
smaller number than the declaration around the duplicate. Names still get longer inwards. -/

namespace World

/-- The index records all of a batch of which all member types are named. -/
structure Indexed (w : World) (base : NameTable) : Prop where
  settled : w.index.Settled w.units base w.names
  trees : ∀ u ∈ w.units, u.Sound base False
  named : BatchNamed w.units

/-- The world of a client. -/
theorem indexed_of_client {token : SessionToken} {files : Batch} {provider : Provider}
    {config : ModelConfig} :
    (Client.world token files provider config).Indexed (parseBatch files).2.1 where
  settled := settled_of_client
  trees := Client.trees_world token files provider config
  named := (parseBatch_fields files).1

/-- A measure of the keys of types that is larger for what is inside: names get longer, and what has
    no name comes after what is around it. -/
def height (w : World) : ElementKey → Nat
  | .type n => (w.text n).length
  | .unnamed d => d
  | _ => 0

/-- The number of declarations that are higher than a key. -/
def rank (w : World) (key : ElementKey) : Nat :=
  ((Finset.range w.index.size).filter fun d => w.height key < w.height (w.index.keyOf d)).card

theorem rank_le (key : ElementKey) : w.rank key ≤ w.index.size := by
  refine (Finset.card_filter_le _ _).trans ?_
  rw [Finset.card_range]

theorem rank_lt {d : DeclId} {key : ElementKey} (hd : d < w.index.size)
    (h : w.height key < w.height (w.index.keyOf d)) : w.rank (w.index.keyOf d) < w.rank key := by
  refine Finset.card_lt_card ((Finset.ssubset_iff_of_subset fun e he => ?_).2 ⟨d, ?_, ?_⟩)
  · obtain ⟨hsize, hlt⟩ := Finset.mem_filter.1 he
    exact Finset.mem_filter.2 ⟨hsize, h.trans hlt⟩
  · exact Finset.mem_filter.2 ⟨Finset.mem_range.2 hd, h⟩
  · exact fun hmem => Nat.lt_irrefl _ (Finset.mem_filter.1 hmem).2

/-- One more segment makes a longer text. -/
theorem length_lt_of_joins {segments : List Name} {n n' simple : Name}
    (h : w.names.Joins base segments n) (h' : w.names.Joins base (segments ++ [simple]) n') :
    (w.text n).length < (w.text n').length := by
  rw [World.text, World.text, NameTable.text_eq h.2, NameTable.text_eq h'.2, List.map_append,
    List.map_singleton, ← joined_intercalate h.1, NameTable.joined, if_neg h.1]
  simp only [String.length_append]
  have hdot : ".".length = 1 := rfl
  omega

/-- **The name of a member type** is that of the declaration that it is a member of, and one segment
    more. In a declaration without a name it has none. -/
theorem Indexed.keyOf_member (hw : w.Indexed base) {d c : DeclId} {i : DeclInfo} {m : Nat}
    {tree t : TypeDecl} (hi : w.index.get? d = some i)
    (htree : w.index.tree? w.units d = some tree) (hm : tree.members[m]? = some (.type t))
    (hc : w.index.child? d m = some c) :
    (i.qualifiedName = .anonymous ∧ w.index.keyOf c = .unnamed c ∧ d < c) ∨
      ∃ n n' simple, i.qualifiedName = .named n ∧ w.index.keyOf c = .type n' ∧
        t.head.name = some simple ∧ base.Proper simple ∧
        w.names.Joins base (packageSegments w.units i.unit ++ namesAt w.units i.unit i.path) n ∧
        w.names.Joins base
          (packageSegments w.units i.unit ++ namesAt w.units i.unit i.path ++ [simple]) n' := by
  have hknown := DeclIndex.known?_of_get? hi
  obtain ⟨j, hj, hpos⟩ := (hw.settled.child?_eq_some hknown).1 hc
  obtain ⟨hunit, hpath⟩ : j.unit = i.unit ∧ j.path = i.path ++ [m] := List.cons.inj hpos
  have hat : treeAt w.units i.unit i.path = some tree := by
    rwa [DeclIndex.tree?_of_known? hknown] at htree
  obtain ⟨j', hj', -, -, hjname, -, -⟩ := DeclIndex.known?_eq hj
  rw [DeclIndex.keyOf_eq hj', DeclInfo.key, hjname]
  by_cases hin : InBody w.units i.unit i.path
  -- Inside the body of a constant nothing has a name.
  · have hjin : InBody w.units j.unit j.path := by
      rw [hunit, hpath]
      exact (inBody_below _ _).2 (.inl hin)
    rw [(hw.settled.anonymous_iff hj).2 hjin]
    refine .inl ⟨(hw.settled.anonymous_iff hknown).2 hin, rfl, ?_⟩
    refine (hw.settled.orderly.lt_iff hknown hj).2 ?_
    rw [hpos]
    exact comes_inside _ m
  · have hjin : ¬InBody w.units j.unit j.path := by
      rw [hunit, hpath]
      exact not_inBody_member hat hm hin
    obtain ⟨n, hn, hjoins⟩ := hw.settled.exists_name hknown hin
    obtain ⟨n', hn', hjoins'⟩ := hw.settled.exists_name hj hjin
    obtain ⟨simple, hsimple, hproper⟩ := member_name hw.trees hw.named hat hm
    have hbelow : treeAt w.units i.unit (i.path ++ [m]) = some t := by
      rw [treeAt_below hat, hm]
      rfl
    rw [hunit, hpath, namesAt_below hbelow, hsimple, ← List.append_assoc] at hjoins'
    rw [hn']
    exact .inr ⟨n, n', simple, hn, rfl, hsimple, hproper, hjoins, hjoins'⟩

/-- **A member type is higher** than the declaration that it is a member of. -/
theorem Indexed.height_lt (hw : w.Indexed base) {d c : DeclId} {m : Nat} {tree t : TypeDecl}
    (htree : w.index.tree? w.units d = some tree) (hm : tree.members[m]? = some (.type t))
    (hc : w.index.child? d m = some c) :
    w.height (w.index.keyOf d) < w.height (w.index.keyOf c) := by
  obtain ⟨i, hi, -⟩ := Option.bind_eq_some_iff.1 htree
  rw [DeclIndex.keyOf_eq hi, DeclInfo.key]
  rcases hw.keyOf_member hi htree hm hc with
    ⟨hname, hkey, hlt⟩ | ⟨n, n', simple, hname, hkey, -, -, hjoins, hjoins'⟩
  · rw [hname, hkey]
    exact hlt
  · rw [hname, hkey]
    exact length_lt_of_joins hjoins hjoins'

end World

/-! ### Accounts -/

/-- What is to be said of the parts of stubs and of what is reported of them: of the supertypes of a
    declaration, and of a variable of a field declaration. -/
structure Account where
  header : DeclId → Option String → List String → List Diagnostic → Prop
  field : DeclId → FieldDecl → Variable → FieldStub → List Diagnostic → Prop

namespace World

/-- For what is declared, one account says no less than another. -/
structure Entails (w : World) (x y : Account) : Prop where
  header : ∀ d tree, w.index.tree? w.units d = some tree → ∀ superclass interfaces ds,
    x.header d superclass interfaces ds → y.header d superclass interfaces ds
  field : ∀ d m f, w.member? d m = some (.field f) → ∀ v ∈ f.declarators, ∀ stub ds,
    x.field d f v stub ds → y.field d f v stub ds

/-- Members that have no part in the stub of the declaration `d` and report nothing: what is
    private, and constants, which have no type. -/
inductive Skipped (w : World) (d : DeclId) : ElementKey → Prop
  | constant {m : Nat} : Skipped w d (.constant d m)
  | field {m number : Nat} {f : FieldDecl} (member : w.member? d m = some (.field f))
      (hidden : f.modifiers.contains .privateAccess = true) : Skipped w d (.field d m number)
  | type {c : DeclId} {tree : TypeDecl} (primary : w.index.Primary c)
      (tree_eq : w.index.tree? w.units c = some tree)
      (hidden : tree.head.modifiers.contains .privateAccess = true) : Skipped w d (w.index.keyOf c)

mutual

/-- **The stub of a declaration and what is reported with it**, as an account has it: what is
    reported of the supertypes comes first, then what is reported of the members, in order. -/
inductive Extracted (w : World) (x : Account) : DeclId → TypeStub → List Diagnostic → Prop
  | mk {d : DeclId} {tree : TypeDecl} {surface : Surface} {nested : List TypeStub}
      {above below : List Diagnostic} (tree_eq : w.index.tree? w.units d = some tree)
      (header : x.header d surface.superclass surface.interfaces above)
      (members : MembersExtracted w x d (w.index.allMemberKeys d 0 tree.members) surface.fields
        nested below) : Extracted w x d (.mk surface nested) (above ++ below)

/-- The fields and the nested stubs for keys of the declaration `d`, and what is reported with
    them. -/
inductive MembersExtracted (w : World) (x : Account) : DeclId → List ElementKey → List FieldStub →
    List TypeStub → List Diagnostic → Prop
  | nil {d : DeclId} : MembersExtracted w x d [] [] [] []
  | skip {d : DeclId} {key : ElementKey} {keys : List ElementKey} {fields : List FieldStub}
      {nested : List TypeStub} {ds : List Diagnostic} (skipped : w.Skipped d key)
      (rest : MembersExtracted w x d keys fields nested ds) :
      MembersExtracted w x d (key :: keys) fields nested ds
  | field {d : DeclId} {m number : Nat} {f : FieldDecl} {v : Variable} {keys : List ElementKey}
      {stub : FieldStub} {fields : List FieldStub} {nested : List TypeStub}
      {above below : List Diagnostic} (member : w.member? d m = some (.field f))
      (declarator : f.declarators[number]? = some v)
      (visible : f.modifiers.contains .privateAccess = false) (reported : x.field d f v stub above)
      (rest : MembersExtracted w x d keys fields nested below) :
      MembersExtracted w x d (.field d m number :: keys) (stub :: fields) nested (above ++ below)
  | type {d c : DeclId} {tree : TypeDecl} {keys : List ElementKey} {fields : List FieldStub}
      {stub : TypeStub} {nested : List TypeStub} {above below : List Diagnostic}
      (primary : w.index.Primary c) (tree_eq : w.index.tree? w.units c = some tree)
      (visible : tree.head.modifiers.contains .privateAccess = false)
      (extracted : Extracted w x c stub above)
      (rest : MembersExtracted w x d keys fields nested below) :
      MembersExtracted w x d (w.index.keyOf c :: keys) fields (stub :: nested) (above ++ below)

end

section Extracted

variable {x y : Account}

mutual

/-- Stubs that are as an account has them are so for an account that says less. -/
theorem Extracted.mono (hxy : w.Entails x y) {d : DeclId} {stub : TypeStub} {ds : List Diagnostic}
    (h : w.Extracted x d stub ds) : w.Extracted y d stub ds := by
  match h with
  | .mk tree_eq header members =>
    exact .mk tree_eq (hxy.header _ _ tree_eq _ _ _ header) (members.mono hxy)

theorem MembersExtracted.mono (hxy : w.Entails x y) {d : DeclId} {keys : List ElementKey}
    {fields : List FieldStub} {nested : List TypeStub} {ds : List Diagnostic}
    (h : w.MembersExtracted x d keys fields nested ds) :
    w.MembersExtracted y d keys fields nested ds := by
  match h with
  | .nil => exact .nil
  | .skip skipped rest => exact .skip skipped (rest.mono hxy)
  | .field member declarator visible reported rest =>
    exact .field member declarator visible
      (hxy.field _ _ _ member _ (List.mem_of_getElem? declarator) _ _ reported) (rest.mono hxy)
  | .type primary tree_eq visible extracted rest =>
    exact .type primary tree_eq visible (extracted.mono hxy) (rest.mono hxy)

end

theorem MembersExtracted.append {d : DeclId} {keys keys' : List ElementKey}
    {fields fields' : List FieldStub} {nested nested' : List TypeStub} {ds ds' : List Diagnostic}
    (h : w.MembersExtracted x d keys fields nested ds)
    (h' : w.MembersExtracted x d keys' fields' nested' ds') :
    w.MembersExtracted x d (keys ++ keys') (fields ++ fields') (nested ++ nested') (ds ++ ds') := by
  match h with
  | .nil => exact h'
  | .skip skipped rest => exact .skip skipped (rest.append h')
  | .field member declarator visible reported rest =>
    rw [List.append_assoc]
    exact .field member declarator visible reported (rest.append h')
  | .type primary tree_eq visible extracted rest =>
    rw [List.append_assoc]
    exact .type primary tree_eq visible extracted (rest.append h')

end Extracted

/-- **What an extraction shows and reports**, by way of the lists of a session. -/
def account (w : World) (lists : Symbol → List Symbol → Prop) : Account where
  header d superclass interfaces ds := w.declOf? (w.symbolOf d) = some d ∧
    ∃ i, w.index.get? d = some i ∧
      w.HeaderShown lists i.nameSpan (w.symbolOf d) superclass interfaces ds
  field d f v stub ds := stub.name = w.text v.name ∧ stub.modifiers = f.modifiers ∧
    ∃ type,
      (w.typeOf (w.scopeOf d) (Element.withDimensions v.span v.dims f.type)).Finds lists type ∧
      w.TypeShown lists v.span type stub.type ds

theorem account_entails (hl : ∀ symbol l, lists symbol l → lists' symbol l) :
    w.Entails (w.account lists) (w.account lists') where
  header _ _ _ _ _ _ h := by
    obtain ⟨hdecl, i, hi, hshown⟩ := h
    exact ⟨hdecl, i, hi, hshown.mono hl⟩
  field _ _ _ _ _ _ _ _ h := by
    obtain ⟨hname, hmodifiers, type, htype, hshown⟩ := h
    exact ⟨hname, hmodifiers, type, htype.mono hl, hshown.mono hl⟩

end World

/-! ### Members -/

/-- A stub gains fields and nested stubs; its header stays. -/
structure TypeStub.Gains (before after : TypeStub) (fields : List FieldStub)
    (nested : List TypeStub) : Prop where
  superclass : after.surface.superclass = before.surface.superclass
  interfaces : after.surface.interfaces = before.surface.interfaces
  fields : after.surface.fields = before.surface.fields ++ fields
  nested : after.nested = before.nested ++ nested

theorem TypeStub.Gains.refl (stub : TypeStub) : stub.Gains stub [] [] :=
  ⟨rfl, rfl, (List.append_nil _).symm, (List.append_nil _).symm⟩

theorem TypeStub.Gains.trans {x y z : TypeStub} {fields fields' : List FieldStub}
    {nested nested' : List TypeStub} (h : x.Gains y fields nested)
    (h' : y.Gains z fields' nested') : x.Gains z (fields ++ fields') (nested ++ nested') where
  superclass := h'.superclass.trans h.superclass
  interfaces := h'.interfaces.trans h.interfaces
  fields := by rw [h'.fields, h.fields, List.append_assoc]
  nested := by rw [h'.nested, h.nested, List.append_assoc]

section Members

variable {extractType : ElementId → Extraction TypeStub} {place : Span} {d : DeclId}
  {id : ElementId} {key : ElementKey} {tree : TypeDecl}

/-- What is relied on of the function that extracts the stubs of the member types of `d`. -/
def World.Reports (w : World) (d : DeclId) (extractType : ElementId → Extraction TypeStub) : Prop :=
  ∀ t c id, w.index.Primary c → w.height (w.index.keyOf d) < w.height (w.index.keyOf c) →
    t.Denotes (w.index.keyOf c) id → (asking w).Emits t (extractType id) fun stub new u =>
      w.Extracted (w.account u.HoldsList) c stub new

/-- What a member adds to a stub, and what is reported of it. -/
def World.Added (w : World) (d : DeclId) (keys : List ElementKey) (before after : TypeStub)
    (new : List Diagnostic) (t : Session) : Prop :=
  ∃ fields nested, before.Gains after fields nested ∧
    w.MembersExtracted (w.account t.HoldsList) d keys fields nested new

theorem World.Added.skip (h : w.Skipped d key) (stub : TypeStub) :
    w.Added d [key] stub stub [] s :=
  ⟨[], [], .refl stub, .skip h .nil⟩

/-- A variable is added with its type. -/
theorem addVariable_emits {m number : Nat} {f : FieldDecl} {v : Variable}
    (hm : w.member? d m = some (.field f)) (hv : f.declarators[number]? = some v)
    (hd : s.Denotes (.field d m number) id) (stub : TypeStub) :
    (asking w).Emits s (addMember extractType place stub id) fun after new t =>
      w.Added d [.field d m number] stub after new t := by
  refine .sound fun hs => ?_
  obtain ⟨surface, nested⟩ := stub
  obtain ⟨e, he, hkind, hname, hmodifiers, hspan, hissued⟩ :=
    World.element_of_variable hs.resolved hm hv hd
  refine .lift (reads_elementAt he).ends fun x t ht _ ⟨hx, hst⟩ => ?_
  subst hx hst
  rw [Element.hasModifier, hmodifiers, hkind, hname, hspan]
  split
  · rename_i hprivate
    exact .pure fun _ => .skip (.field hm hprivate) _
  · rename_i hvisible
    refine .lift (ownType_ends ⟨_, hd, rfl⟩) fun type u _ _ htype => ?_
    have hread := htype.held (w.typeOf (w.scopeOf d) (Element.withDimensions v.span v.dims f.type))
      (by rw [ElementKey.symbol, World.reading?, World.fieldType?_eq hm hv]; rfl)
    refine (reportedText_emits ⟨htype.holds, rfl⟩).bind fun text new y hy hg hshown => ?_
    refine .lift (reads_nameOfBatch hy.resolved hissued).ends fun name z _ _ hname =>
      .pure fun _ => ?_
    obtain ⟨rfl, rfl⟩ := hname
    refine ⟨[⟨_, text, f.modifiers⟩], [], ⟨rfl, rfl, rfl, (List.append_nil _).symm⟩, ?_⟩
    exact .field hm hv (by simpa using hvisible) ⟨rfl, rfl, _, hread.mono hg.lists, hshown⟩ .nil

/-- A constant is added by its name. -/
theorem addConstant_emits {m : Nat} (hd : s.Denotes (.constant d m) id) (stub : TypeStub) :
    (asking w).Emits s (addMember extractType place stub id) fun after new t =>
      w.Added d [.constant d m] stub after new t := by
  refine .sound fun hs => ?_
  obtain ⟨surface, nested⟩ := stub
  obtain ⟨e, n, body, sp, he, hm, hkind, hname, hmodifiers, hissued⟩ :=
    World.element_of_constant hs.resolved hd
  refine .lift (reads_elementAt he).ends fun x t ht _ ⟨hx, hst⟩ => ?_
  subst hx hst
  rw [Element.hasModifier, hmodifiers, hkind, hname]
  refine .lift (reads_nameOfBatch ht.resolved hissued).ends fun name _ _ _ _ => .pure fun _ => ?_
  exact ⟨[], [], ⟨rfl, rfl, (List.append_nil _).symm, (List.append_nil _).symm⟩,
    .skip .constant .nil⟩

/-- A member type is added with its own stub. -/
theorem addType_emits {c : DeclId} (hextract : w.Reports d extractType) (hp : w.index.Primary c)
    (hlt : w.height (w.index.keyOf d) < w.height (w.index.keyOf c))
    (hd : s.Denotes (w.index.keyOf c) id) (stub : TypeStub) :
    (asking w).Emits s (addMember extractType place stub id) fun after new t =>
      w.Added d [w.index.keyOf c] stub after new t := by
  refine .sound fun hs => ?_
  obtain ⟨surface, nested⟩ := stub
  have hprimary := hp
  have hdw := hd
  rw [← hs.resolved.of.index] at hp hd
  obtain ⟨i, tree, e, he⟩ := hs.resolved.sound.isTree hp hd
  have htree := he.tree_world hs.resolved.of
  refine .lift (reads_elementAt he.get).ends fun y t _ _ ⟨hy, hst⟩ => ?_
  subst hy hst
  rw [Element.hasModifier, he.modifiers, he.kind]
  split
  · rename_i hprivate
    exact .pure fun _ => .skip (.type hprimary htree hprivate) _
  · rename_i hvisible
    have hnested : (asking w).Emits t (do
        return TypeStub.mk surface (nested ++ [← extractType id])) fun after new u =>
        w.Added d [w.index.keyOf c] (.mk surface nested) after new u := by
      refine (hextract t c id hprimary hlt hdw).bind fun stub new u _ _ hstub => .pure fun _ => ?_
      refine ⟨[], [stub], ⟨rfl, rfl, (List.append_nil _).symm, rfl⟩, ?_⟩
      exact .type hprimary htree (by simpa using hvisible) hstub .nil
    cases tree.head.kind <;> exact hnested

/-- The key of a member type is that of a declaration with an element of its own, which is
    higher. -/
theorem World.Indexed.exists_higher (hw : w.Indexed base) (hp : w.index.Primary d)
    (htree : w.index.tree? w.units d = some tree) {m : Nat} {t : TypeDecl}
    (hm : tree.members[m]? = some (.type t)) {c : DeclId} (hc : w.index.child? d m = some c) :
    ∃ c', w.index.Primary c' ∧ w.index.keyOf c' = w.index.keyOf c ∧
      w.height (w.index.keyOf d) < w.height (w.index.keyOf c') := by
  have hlt := hw.height_lt htree hm hc
  have hchild := hw.settled.sound.children d m c hc
  rcases DeclIndex.childOf_cases (fun _ hq => Option.some.inj hq ▸ hp) hchild with
    ⟨n, hkey, hfound⟩ | ⟨hprimary, -⟩
  -- A duplicate stands for the first declaration of its name.
  · obtain ⟨c', hc'⟩ := Option.isSome_iff_exists.1 hfound
    obtain ⟨hprimary, hkey', -⟩ := hw.settled.sound.primary_of_find? hc'
    exact ⟨c', hprimary, hkey'.trans hkey.symm, by rwa [hkey', ← hkey]⟩
  · exact ⟨c, hprimary, rfl, hlt⟩

/-- **A member is added to a stub**, and reported. -/
theorem addMember_emits (hw : w.Indexed base) (hextract : w.Reports d extractType)
    (hp : w.index.Primary d) (htree : w.index.tree? w.units d = some tree) {k : Nat} {m : Member}
    (hm : tree.members[k]? = some m) (hkey : key ∈ w.index.memberKeys d k m)
    (hd : s.Denotes key id) (stub : TypeStub) :
    (asking w).Emits s (addMember extractType place stub id) fun after new t =>
      w.Added d [key] stub after new t := by
  have hmember : w.member? d k = some m := by
    rw [World.member?, htree]
    exact hm
  cases m with
  | field f =>
    obtain ⟨number, hnumber, rfl⟩ := List.mem_map.1 hkey
    have hv := List.getElem?_eq_getElem (List.mem_range.1 hnumber)
    exact addVariable_emits hmember hv hd stub
  | constant n body sp =>
    obtain rfl := List.mem_singleton.1 hkey
    exact addConstant_emits hd stub
  | type t =>
    rw [DeclIndex.memberKeys, Option.mem_toList] at hkey
    obtain ⟨c, hc, rfl⟩ := Option.map_eq_some_iff.1 hkey
    obtain ⟨c', hprimary, hsame, hlt⟩ := hw.exists_higher hp htree hm hc
    rw [← hsame] at hd ⊢
    exact addType_emits hextract hprimary hlt hd stub

/-- **All members are added**, in order. -/
theorem addMembers_emits (hw : w.Indexed base) (hextract : w.Reports d extractType)
    (hp : w.index.Primary d) (htree : w.index.tree? w.units d = some tree) {ids : List ElementId}
    {keys : List ElementKey}
    (hkeys : ∀ key ∈ keys, ∃ k m, tree.members[k]? = some m ∧ key ∈ w.index.memberKeys d k m)
    (hids : List.Forall₂ (fun id key => s.Denotes key id) ids keys) (stub : TypeStub) :
    (asking w).Emits s (ids.foldlM (addMember extractType place) stub) fun after new t =>
      w.Added d keys stub after new t := by
  induction keys generalizing s ids stub with
  | nil =>
    cases hids
    exact .pure fun _ => ⟨[], [], .refl stub, .nil⟩
  | cons key rest ih =>
    obtain _ | ⟨hd, hids⟩ := hids
    obtain ⟨k, m, hm, hkey⟩ := hkeys key List.mem_cons_self
    rw [List.foldlM_cons]
    refine (addMember_emits hw hextract hp htree hm hkey hd stub).bind
      fun next new t _ hg hnext => ?_
    have hgrown := hids.imp fun _ _ h => Session.Denotes.grow h hg.toKeeps
    refine (ih (fun key hkey => hkeys key (List.mem_cons_of_mem _ hkey)) hgrown next).mono
      fun after more u _ hg' hafter => ?_
    obtain ⟨fields, nested, hgains, hfirst⟩ := hnext
    obtain ⟨fields', nested', hgains', hothers⟩ := hafter
    exact ⟨fields ++ fields', nested ++ nested', hgains.trans hgains',
      (hfirst.mono (World.account_entails hg'.lists)).append hothers⟩

end Members

/-! ### Stubs -/

section Stubs

variable {d : DeclId} {id : ElementId}

theorem paramTexts_emits {names : List Name} (h : ∀ n ∈ names, s.names.Issued n) :
    (asking w).Emits s (names.mapM fun n => (nameText n : Extraction String)) fun _ new t =>
      new = [] ∧ t = s := by
  induction names with
  | nil => exact .pure fun _ => ⟨rfl, rfl⟩
  | cons n rest ih =>
    rw [List.mapM_cons]
    refine .lift (reads_nameText (h n List.mem_cons_self)).ends fun _ t _ _ ⟨_, ht⟩ => ?_
    subst ht
    refine (ih fun m hm => h m (List.mem_cons_of_mem _ hm)).bind fun _ new u _ _ hu =>
      .pure fun _ => ?_
    obtain ⟨rfl, rfl⟩ := hu
    exact ⟨rfl, rfl⟩

/-- **The stub of a declaration and what is reported with it**, if `fuel` suffices for what is
    higher. -/
theorem extractWithin_emits (hw : w.Indexed base) {fuel : Nat}
    (hfuel : w.rank (w.index.keyOf d) < fuel) (hp : w.index.Primary d)
    (hd : s.Denotes (w.index.keyOf d) id) :
    (asking w).Emits s (extractWithin fuel id) fun stub new t =>
      w.Extracted (w.account t.HoldsList) d stub new := by
  -- Along the fuel: member types are higher, so fewer declarations are higher than they are.
  induction fuel generalizing s d id with
  | zero => exact absurd hfuel (Nat.not_lt_zero _)
  | succ fuel ih =>
    refine .sound fun hs => ?_
    have hprimary := hp
    rw [← hs.resolved.of.index] at hp hd
    obtain ⟨i, tree, e, he⟩ := hs.resolved.sound.isTree hp hd
    have htree := he.tree_world hs.resolved.of
    have hshow : s.Shows (w.symbolOf d) id :=
      ⟨_, hd, hs.resolved.of.symbol_keyOf hs.resolved.world d⟩
    have hdecl : w.declOf? (w.symbolOf d) = some d :=
      hs.resolved.of.declOf?_symbolOf hs.resolved.world hp
    have hnamed := hs.resolved.named he.get
    unfold extractWithin
    refine .lift (reads_elementAt he.get).ends fun a t _ _ h => ?_
    obtain ⟨ha, ht⟩ := h
    subst ha ht
    rw [show a.span = some i.nameSpan from congrArg Element.span he.bare]
    refine (extractSuperclass_emits hshow).bind fun superclass before u hu hgu hsuperclass => ?_
    have hshowu := hshow.grow hs.resolved.sound hgu.toKeeps
    refine (extractInterfaces_emits hshowu).bind fun interfaces after v hv hgv hinterfaces => ?_
    have hg := hgu.trans hgv
    have hlt := (Array.getElem?_eq_some_iff.1 he.get).1
    obtain ⟨text, htext⟩ := reads_displayElement hv.resolved (Nat.lt_of_lt_of_le hlt hg.size_le)
    refine .lift htext.ends fun name y _ _ h => ?_
    obtain ⟨-, hy⟩ := h
    subst hy
    refine (paramTexts_emits fun n hn => (hnamed.typeParams n hn).le hg.names).bind
      fun params new z _ _ hz => ?_
    obtain ⟨hnew, hz⟩ := hz
    subst hnew hz
    obtain ⟨e', he', hbare⟩ := hg.elements id _ he.get
    have hshowv := hshowu.grow hu.resolved.sound hgv.toKeeps
    refine .lift (enclosedOf_answers hshowv he') fun r y hy hgy hr => ?_
    obtain ⟨ids, rfl, -, hids, -⟩ := hr
    have hmembers := hids _ ((congrArg Element.source hbare).trans he.source)
    rw [show (t.shapeOf d i tree).members = w.index.allMemberKeys d 0 tree.members by
      rw [← hs.resolved.of.index]; rfl] at hmembers
    have hextract : w.Reports d (extractWithin fuel) := by
      intro t c id hc hhigher hden
      obtain ⟨_, hi⟩ := hc.info
      have hrank := World.rank_lt
        (w.index.lt_size_of_known? (Option.isSome_of_mem (DeclIndex.known?_of_get? hi))) hhigher
      exact ih (Nat.lt_of_lt_of_le hrank (Nat.le_of_lt_succ hfuel)) hc hden
    refine (addMembers_emits hw hextract hprimary htree
      (fun _ => DeclIndex.mem_allMemberKeys_zero.1) hmembers _).mono
      fun stub more x _ hgx hstub => ?_
    obtain ⟨surface', nested'⟩ := stub
    obtain ⟨fields, nested, hgains, hall⟩ := hstub
    obtain ⟨hsuper, hinter, hfields, hnested⟩ := hgains
    dsimp only [TypeStub.surface, TypeStub.nested] at hsuper hinter hfields hnested
    rw [List.nil_append] at hfields hnested
    rw [List.nil_append, ← List.append_assoc]
    rw [← hfields, ← hnested] at hall
    refine .mk htree ?_ hall
    rw [hsuper, hinter]
    have hgx' := hgy.trans hgx
    obtain ⟨r, hr, hshown⟩ := hsuperclass
    obtain ⟨r', hr', hshown'⟩ := hinterfaces
    exact ⟨hdecl, i, he.info_world hs.resolved.of, r, r', before, after, rfl,
      hr.mono (hgv.trans hgx').lists, hshown.mono (hgv.trans hgx').lists, hr'.mono hgx'.lists,
      hshown'.mono hgx'.lists⟩

/-- A stub says the same of its declaration with the file of the declaration. -/
theorem World.Extracted.withSource {x : Account} {stub : TypeStub} {ds : List Diagnostic}
    (h : w.Extracted x d stub ds) (source : Option SourceRef) :
    w.Extracted x d (.mk { stub.surface with source } stub.nested) ds := by
  cases h with
  | mk tree_eq header members => exact .mk tree_eq header members

theorem extract_emits (hw : w.Indexed base) {b : Batch} (hp : w.index.Primary d)
    (hd : s.Denotes (w.index.keyOf d) id) :
    (asking w).Emits s (extract b id) fun stub new t =>
      w.Extracted (w.account t.HoldsList) d stub new := by
  have hget : Reads s (get : SessionM Session) s := rfl
  refine .lift hget.ends fun st t ht _ ⟨hst, heq⟩ => ?_
  subst hst heq
  have hfuel : w.rank (w.index.keyOf d) < t.index.size + 2 := by
    rw [ht.resolved.of.index]
    exact Nat.lt_succ_of_le (Nat.le_succ_of_le (World.rank_le _))
  refine (extractWithin_emits hw hfuel hp hd).bind fun stub new u hu hg hstub => ?_
  obtain ⟨e, he, -⟩ := hu.resolved.sound.element _ id (hd.grow hg.toKeeps)
  refine .lift (reads_elementAt he).ends fun _ v _ _ h => .pure fun _ => ?_
  obtain ⟨-, rfl⟩ := h
  rw [List.append_nil]
  exact hstub.withSource _

/-- The stubs of declarations, in order, and what is reported with them. -/
inductive World.AllExtracted (w : World) (x : Account) :
    List DeclId → List TypeStub → List Diagnostic → Prop
  | nil : AllExtracted w x [] [] []
  | cons {d : DeclId} {ds : List DeclId} {stub : TypeStub} {stubs : List TypeStub}
      {above below : List Diagnostic} (first : w.Extracted x d stub above)
      (rest : AllExtracted w x ds stubs below) :
      AllExtracted w x (d :: ds) (stub :: stubs) (above ++ below)

theorem World.AllExtracted.mono {x y : Account} (hxy : w.Entails x y) {ds : List DeclId}
    {stubs : List TypeStub} {reported : List Diagnostic} (h : w.AllExtracted x ds stubs reported) :
    w.AllExtracted y ds stubs reported := by
  induction h with
  | nil => exact .nil
  | cons first _ ih => exact .cons (first.mono hxy) ih

/-- The declaration from whose tree an element is made. -/
def Element.decl? (e : Element) : Option DeclId :=
  match e.source with
  | .tree shape => some shape.decl
  | _ => none

/-- An element is made from the tree of the declaration `d`. -/
def Session.Declares (s : Session) (id : ElementId) (d : DeclId) : Prop :=
  (s.elements.get? id).bind Element.decl? = some d

instance (s : Session) (id : ElementId) (d : DeclId) : Decidable (s.Declares id d) :=
  inferInstanceAs (Decidable (_ = some d))

theorem Session.Declares.denotes (h : s.Declares id d) (hs : s.Resolved w) :
    w.index.Primary d ∧ s.Denotes (w.index.keyOf d) id := by
  obtain ⟨e, he, hdecl⟩ := Option.bind_eq_some_iff.1 h
  rw [Element.decl?] at hdecl
  obtain ⟨symbol, hshow⟩ := hs.sound.exists_shows he
  cases hshow.madeFrom hs he with
  | tree decl denotes isTree =>
    rw [isTree.source] at hdecl
    cases hdecl
    rw [← hs.of.index]
    exact ⟨isTree.primary, denotes⟩
  | described undeclared descriptor isDescribed =>
    rw [isDescribed.source] at hdecl
    cases hdecl
  | other notType kind source =>
    obtain h | ⟨type, h⟩ | ⟨body, h⟩ := source <;> rw [h] at hdecl <;> cases hdecl

theorem extracts_emit (hw : w.Indexed base) {b : Batch} {ids : List ElementId} {ds : List DeclId}
    (hp : ∀ d ∈ ds, w.index.Primary d)
    (hids : List.Forall₂ (fun id d => s.Denotes (w.index.keyOf d) id) ids ds) :
    (asking w).Emits s (ids.mapM (extract b)) fun stubs new t =>
      w.AllExtracted (w.account t.HoldsList) ds stubs new := by
  induction ds generalizing s ids with
  | nil =>
    cases hids
    exact .pure fun _ => .nil
  | cons d rest ih =>
    obtain _ | ⟨hd, hrest⟩ := hids
    rw [List.mapM_cons]
    refine (extract_emits hw (hp d List.mem_cons_self) hd).bind fun stub new t _ hg hstub => ?_
    refine (ih (fun e he => hp e (List.mem_cons_of_mem _ he))
      (hrest.imp fun _ _ h => Session.Denotes.grow h hg.toKeeps)).bind
      fun stubs more u _ hg' hstubs => .pure fun _ => ?_
    rw [List.append_nil]
    exact .cons (hstub.mono (World.account_entails hg'.lists)) hstubs

end Stubs

namespace Client

variable (token : SessionToken) (files : Batch) (provider : Provider) (config : ModelConfig)

/-- **What a client extracts**: after any questions, the stubs of any elements that are made from
    trees, and what is reported with them. -/
theorem extracts (questions : List Question) {ids : List ElementId} {ds : List DeclId} :
    let s : Session := ((start token files provider config).askAll questions).session
    List.Forall₂ s.Declares ids ds →
    ∃ stubs reported t,
      ((ids.mapM (extract files)).run #[]).run.run s = (.ok (stubs, reported), t) ∧
      t.Idle (world token files provider config) ∧
      (world token files provider config).AllExtracted
        ((world token files provider config).account t.HoldsList) ds stubs reported.toList := by
  intro s hids
  have hs : s.Idle (world token files provider config) :=
    (fits_asked token files provider config questions).idle
  have hdenotes := hids.imp fun _ _ h => (h.denotes hs.resolved).2
  have hprimary : ∀ d ∈ ds, (world token files provider config).index.Primary d := fun d hd => by
    obtain ⟨id, -, h⟩ := forall₂_mem_left hids.flip d hd
    have h : s.Declares id d := h
    exact (h.denotes hs.resolved).1
  obtain ⟨_, t, hrun, ht, -, ⟨stubs, reported⟩, rfl, new, hnew, hstubs⟩ :=
    extracts_emit World.indexed_of_client hprimary hdenotes #[] hs
  refine ⟨stubs, reported, t, hrun, ht, ?_⟩
  rw [hnew]
  exact hstubs

end Client

end JavaAbi
