import JavaAbi.Proofs.Honesty
import JavaAbi.Proofs.TwinContents
import JavaAbi.Proofs.TwinStarts

namespace JavaAbi

/-!
# The order of files

Two clients ask the same of two batches with the same files in different orders. If no declaration
is reported as a duplicate, they are told the same, but for the order in which a package encloses
its types; only elements, names and references are numbered differently.

* `Reply.Alike`, `Question.Alike` — questions and replies that differ in numbers only;
* `Client.Follows` — questions that start from look-ups and go on about what was received;
* `Twins.query_asks` — one question, asked of two sessions that have learnt the same;
* `Client.order_irrelevant` — any such questions, asked of new clients.
-/

open Course

/-! ### What a client receives -/

/-- The element that a type names, if it is known. -/
def TypeTarget.mentioned : TypeTarget → List ElementId
  | known id => [id]
  | written .. => []

mutual

/-- The elements that a type mentions: those that it names, and owners of type variables. -/
def ModelType.mentioned : ModelType → List ElementId
  | .declared _ target args enclosing =>
    target.mentioned ++ ModelType.mentionedAll args ++ enclosing.mentioned
  | .array component => component.mentioned
  | .typeVariable _ owner => [owner]
  | .wildcard upper lower => ModelType.mentionedBound upper ++ ModelType.mentionedBound lower
  | .primitive _ | .absent | .void | .package | .error => []

/-- The elements that types mention. -/
def ModelType.mentionedAll : List ModelType → List ElementId
  | [] => []
  | t :: rest => t.mentioned ++ ModelType.mentionedAll rest

/-- The elements that a bound mentions. -/
def ModelType.mentionedBound : Option ModelType → List ElementId
  | none => []
  | some t => t.mentioned

end

/-- The elements that a reply mentions. -/
def Reply.mentioned : Reply → List ElementId
  | elements ids => ids
  | types ts => ModelType.mentionedAll ts
  | _ => []

/-- The question looks up a name, or is about an element among `known`, or about a type. -/
def Question.Follows (known : List ElementId) (q : Question) : Prop :=
  q ≠ .topLevelTypes ∧ q ≠ .duplicates ∧ ∀ id ∈ q.element?, id ∈ known

instance (known : List ElementId) (q : Question) : Decidable (q.Follows known) :=
  inferInstanceAs (Decidable (_ ∧ _ ∧ _))

namespace Client

/-- Questions with what comes back for them, in order. -/
def transcript (c : Client) : List Question → List (Question × Reply)
  | [] => []
  | q :: rest => (q, (c.ask q).1) :: (c.ask q).2.transcript rest

/-- Questions that start from look-ups and go on about what was received. -/
def Follows (c : Client) (known : List ElementId) : List Question → Prop
  | [] => True
  | q :: rest => q.Follows known ∧ (c.ask q).2.Follows (known ++ (c.ask q).1.mentioned) rest

instance decidableFollows (c : Client) (known : List ElementId) :
    (questions : List Question) → Decidable (c.Follows known questions)
  | [] => .isTrue trivial
  | q :: rest =>
    have := (c.ask q).2.decidableFollows (known ++ (c.ask q).1.mentioned) rest
    inferInstanceAs (Decidable (q.Follows known ∧ _))

end Client

/-! ### Questions and replies that differ in numbers only -/

/-- The same question about another element. -/
def Question.about (id : ElementId) : Question → Question
  | enclosing _ => enclosing id
  | package _ => package id
  | enclosed _ => enclosed id
  | body _ => body id
  | superclass _ => superclass id
  | interfaces _ => interfaces id
  | ownType _ => ownType id
  | display _ => display id
  | q => q

/-- The same question, about corresponding elements if it is about one. -/
inductive Question.Alike (R : Resemblance) : Question → Question → Prop
  | same {q : Question} (h : q.element? = none) : Alike R q q
  | about {q : Question} {id id' : ElementId} (h : q.element? = some id) (hid : R.element id id') :
      Alike R q (q.about id')

/-- Replies of the same structure; `unordered` tells whether elements may come in another order. -/
inductive Reply.Alike (R : Resemblance) (unordered : Prop) : Reply → Reply → Prop
  | elements {ids ids' : List ElementId} (h : List.Forall₂ R.element ids ids') :
      Alike R unordered (.elements ids) (.elements ids')
  | contents {ids ids' l : List ElementId} (h : unordered) (order : l.Perm ids')
      (all : List.Forall₂ R.element ids l) : Alike R unordered (.elements ids) (.elements ids')
  | types {ts ts' : List ModelType} (h : ModelType.AllAlike R ts ts') :
      Alike R unordered (.types ts) (.types ts')
  | text (s : String) : Alike R unordered (.text s) (.text s)
  | diagnostics (ds : List Diagnostic) : Alike R unordered (.diagnostics ds) (.diagnostics ds)
  | unanswered (e : ModelError) : Alike R unordered (.unanswered e) (.unanswered e)

section Alike

variable {R R' : Resemblance} {P P' : Prop} {r r' : Reply}

theorem Reply.Alike.mono (h : Reply.Alike R P r r') (hle : R.Le R') (hp : P → P') :
    Reply.Alike R' P' r r' := by
  cases h with
  | elements h => exact .elements (h.imp fun _ _ h => hle.element h)
  | contents h order all => exact .contents (hp h) order (all.imp fun _ _ h => hle.element h)
  | types h => exact .types (h.mono hle)
  | text s => exact .text s
  | diagnostics ds => exact .diagnostics ds
  | unanswered e => exact .unanswered e

theorem Question.Alike.mono {q q' : Question} (h : Question.Alike R q q') (hle : R.Le R') :
    Question.Alike R' q q' := by
  cases h with
  | same h => exact .same h
  | about h hid => exact .about h (hle.element hid)

/-- A question about an element that has a counterpart has one. -/
theorem Question.exists_alike {q : Question} (h : ∀ id ∈ q.element?, ∃ id', R.element id id') :
    ∃ q', Question.Alike R q q' := by
  match hq : q.element? with
  | none => exact ⟨q, .same hq⟩
  | some id =>
    obtain ⟨id', hid⟩ := h id hq
    exact ⟨q.about id', .about hq hid⟩

theorem Reply.Alike.received (h : Reply.Alike R P r r') :
    ModelType.AllAlike R r.received r'.received := by
  cases h with
  | types h => exact h
  | _ => exact .nil

mutual

/-- What corresponding types mention corresponds. -/
theorem ModelType.Alike.mentioned {t t' : ModelType} (h : ModelType.Alike R t t') :
    ∀ id ∈ t.mentioned, ∃ id', R.element id id' := by
  match h with
  | .primitive _ | .absent | .void | .package | .error => exact List.forall_mem_nil _
  | .declared _ named arguments around =>
    rw [ModelType.mentioned]
    refine List.forall_mem_append.2 ⟨List.forall_mem_append.2 ⟨?_, ?_⟩, ?_⟩
    · cases named with
      | known h => exact List.forall_mem_singleton.2 ⟨_, h⟩
      | written _ => exact List.forall_mem_nil _
    · exact ModelType.AllAlike.mentioned arguments
    · exact ModelType.Alike.mentioned around
  | .array component =>
    rw [ModelType.mentioned]
    exact ModelType.Alike.mentioned component
  | .typeVariable _ owner => exact List.forall_mem_singleton.2 ⟨_, owner⟩
  | .wildcard upper lower =>
    rw [ModelType.mentioned]
    exact List.forall_mem_append.2
      ⟨ModelType.BoundAlike.mentioned upper, ModelType.BoundAlike.mentioned lower⟩

theorem ModelType.AllAlike.mentioned {ts ts' : List ModelType} (h : ModelType.AllAlike R ts ts') :
    ∀ id ∈ ModelType.mentionedAll ts, ∃ id', R.element id id' := by
  match h with
  | .nil => exact List.forall_mem_nil _
  | .cons head tail =>
    rw [ModelType.mentionedAll]
    exact List.forall_mem_append.2
      ⟨ModelType.Alike.mentioned head, ModelType.AllAlike.mentioned tail⟩

theorem ModelType.BoundAlike.mentioned {b b' : Option ModelType} (h : ModelType.BoundAlike R b b') :
    ∀ id ∈ ModelType.mentionedBound b, ∃ id', R.element id id' := by
  match h with
  | .none => exact List.forall_mem_nil _
  | .some bound => exact ModelType.Alike.mentioned bound

end

/-- What corresponding replies mention corresponds. -/
theorem Reply.Alike.mentioned (h : Reply.Alike R P r r') :
    ∀ id ∈ r.mentioned, ∃ id', R.element id id' := by
  have hmem {ids l : List ElementId} (h : List.Forall₂ R.element ids l) :
      ∀ id ∈ ids, ∃ id', R.element id id' := fun id hid =>
    (forall₂_mem_left h id hid).imp fun _ hid => hid.2
  cases h with
  | elements h => exact hmem h
  | contents _ _ all => exact hmem all
  | types h => exact h.mentioned
  | text _ | diagnostics _ | unanswered _ => exact List.forall_mem_nil _

/-- The parts of corresponding types. -/
theorem ModelType.Alike.parts {t t' : ModelType} (h : ModelType.Alike R t t') :
    ModelType.AllAlike R t.parts t'.parts := by
  cases h with
  | declared _ _ arguments around => exact .cons around arguments
  | array component => exact .cons component .nil
  | wildcard upper lower =>
    cases upper <;> cases lower
    · exact .nil
    · exact .cons ‹_› .nil
    · exact .cons ‹_› .nil
    · exact .cons ‹_› (.cons ‹_› .nil)
  | _ => exact .nil

end Alike

/-! ### One question -/

namespace Twins

variable {w w' : World} {T : Twins w w'} {s s' t t' : Session} {id id' : ElementId}

/-- The question is for what a package encloses. -/
def AsksContents (s : Session) (q : Question) : Prop :=
  ∃ id n, q = .enclosed id ∧ s.Denotes (.package n) id

theorem AsksContents.later {q : Question} (h : AsksContents s q) (hl : s.Lasts t) :
    AsksContents t q := by
  obtain ⟨id, n, hq, hd⟩ := h
  exact ⟨id, n, hq, hd.last hl⟩

/-- No variable is left out. -/
def KeepsAll (T : Twins w w') : Prop := ∀ f : FieldDecl, T.keep f = true

theorem KeepsAll.not_hidden (hk : T.KeepsAll) (key : ElementKey) : ¬T.Hidden key := by
  intro h
  cases key with
  | field d m v =>
    obtain ⟨f, -, hf⟩ := h
    exact absurd (hk f) (hf ▸ Bool.false_ne_true)
  | _ => exact h

theorem lookupType_asks (name : String) :
    T.Asks s s' (lookupType name) (lookupType name) T.same := by
  unfold lookupType
  split
  · exact .throw _
  · exact .lift (internName_runs name) fun _ _ _ _ _ _ hn => findType_asks hn

theorem lookupPackage_asks (name : String) :
    T.Asks s s' (lookupPackage name) (lookupPackage name) T.same := by
  unfold lookupPackage
  split
  · exact .throw _
  · rename_i hempty
    have hproper {u : Session} {n : Name} (hn : u.names.resolve? n = some name) :
        u.Askable (.package n) := by
      refine ⟨⟨name, hn⟩, ?_⟩
      rintro rfl
      have hname := Option.some.inj (hn.symm.trans u.names.resolve?_empty)
      exact hempty (String.isEmpty_iff.2 hname)
    have hintern : T.Runs s s' (internName name) (internName name) fun n n' u u' =>
        u.names.resolve? n = some name ∧ u'.names.resolve? n' = some name :=
      .builds (internName_ends name) (internName_ends name) fun _ _ _ _ _ _ hn hn' => ⟨hn, hn'⟩
    refine .lift hintern fun n n' u u' _ _ hn => ?_
    exact canonical_asks (.package ⟨name, hn.1, hn.2⟩) (hproper hn.1) (hproper hn.2)

variable {α β : Type}

/-- Elements that correspond, as a reply. -/
theorem Asks.elements {q : Query α} {q' : Query β} {rel : α → β → Session → Session → Prop}
    {f : α → List ElementId} {f' : β → List ElementId} {P : Prop} (h : T.Asks s s' q q' rel)
    (hf : ∀ a b t t', rel a b t t' → List.Forall₂ (T.Same t t') (f a) (f' b)) :
    T.Asks s s' (do return Reply.elements (f (← q))) (do return Reply.elements (f' (← q')))
      fun r r' t t' => Reply.Alike (T.resemblance t t') P r r' :=
  h.bind fun a b t t' _ _ hab => .pure fun _ => .elements (hf a b t t' hab)

/-- Types that correspond, as a reply. -/
theorem Asks.types {q : Query α} {q' : Query β} {rel : α → β → Session → Session → Prop}
    {f : α → List ModelType} {f' : β → List ModelType} {P : Prop} (h : T.Asks s s' q q' rel)
    (hf : ∀ a b t t', rel a b t t' → ModelType.AllAlike (T.resemblance t t') (f a) (f' b)) :
    T.Asks s s' (do return Reply.types (f (← q))) (do return Reply.types (f' (← q')))
      fun r r' t t' => Reply.Alike (T.resemblance t t') P r r' :=
  h.bind fun a b t t' _ _ hab => .pure fun _ => .types (hf a b t t' hab)

theorem Asks.text {m : SessionM String} {m' : SessionM String} {P : Prop}
    (h : T.Runs s s' m m' equal) :
    T.Asks s s' (do return Reply.text (← m)) (do return Reply.text (← m'))
      fun r r' t t' => Reply.Alike (T.resemblance t t') P r r' :=
  .lift h fun a _ _ _ _ _ hab => .pure fun _ => hab ▸ .text a

/-- Work on types that correspond; there is nothing to do for others. -/
theorem withType_asks {types types' : List ModelType} {P : Prop}
    (htypes : List.Forall₂ (fun a b => T.typed a b s s') types types') {i : Nat}
    {f f' : ModelType → Query Reply}
    (hf : ∀ a b, T.typed a b s s' → T.Asks s s' (f a) (f' b)
      fun r r' t t' => Reply.Alike (T.resemblance t t') P r r') :
    T.Asks s s' (withType types i f) (withType types' i f')
      fun r r' t t' => Reply.Alike (T.resemblance t t') P r r' := by
  have hi := rel_getElem? htypes i
  unfold withType
  generalize types[i]? = a, types'[i]? = b at hi ⊢
  cases hi with
  | none => exact .pure fun _ => .types .nil
  | some h => exact hf _ _ h

/-- **What corresponding elements enclose**, as a reply: a package may enclose it in another
    order. -/
theorem enclosedOf_replies (hk : T.KeepsAll) (hid : T.Same s s' id id') :
    T.Asks s s' (do return Reply.elements (← enclosedOf id))
      (do return Reply.elements (← enclosedOf id'))
      fun r r' t t' => Reply.Alike (T.resemblance t t') (AsksContents s (.enclosed id)) r r' := by
  have hkey := hid
  obtain ⟨key, -, hd, -, -⟩ := hkey
  refine (enclosedOf_asks hid hd).bind fun ids ids' t t' _ _ hcontents => .pure fun _ => ?_
  have hshed (h : T.Sheds ids ids' t t') : List.Forall₂ (T.Same t t') ids ids' :=
    h.forall₂ fun _ ⟨key, _, hh⟩ => hk.not_hidden key hh
  cases key with
  | package n =>
    obtain ⟨l, hperm, hall⟩ := hcontents
    exact .contents ⟨id, n, rfl, hd⟩ hperm hall
  | _ => exact .elements (hshed hcontents)

/-- **A question and its counterpart** are answered alike. -/
theorem query_asks (hk : T.KeepsAll) {types types' : List ModelType}
    (htypes : List.Forall₂ (fun a b => T.typed a b s s') types types') {known : List ElementId}
    {q q' : Question} (hq : Question.Alike (T.resemblance s s') q q') (hf : q.Follows known) :
    T.Asks s s' (q.query types) (q'.query types')
      fun r r' t t' => Reply.Alike (T.resemblance t t') (AsksContents s q) r r' := by
  -- One case for each question; those about an element ask about its counterpart.
  cases hq with
  | same h =>
    cases q with
    | lookupType name => exact (lookupType_asks name).elements fun _ _ _ _ h => .cons h .nil
    | lookupPackage name => exact (lookupPackage_asks name).elements fun _ _ _ _ h => .cons h .nil
    | topLevelTypes => exact absurd rfl hf.1
    | duplicates => exact absurd rfl hf.2.1
    | elementOf i =>
      exact withType_asks htypes fun a b hab =>
        (resolveType_asks directSupertypes_supplies hab).elements fun _ _ _ _ h => rel_toList h
    | parts i =>
      exact withType_asks htypes fun a b hab => .pure fun _ => .types (ModelType.Alike.parts hab)
    | displayType i => exact withType_asks htypes fun a b hab => .text (displayType_runs hab)
    | _ => cases h
  | @about id id' h hid =>
    have hid : T.Same s s' id id' := hid
    cases q with
    | enclosing id =>
      cases h
      exact (Asks.lift_last (elementAt_runs hid)).elements
        fun _ _ _ _ he => rel_toList (Elements.enclosing he)
    | package id =>
      cases h
      exact .lift (elementAt_runs hid) fun _ _ t t' _ hl _ =>
        (Asks.lift_last (packageOf_runs (hid.later hl))).elements fun _ _ _ _ h => rel_toList h
    | enclosed id =>
      cases h
      exact enclosedOf_replies hk hid
    | body id =>
      cases h
      exact (bodyOf_asks hid).elements fun _ _ _ _ h => rel_toList h
    | superclass id =>
      cases h
      exact (superclassOf_asks hid).types fun _ _ _ _ h => .cons h .nil
    | interfaces id =>
      cases h
      exact (interfacesOf_asks hid).types fun _ _ _ _ h => ModelType.allAlike_iff.2 h
    | ownType id =>
      cases h
      exact (Asks.lift_last (ownType_runs hid)).types fun _ _ _ _ h => .cons h .nil
    | display id =>
      cases h
      exact .text (displayElement_runs hid)
    | _ => cases h

end Twins

/-! ### Clients of twin sessions -/

/-- A question is for what a package encloses. -/
def Session.AsksPackage (s : Session) (q : Question) : Prop :=
  ∃ id e, q = .enclosed id ∧ s.elements.get? id = some e ∧ e.kind = .package

/-- A question and its reply, and their counterparts. The elements that a package encloses may come
    in another order. -/
structure Exchange.Alike (R : Resemblance) (s : Session) (p p' : Question × Reply) : Prop where
  question : Question.Alike R p.1 p'.1
  reply : Reply.Alike R (s.AsksPackage p.1) p.2 p'.2

theorem Session.Sound.asksPackage {s : Session} {q : Question} (hs : s.Sound)
    (h : Twins.AsksContents s q) : s.AsksPackage q := by
  obtain ⟨id, n, rfl, hd⟩ := h
  obtain ⟨e, he, hdesc, -⟩ := hs.element _ _ hd
  refine ⟨id, e, rfl, he, ?_⟩
  have hkind : e.kind = e.bare.kind := rfl
  rw [hkind]
  generalize hkey : ElementKey.package n = key, e.bare = b at hdesc
  cases hdesc with
  | package => rfl
  | tree =>
    rw [DeclInfo.key] at hkey
    split at hkey <;> cases hkey
  | field | constant | described => cases hkey

namespace Twins

variable {w w' : World} {T : Twins w w'}

/-- **Clients that have learnt the same**, and received the same. -/
structure Clients (T : Twins w w') (c c' : Client) : Prop where
  alike : T.Alike c.session c'.session
  types : List.Forall₂ (fun a b => T.typed a b c.session c'.session) c.types c'.types

variable {c c' : Client} {q q' : Question} {known : List ElementId}

/-- **One question.** Both clients have learnt the same afterwards, and are told the same. -/
theorem Clients.ask (h : T.Clients c c') (hk : T.KeepsAll) (hc : c.Fits w)
    (hq : Question.Alike (T.resemblance c.session c'.session) q q') (hf : q.Follows known) :
    T.Clients (c.ask q).2 (c'.ask q').2 ∧
      Later c.session c'.session (c.ask q).2.session (c'.ask q').2.session ∧
      Reply.Alike (T.resemblance (c.ask q).2.session (c'.ask q').2.session)
        (AsksContents c.session q) (c.ask q).1 (c'.ask q').1 := by
  obtain ⟨r, r', t, t', hr, hr', ht, hl, hend⟩ := query_asks hk h.types hq hf h.alike
  have hask : c.ask q = (Client.replyOf r, ⟨t, c.types ++ (Client.replyOf r).received⟩) := by
    rw [Client.ask, hr]
  have hask' : c'.ask q' =
      (Client.replyOf r', ⟨t', c'.types ++ (Client.replyOf r').received⟩) := by
    rw [Client.ask, hr']
  -- The element that is asked about is one of the session, so the first client is not stopped.
  have hid : ∀ id ∈ q.element?, id < c.session.elements.size := by
    intro id hid
    cases hq with
    | same hnone =>
      rw [hnone] at hid
      cases hid
    | about hsome hsame =>
      cases hsome.symm.trans hid
      obtain ⟨key, -, hd, -⟩ := hsame
      exact h.alike.left.sound.lt_size hd
  have hreply : Reply.Alike (T.resemblance t t') (AsksContents c.session q) (Client.replyOf r)
      (Client.replyOf r') := by
    cases hend with
    | ok hout =>
      cases hout with
      | ok hout => exact hout
      | error e => exact .unanswered e
    | stopped hb =>
      rcases Client.ask_reply hc hid with hanswer | ⟨e, he, -⟩
      · rw [hask] at hanswer
        exact hanswer.elim
      · rw [hask] at he
        cases he
  rw [hask, hask']
  refine ⟨⟨ht, List.rel_append ?_ ?_⟩, hl, hreply⟩
  · exact h.types.imp fun _ _ hab => hab.mono hl.resemblance
  · exact ModelType.allAlike_iff.1 hreply.received

/-- **Any questions.** They have counterparts that are answered alike, if what is known already has
    counterparts. -/
theorem Clients.askAll (h : T.Clients c c') (hk : T.KeepsAll) (hc : c.Fits w)
    {questions : List Question} (hf : c.Follows known questions)
    (hknown : ∀ id ∈ known, ∃ id', T.Same c.session c'.session id id') :
    ∃ questions', T.Clients (c.askAll questions) (c'.askAll questions') ∧
      Later c.session c'.session (c.askAll questions).session (c'.askAll questions').session ∧
      List.Forall₂ (Exchange.Alike (T.resemblance (c.askAll questions).session
          (c'.askAll questions').session) (c.askAll questions).session)
        (c.transcript questions) (c'.transcript questions') := by
  induction questions generalizing c c' known with
  | nil => exact ⟨[], h, .refl _ _, .nil⟩
  | cons q rest ih =>
    obtain ⟨hq, hrest⟩ := hf
    have habout : ∀ id ∈ q.element?, ∃ id', (T.resemblance c.session c'.session).element id id' :=
      fun id hid => hknown id (hq.2.2 id hid)
    obtain ⟨q', hqq⟩ := Question.exists_alike habout
    obtain ⟨hnext, hl, hreply⟩ := h.ask hk hc hqq hq
    -- What was known still has counterparts, and what was received now has some too.
    have hknown' : ∀ id ∈ known ++ (c.ask q).1.mentioned,
        ∃ id', T.Same (c.ask q).2.session (c'.ask q').2.session id id' := by
      intro id hid
      rcases List.mem_append.1 hid with hid | hid
      · exact (hknown id hid).imp fun _ hs => hs.later hl
      · exact hreply.mentioned id hid
    obtain ⟨rest', hclients, hlater, hall⟩ := ih hnext (c.fits_ask hc q).1 hrest hknown'
    refine ⟨q' :: rest', hclients, hl.trans hlater, .cons ?_ hall⟩
    exact
      { question := hqq.mono (hl.trans hlater).resemblance
        reply := hreply.mono hlater.resemblance fun hasks =>
          hclients.alike.left.sound.asksPackage (hasks.later (hl.trans hlater).left) }

end Twins

/-! ### Files in another order -/

open Classical in
/-- Files correspond to the same files in another order. -/
noncomputable def FileTwins.ofPerm {units units' : List CompilationUnit} (h : units.Perm units') :
    FileTwins units units' fun _ => true where
  file i j := ∃ hi : i < units.length, (h.idxBij ⟨i, hi⟩ : Nat) = j
  functional := by
    rintro i j k ⟨_, rfl⟩ ⟨_, rfl⟩
    rfl
  injective := by
    rintro i j k ⟨hi, rfl⟩ ⟨hj, heq⟩
    exact congrArg Fin.val (h.idxBij_injective (Fin.ext heq)).symm
  total hi := ⟨_, hi, rfl⟩
  onto {j} hj := by
    obtain ⟨i, hi⟩ := h.idxBij_surjective ⟨j, hj⟩
    exact ⟨i, i.isLt, congrArg Fin.val hi⟩
  same := by
    rintro i j ⟨hi, rfl⟩
    refine ⟨units[i], List.getElem?_eq_getElem hi, ?_⟩
    have hget := h.getElem_idxBij_eq_getElem ⟨i, hi⟩
    rw [CompilationUnit.restrict_true, List.getElem?_eq_getElem (h.idxBij ⟨i, hi⟩).isLt, hget]

/-- Elements of two sessions that tell the same. -/
structure Element.Alike (R : Resemblance) (e e' : Element) : Prop where
  kind : e.kind = e'.kind
  origin : e.origin = e'.origin
  simpleName : R.name e.simpleName e'.simpleName
  qualifiedName : Option.Rel R.name e.qualifiedName.name? e'.qualifiedName.name?
  enclosing : Option.Rel R.element e.enclosing e'.enclosing
  modifiers : e.modifiers = e'.modifiers
  typeParams : List.Forall₂ R.name e.typeParams e'.typeParams
  span : e.span = e'.span

/-- **What it means that two sessions differ in numbers only**: elements correspond one to one, and
    tell the same; names have the same texts; references write the same where the same elements are
    around them. -/
structure Resemblance.Renumbers (R : Resemblance) (s s' : Session) : Prop where
  one_to_one : ∀ {a a' b b'}, R.element a a' → R.element b b' → (a = b ↔ a' = b')
  element : ∀ {id id'}, R.element id id' →
    ∃ e e', s.elements.get? id = some e ∧ s'.elements.get? id' = some e' ∧ Element.Alike R e e'
  name : ∀ {n n'}, R.name n n' → s.names.Agree s'.names n n'
  reference : ∀ {c r c' r'}, R.reference c r c' r' → c = c' ∧
    r.path.map s.names.text = r'.path.map s'.names.text ∧ r.span = r'.span ∧
    r.scope.header = r'.scope.header ∧
    List.Forall₂ (fun l l' => R.element l.2 l'.2) r.scope.chain r'.scope.chain
  origin : ∀ {o o'}, R.origin o o' → o = s.token ∧ o' = s'.token

namespace Twins

variable {w w' : World} {T : Twins w w'} {s s' : Session}

theorem Elements.alike {id id' : ElementId} {e e' : Element} (h : T.Elements s s' id id' e e') :
    Element.Alike (T.resemblance s s') e e' where
  kind := h.kind
  origin := by
    have hsource := h.source
    rw [Element.origin, Element.origin]
    generalize e.source = source, e'.source = source' at hsource
    cases hsource <;> rfl
  simpleName := h.simpleName
  qualifiedName := h.qualifiedName.name?
  enclosing := h.enclosing
  modifiers := h.modifiers
  typeParams := h.typeParams
  span := h.span

/-- Sessions that have learnt the same differ in numbers only. -/
theorem Alike.renumbers (h : T.Alike s s') : (T.resemblance s s').Renumbers s s' where
  one_to_one := h.eq_iff
  element hid := by
    obtain ⟨e, e', he, he', hel⟩ := h.elements hid
    exact ⟨e, e', he, he', hel.alike⟩
  name hn := hn
  reference := by
    rintro c r c' r' ⟨rfl, hr⟩
    refine ⟨rfl, ?_, hr.span, hr.scope.header, hr.scope.chain.imp fun _ _ hl => hl.same⟩
    rw [← hr.path]
    refine List.map_congr_left fun n hn => ?_
    exact (h.agree_base (hr.proper n hn).1).text
  origin := by
    rintro o o' ⟨rfl, rfl⟩
    exact ⟨(congrArg SessionBase.token h.left.of.base).symm,
      (congrArg SessionBase.token h.right.of.base).symm⟩

end Twins

namespace Client

/-- **The order of files does not matter**, if no declaration is reported as a duplicate. Whatever a
    client asks that starts from look-ups, a client of the same files in another order can ask the
    same and is told the same, but for numbers and for the order in which packages enclose their
    types. -/
theorem order_irrelevant (files : Batch) (token token' : SessionToken) (provider : Provider)
    (config : ModelConfig) {units' : List CompilationUnit}
    (horder : (parseBatch files).1.Perm units') (questions : List Question)
    (hdup : (start token files provider config).session.index.duplicates = [])
    (hasked : (start token files provider config).Follows [] questions) :
    let names := (parseBatch files).2.1
    let c := start token files provider config
    let c' : Client := ⟨.start token' units' names provider config, []⟩
    ∃ (R : Resemblance) (questions' : List Question),
      R.Renumbers (c.askAll questions).session (c'.askAll questions').session ∧
      List.Forall₂ (Exchange.Alike R (c.askAll questions).session) (c.transcript questions)
        (c'.transcript questions') := by
  intro names c c'
  have hs : ∀ u ∈ (parseBatch files).1, u.Sound names False := fun u hu =>
    (parseBatch_sound files u hu).weaken (.refl _) False.elim
  have hfind : (FileTwins.ofPerm horder).Finds names := by
    refine FileTwins.finds_of_no_duplicates hs ?_
    rw [← FileTwins.index_world token provider config]
    exact hdup
  have hstart : (FileTwins.twins _ hs hfind token token' provider config).Clients c c' :=
    { alike := FileTwins.alike_start token token' provider config hs hfind
      types := .nil }
  obtain ⟨questions', hclients, -, hall⟩ :=
    hstart.askAll (fun _ => rfl) (fits_start token files provider config) hasked
      (List.forall_mem_nil _)
  exact ⟨_, questions', hclients.alike.renumbers, hall⟩

/-- Two files of one package. -/
def twoFiles : Batch :=
  #[⟨"A.java", "package p; class A extends B { }"⟩, ⟨"B.java", "package p; class B { A a; }"⟩]

/-- A client of the files in order. -/
def twoInOrder : Client := start 0 twoFiles onlyObject {}

/-- A client of the files in the other order. -/
def twoReversed : Client :=
  ⟨.start 1 (parseBatch twoFiles).1.reverse (parseBatch twoFiles).2.1 onlyObject {}, []⟩

/-- Questions about what the package encloses, the superclass of one type, and the field of the
    other. -/
def questionsAboutTwo : List Question :=
  [.lookupPackage "p", .enclosed 0, .superclass 1, .elementOf 0, .enclosed 2, .ownType 3]

/-- They can be asked of the reversed files, too. -/
theorem order_irrelevant_superclass :
    (parseBatch twoFiles).1.Perm (parseBatch twoFiles).1.reverse ∧
    twoInOrder.session.index.duplicates = [] ∧
    twoInOrder.Follows [] questionsAboutTwo ∧
    ∃ (R : Resemblance) (questions' : List Question),
      R.Renumbers (twoInOrder.askAll questionsAboutTwo).session
        (twoReversed.askAll questions').session ∧
      List.Forall₂ (Exchange.Alike R (twoInOrder.askAll questionsAboutTwo).session)
        (twoInOrder.transcript questionsAboutTwo)
        (twoReversed.transcript questions') := by
  have horder := (parseBatch twoFiles).1.reverse_perm.symm
  have hdup : twoInOrder.session.index.duplicates = [] := by decide +kernel
  have hasked : twoInOrder.Follows [] questionsAboutTwo := by decide +kernel
  exact ⟨horder, hdup, hasked,
    order_irrelevant twoFiles 0 1 onlyObject {} horder questionsAboutTwo hdup hasked⟩

end Client

end JavaAbi
