import JavaAbi.Proofs.Honesty

namespace JavaAbi

/-!
# Types in a foreign session

A client may take a type that it received to another session. Class and interface types are held to
be of their session, and no other session says which element they name: they stand there as
`<error>`. The name of a type variable is a number of the own session, and a foreign session reads it
in its own table of names.

* `ModelType.ForeignTo` — a type that a session did not make, with all that it is made of;
* `ModelType.textAbroad`, `ModelType.shown` — the text of such a type, and the names that it is
  read from;
* `Session.Spells` — work that reads names and changes nothing;
* `displayType_abroad`, `elementOfType_abroad` — what a foreign session makes of a type;
* `Journey` — a client that takes its types to another session between its questions;
* `Client.types_abroad` — what a foreign session makes of the types of a client.
-/

open Course

namespace ModelType

/-! ### Foreign types -/

mutual

/-- A session did not make a type, nor the types that it is made of. -/
def ForeignTo (token : SessionToken) : ModelType → Prop
  | declared origin _ args enclosing =>
    origin ≠ token ∧ AllForeignTo token args ∧ ForeignTo token enclosing
  | array component => ForeignTo token component
  | wildcard upper lower => BoundForeignTo token upper ∧ BoundForeignTo token lower
  | _ => True

/-- A session did not make any of some types. -/
def AllForeignTo (token : SessionToken) : List ModelType → Prop
  | [] => True
  | type :: rest => ForeignTo token type ∧ AllForeignTo token rest

/-- A session did not make the bound, if there is one. -/
def BoundForeignTo (token : SessionToken) : Option ModelType → Prop
  | none => True
  | some type => ForeignTo token type

end

mutual

/-- The names of the type variables that the text of a type shows, in order. -/
def shown : ModelType → List Name
  | declared _ _ args _ => shownByAll args
  | array component => shown component
  | typeVariable name _ => [name]
  | wildcard upper lower => shownByBound upper ++ shownByBound lower
  | _ => []

/-- The names of the type variables that the texts of types show. -/
def shownByAll : List ModelType → List Name
  | [] => []
  | type :: rest => shown type ++ shownByAll rest

/-- The names of the type variables that the text of a bound shows. -/
def shownByBound : Option ModelType → List Name
  | none => []
  | some type => shown type

end

mutual

/-- The text of a type where no class or interface type is known, not even as it is written. -/
def textAbroad (text : Name → String) : ModelType → String
  | primitive p => p.keyword
  | absent => "none"
  | void => "void"
  | package => "package"
  | error => "<error>"
  | typeVariable name _ => text name
  | array component => textAbroad text component ++ "[]"
  | wildcard upper lower =>
    "?" ++ boundAbroad text " extends " upper ++ boundAbroad text " super " lower
  | declared _ _ args _ =>
    let args := textsAbroad text args
    if args.isEmpty then "<error>" else "<error>" ++ "<" ++ ", ".intercalate args ++ ">"

/-- The texts of types where no class or interface type is known. -/
def textsAbroad (text : Name → String) : List ModelType → List String
  | [] => []
  | type :: rest => textAbroad text type :: textsAbroad text rest

/-- The text of a bound after its word where no class or interface type is known. -/
def boundAbroad (text : Name → String) (word : String) : Option ModelType → String
  | none => ""
  | some type => word ++ textAbroad text type

end

/-! ### What the text depends on -/

section Agreement

variable {text text' : Name → String}

mutual

/-- The text of a type abroad has no name but those of its type variables. -/
theorem textAbroad_congr {type : ModelType} (h : ∀ n ∈ type.shown, text n = text' n) :
    type.textAbroad text = type.textAbroad text' := by
  match type with
  | primitive _ | absent | void | package | error => rfl
  | typeVariable name _ => exact h name (List.mem_singleton_self name)
  | array component =>
    have hcomponent : component.textAbroad text = component.textAbroad text' := textAbroad_congr h
    rw [textAbroad, textAbroad, hcomponent]
  | wildcard upper lower =>
    rw [shown] at h
    rw [textAbroad, textAbroad, boundAbroad_congr fun n hn => h n (List.mem_append_left _ hn),
      boundAbroad_congr fun n hn => h n (List.mem_append_right _ hn)]
  | declared _ _ args _ =>
    have hargs : textsAbroad text args = textsAbroad text' args := textsAbroad_congr h
    rw [textAbroad, textAbroad, hargs]

theorem textsAbroad_congr {types : List ModelType}
    (h : ∀ n ∈ shownByAll types, text n = text' n) :
    textsAbroad text types = textsAbroad text' types := by
  match types with
  | [] => rfl
  | type :: rest =>
    rw [shownByAll] at h
    rw [textsAbroad, textsAbroad, textAbroad_congr fun n hn => h n (List.mem_append_left _ hn),
      textsAbroad_congr fun n hn => h n (List.mem_append_right _ hn)]

theorem boundAbroad_congr {word : String} {bound : Option ModelType}
    (h : ∀ n ∈ shownByBound bound, text n = text' n) :
    boundAbroad text word bound = boundAbroad text' word bound := by
  match bound with
  | none => rfl
  | some type =>
    have htype : type.textAbroad text = type.textAbroad text' := textAbroad_congr h
    rw [boundAbroad, boundAbroad, htype]

end

end Agreement

end ModelType

/-! ### Types of another session -/

section Foreign

variable {w : World} {s : Session} {token : SessionToken}

mutual

/-- What a session holds is foreign to every other one, at every depth. -/
theorem Session.Holds.foreign {type : ModelType} (h : s.Holds w type) (hne : token ≠ s.token) :
    type.ForeignTo token := by
  match type with
  | .declared origin target args enclosing =>
    rw [Session.Holds] at h
    obtain ⟨horigin, -, hargs, henclosing⟩ := h
    rw [ModelType.ForeignTo]
    exact ⟨fun heq => hne (heq.symm.trans horigin), hargs.foreign hne, henclosing.foreign hne⟩
  | .array component =>
    rw [Session.Holds] at h
    rw [ModelType.ForeignTo]
    exact h.foreign hne
  | .wildcard upper lower =>
    rw [Session.Holds] at h
    rw [ModelType.ForeignTo]
    exact ⟨h.1.foreign hne, h.2.foreign hne⟩
  | .primitive _ | .absent | .void | .package | .typeVariable .. | .error => trivial

theorem Session.HoldsAll.foreign {types : List ModelType} (h : s.HoldsAll w types)
    (hne : token ≠ s.token) : ModelType.AllForeignTo token types := by
  match types with
  | [] => trivial
  | type :: rest =>
    rw [Session.HoldsAll] at h
    rw [ModelType.AllForeignTo]
    exact ⟨h.1.foreign hne, h.2.foreign hne⟩

theorem Session.HoldsBound.foreign {bound : Option ModelType} (h : s.HoldsBound w bound)
    (hne : token ≠ s.token) : ModelType.BoundForeignTo token bound := by
  match bound with
  | none => trivial
  | some type =>
    rw [Session.HoldsBound] at h
    rw [ModelType.BoundForeignTo]
    exact h.foreign hne

end

end Foreign

/-! ### Reading names -/

/-- The answer of work that reads names of a table: the first one that the table has not issued stops
    it. -/
def NameTable.spelled {α : Type} (t : NameTable) (names : List Name) (a : α) : Except Breach α :=
  match names.find? fun n => (t.resolve? n).isNone with
  | none => .ok a
  | some n => .error (.foreignName n)

/-- Work that reads names and changes nothing. -/
def Session.Spells {α : Type} (s : Session) (m : SessionM α) (names : List Name) (a : α) : Prop :=
  m.run.run s = (s.names.spelled names a, s)

section Spells

variable {α β : Type} {s : Session} {m : SessionM α} {f : α → SessionM β} {names names' : List Name}
  {a : α} {b : β}

theorem Session.Spells.pure (s : Session) (a : α) : s.Spells (pure a) [] a := rfl

theorem Session.Spells.of_reads (h : Reads s m a) : s.Spells m [] a := h

/-- Names are read one after the other. -/
theorem Session.Spells.bind (h : s.Spells m names a) (hf : s.Spells (f a) names' b) :
    s.Spells (m >>= f) (names ++ names') b := by
  unfold Session.Spells NameTable.spelled at h hf ⊢
  rw [List.find?_append]
  cases hfind : names.find? fun n => (s.names.resolve? n).isNone with
  | none =>
    rw [hfind] at h
    exact (SessionM.run_bind h).trans hf
  | some n =>
    rw [hfind] at h
    exact SessionM.run_breach h

theorem Session.Spells.map (h : s.Spells m names a) (g : α → β) :
    s.Spells (do return g (← m)) names (g a) := by
  have hbind := h.bind (f := fun a => Pure.pure (g a)) (.pure s (g a))
  rwa [List.append_nil] at hbind

theorem spells_nameText (s : Session) (n : Name) : s.Spells (nameText n) [n] (s.names.text n) := by
  unfold Session.Spells NameTable.spelled NameTable.text nameText
  rw [SessionM.run_get_bind]
  cases hn : s.names.resolve? n with
  | none => rw [List.find?_cons_of_pos (by rw [hn]; rfl)]; rfl
  | some text => rw [List.find?_cons_of_neg (by rw [hn]; exact Bool.false_ne_true)]; rfl

end Spells

/-! ### What a foreign session makes of a type -/

section Abroad

variable {s : Session} {origin : SessionToken} {target : TypeTarget}

/-- **A foreign session knows no element of a type.** Nothing becomes known of it there. -/
theorem elementOfType_abroad {type : ModelType} (h : type.ForeignTo s.token) :
    Reads s (elementOfType type).run
      (if type.isDeclared then .error .foreignType else .ok none) := by
  match type with
  | .declared origin target args enclosing =>
    rw [ModelType.ForeignTo] at h
    show (if origin = s.token then some <$> resolveTarget directSupertypes target
      else throw .foreignType : Query _).run.run.run s = _
    rw [if_neg h.1]
    rfl
  | .primitive _ | .absent | .void | .package | .array _ | .typeVariable .. | .wildcard .. | .error =>
    rfl

/-- A foreign session does not know how a type is written either. -/
theorem writtenName?_abroad (h : origin ≠ s.token) : Reads s (writtenName? origin target) none := by
  match target with
  | .known id => exact .pure s none
  | .written cell r =>
    show (if origin = s.token then _ else _ : SessionM _).run.run s = _
    rw [if_neg h]
    rfl

mutual

/-- **The text of a type in a foreign session.** -/
theorem displayType_abroad {type : ModelType} (h : type.ForeignTo s.token) :
    s.Spells (displayType type) type.shown (type.textAbroad s.names.text) := by
  match type with
  | .primitive _ | .absent | .void | .package | .error =>
    rw [displayType]
    exact .pure s _
  | .typeVariable name _ =>
    rw [displayType]
    exact spells_nameText s name
  | .array component =>
    rw [ModelType.ForeignTo] at h
    rw [displayType]
    exact (displayType_abroad h).map (· ++ "[]")
  | .wildcard upper lower =>
    rw [ModelType.ForeignTo] at h
    rw [displayType]
    have hlower : s.Spells (displayBound " super " lower) (ModelType.shownByBound lower)
        (ModelType.boundAbroad s.names.text " super " lower) := displayBound_abroad h.2
    exact (displayBound_abroad h.1).bind (hlower.map _)
  | .declared origin target args enclosing =>
    have helement := elementOfType_abroad h
    rw [ModelType.ForeignTo] at h
    rw [ModelType.shown, ModelType.textAbroad]
    unfold displayType
    -- Neither the element nor the written name is known, so only the arguments are read.
    refine (Session.Spells.of_reads helement).bind ?_
    refine (Session.Spells.of_reads (writtenName?_abroad h.1)).bind ?_
    exact (displayTypes_abroad h.2.1).map _

theorem displayBound_abroad {word : String} {bound : Option ModelType}
    (h : ModelType.BoundForeignTo s.token bound) :
    s.Spells (displayBound word bound) (ModelType.shownByBound bound)
      (ModelType.boundAbroad s.names.text word bound) := by
  match bound with
  | none =>
    rw [displayBound]
    exact .pure s ""
  | some type =>
    rw [ModelType.BoundForeignTo] at h
    rw [displayBound]
    exact (displayType_abroad h).map (word ++ ·)

theorem displayTypes_abroad {types : List ModelType} (h : ModelType.AllForeignTo s.token types) :
    s.Spells (displayTypes types) (ModelType.shownByAll types)
      (ModelType.textsAbroad s.names.text types) := by
  match types with
  | [] =>
    rw [displayTypes]
    exact .pure s []
  | type :: rest =>
    rw [ModelType.AllForeignTo] at h
    rw [displayTypes]
    exact (displayType_abroad h.1).bind ((displayTypes_abroad h.2).map _)

end

end Abroad

/-! ### Journeys -/

/-- A client, and a session that is not its own. -/
structure Journey where
  home : Client
  abroad : Session

/-- What may be done: a question to the own session, or one of the two questions about a type that a
    foreign session takes. -/
inductive Journey.Step where
  | ask (q : Question)
  | elementAbroad (type : Nat)
  | displayAbroad (type : Nat)

namespace Journey

/-- The question that a step asks the own session. -/
def Step.question? : Step → Option Question
  | ask q => some q
  | _ => none

/-- A question to the foreign session about the types of the client. -/
def visit (j : Journey) (q : Question) : Journey :=
  { j with abroad := ((q.query j.home.types).run.run.run j.abroad).2 }

/-- One step. -/
def step (j : Journey) : Step → Journey
  | .ask q => { j with home := (j.home.ask q).2 }
  | .elementAbroad type => j.visit (.elementOf type)
  | .displayAbroad type => j.visit (.displayType type)

/-- Steps in order. -/
def go (j : Journey) (steps : List Step) : Journey := steps.foldl step j

variable {w : World} {j : Journey}

/-- A question about a type leaves a session as it is if the work on each type does. -/
theorem withType_unchanged {received : List ModelType} {q : ModelType → Query Reply} {s : Session}
    (h : ∀ type ∈ received, ((q type).run.run.run s).2 = s) (i : Nat) :
    ((withType received i q).run.run.run s).2 = s := by
  unfold withType
  cases hi : received[i]? with
  | none => rfl
  | some type => exact h type (List.mem_of_getElem? hi)

/-- Neither question about foreign types changes the foreign session. -/
theorem visit_elementOf (h : ∀ type ∈ j.home.types, type.ForeignTo j.abroad.token) (i : Nat) :
    j.visit (.elementOf i) = j := by
  refine congrArg (Journey.mk j.home) (withType_unchanged (fun type htype => ?_) i)
  have helement := elementOfType_abroad (h type htype)
  rw [Query.run_bind helement]
  split <;> rfl

theorem visit_displayType (h : ∀ type ∈ j.home.types, type.ForeignTo j.abroad.token) (i : Nat) :
    j.visit (.displayType i) = j := by
  refine congrArg (Journey.mk j.home) (withType_unchanged (fun type htype => ?_) i)
  have hrun := displayType_abroad (h type htype)
  unfold Session.Spells at hrun
  cases htext : j.abroad.names.spelled type.shown (type.textAbroad j.abroad.names.text) with
  | ok text =>
    rw [htext] at hrun
    rw [Query.run_lift_bind hrun]
    rfl
  | error b =>
    rw [htext] at hrun
    rw [Query.run_lift_breach hrun]

/-- **A journey leaves no trace**: the foreign session stays as it is, and the own session is asked
    what it would have been asked at home. -/
theorem go_eq (h : j.home.Fits w) (hne : j.abroad.token ≠ j.home.session.token)
    (steps : List Step) :
    j.go steps = ⟨j.home.askAll (steps.filterMap Step.question?), j.abroad⟩ := by
  induction steps generalizing j with
  | nil => rfl
  | cons step rest ih =>
    have hforeign : ∀ type ∈ j.home.types, type.ForeignTo j.abroad.token :=
      fun type htype => (h.types type htype).foreign hne
    show (j.step step).go rest = _
    cases step with
    | ask q =>
      obtain ⟨hfits, hg⟩ := Client.fits_ask h q
      have htoken : (j.home.ask q).2.session.token = j.home.session.token :=
        congrArg SessionBase.token hg.base
      exact ih (j := j.step (.ask q)) hfits fun heq => hne (heq.trans htoken)
    | elementAbroad i =>
      have hstep : j.step (.elementAbroad i) = j := visit_elementOf hforeign i
      rw [hstep]
      exact ih h hne
    | displayAbroad i =>
      have hstep : j.step (.displayAbroad i) = j := visit_displayType hforeign i
      rw [hstep]
      exact ih h hne

end Journey

/-! ### The types of a client -/

namespace Client

variable (token : SessionToken) (files : Batch) (provider : Provider) (config : ModelConfig)

/-- **A type in a foreign session** names no element; a class or interface type is said to be foreign.
    Its text shows class and interface types as `<error>`, at every depth, and no name but those of
    type variables, which are read in the table of the foreign session: the first of them that the
    table has not issued stops the work. A type that shows no type variable has a text in every
    foreign session, without any name. Neither session changes, so the own session answers what it
    would have answered. -/
theorem types_abroad (questions : List Question) {s : Session} (hs : s.token ≠ token) :
    let c : Client := (start token files provider config).askAll questions
    (∀ type ∈ c.types,
      Reads s (elementOfType type).run
        (if type.isDeclared then .error .foreignType else .ok none) ∧
      s.Spells (displayType type) type.shown (type.textAbroad s.names.text) ∧
      (type.shown = [] → Reads s (displayType type) (type.textAbroad fun _ => ""))) ∧
    ∀ steps : List Journey.Step,
      (⟨c, s⟩ : Journey).go steps = ⟨c.askAll (steps.filterMap Journey.Step.question?), s⟩ := by
  intro c
  obtain ⟨hfits, hg⟩ := fits_askAll (fits_start token files provider config) questions
  have htoken : c.session.token = token := congrArg SessionBase.token hg.base
  have hne : s.token ≠ c.session.token := fun heq => hs (heq.trans htoken)
  refine ⟨fun type htype => ?_, Journey.go_eq hfits hne⟩
  have hforeign : type.ForeignTo s.token := (hfits.types type htype).foreign hne
  have htext := displayType_abroad hforeign
  refine ⟨elementOfType_abroad hforeign, htext, fun hnone => ?_⟩
  have hsame : type.textAbroad s.names.text = type.textAbroad fun _ => "" := by
    refine ModelType.textAbroad_congr fun n hn => ?_
    rw [hnone] at hn
    cases hn
  rw [hnone, hsame] at htext
  exact htext

/-- A field of a generic type, with class types in an array, a wildcard and arguments of arguments. -/
theorem types_abroad_nested :
    let files : Batch :=
      #[⟨"A.java", "package p; class A<T> { A<A<?>[], ? super B> f; } class B {}"⟩]
    let c : Client := (start 0 files onlyObject {}).askAll
      [.lookupType "p.A", .enclosed 1, .ownType 2]
    let s := (start 1 #[] onlyObject {}).session
    s.token ≠ 0 ∧
      (c.types.map fun type => ((displayType type).run.run c.session).1) =
        [.ok "p.A<p.A<?>[], ? super p.B>"] ∧
      (∃ type ∈ c.types, Reads s (elementOfType type).run (.error .foreignType) ∧
        Reads s (displayType type) "<error><<error><?>[], ? super <error>>") ∧
      (⟨c, s⟩ : Journey).go [.displayAbroad 0, .elementAbroad 0, .ask (.displayType 0)] =
        ⟨c.askAll [.displayType 0], s⟩ := by
  intro files c s
  have hs : s.token ≠ 0 := by decide +kernel
  obtain ⟨hall, hgo⟩ := types_abroad 0 files onlyObject {}
    [.lookupType "p.A", .enclosed 1, .ownType 2] hs
  -- The type and the text that the theorem speaks of are evaluated.
  have hshown : c.types[0]?.map (fun type => (type.isDeclared, type.shown,
      type.textAbroad fun _ => "")) =
        some (true, [], "<error><<error><?>[], ? super <error>>") := by decide +kernel
  obtain ⟨type, htype, heq⟩ := Option.map_eq_some_iff.1 hshown
  obtain ⟨hdeclared, hnone, htext⟩ : type.isDeclared = true ∧ type.shown = [] ∧
      (type.textAbroad fun _ => "") = "<error><<error><?>[], ? super <error>>" := by
    simpa only [Prod.mk.injEq] using heq
  obtain ⟨helement, -, hread⟩ := hall type (List.mem_of_getElem? htype)
  rw [hdeclared, if_pos rfl] at helement
  refine ⟨hs, ?_, ⟨type, List.mem_of_getElem? htype, helement, htext ▸ hread hnone⟩, hgo _⟩
  decide +kernel

/-- **A type variable abroad** shows a name of the foreign session, or stops the work. -/
theorem variable_abroad :
    let s := (start 1 #[] onlyObject {}).session
    let few : Client := (start 0 #[⟨"A.java", "package p; class A<T> { T f; }"⟩] onlyObject {}).askAll
      [.lookupType "p.A", .enclosed 1, .ownType 2]
    let many : Client := (start 0
      #[⟨"A.java", "package p; class A<S, U, V, W, X, Y, Z, T> { T f; }"⟩] onlyObject {}).askAll
      [.lookupType "p.A", .enclosed 1, .ownType 2]
    s.token ≠ few.session.token ∧ s.token ≠ many.session.token ∧
      (few.types.map fun type => ((displayType type).run.run s).1) = [.ok "java.lang.Record"] ∧
      (many.types.map fun type => ((displayType type).run.run s).1) =
        [.error (.foreignName ⟨10⟩)] := by
  decide +kernel

end Client

end JavaAbi
