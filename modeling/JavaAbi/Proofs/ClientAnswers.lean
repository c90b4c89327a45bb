import JavaAbi.Proofs.ExtractedReports
import JavaAbi.Proofs.Identity

namespace JavaAbi

/-!
# Replies to clients

The reply to a question is the outcome of the query that it starts. So what the rules say of elements
and types is what clients are told, by way of the lists that the session holds afterwards.

* `Client.ask_answers` — the reply of a query;
* `Client.ask_superclass`, `Client.ask_interfaces`, `Client.ask_ownType`, `Client.ask_elementOf` — the
  replies to questions about elements and types.
-/

open Course Stage

variable {w : World} {s : Session} {c : Client} {q : Question} {id : ElementId} {symbol : Symbol}
  {α β : Type}

/-- The symbol of an element that is made from a tree. -/
theorem Session.Declares.shows {d : DeclId} (h : s.Declares id d)
    (hs : s.Resolved w) : s.Shows (w.symbolOf d) id ∧ w.declOf? (w.symbolOf d) = some d := by
  obtain ⟨hprimary, hdenotes⟩ := h.denotes hs
  rw [← hs.of.index] at hprimary hdenotes
  exact ⟨(hs.level hprimary hdenotes).2.shows, hs.of.declOf?_symbolOf hs.world hprimary⟩

/-! ### Replies -/

/-- The error in a reply. -/
def Reply.error? : Reply → Option ModelError
  | unanswered e => some e
  | _ => none

theorem Reply.eq_unanswered {r : Reply} {e : ModelError} (h : r.error? = some e) :
    r = .unanswered e := by
  cases r with
  | unanswered e' => exact congrArg unanswered (Option.some.inj h)
  | _ => cases h

namespace Client

/-- **The reply to a question is the outcome of its query.** -/
theorem ask_answers {m : Query α} {f : α → Reply} {R : Except ModelError α → Session → Prop}
    (h : c.Fits w) (hq : q.query c.types = do return f (← m))
    (hm : (asking w).Answers c.session m R) :
    ∃ r, (c.ask q).1 = replyOf (.ok (r.map f)) ∧ R r (c.ask q).2.session := by
  obtain ⟨_, t, hrun, -, -, r, rfl, hr⟩ := hm h.idle
  have hquery : (q.query c.types).run.run.run c.session = (.ok (r.map f), t) := by
    rw [hq, Query.run_bind hrun]
    cases r <;> rfl
  unfold ask
  rw [hquery]
  exact ⟨r, rfl, hr⟩

/-- **The reply of a query that honours a rule**: an answer or an error that the rule comes to. -/
theorem ask_honours {m : Query α} {f : α → Reply} {rule : Rule β} {excused : ModelError → Prop}
    {rel : α → β → Session → Prop} (h : c.Fits w) (hq : q.query c.types = do return f (← m))
    (hm : w.Honours c.session m rule excused rel) :
    (∃ a b, (c.ask q).1 = f a ∧ rel a b (c.ask q).2.session ∧
        (c.ask q).2.session.Concludes w rule.run (.ok b)) ∨
      ∃ e, (c.ask q).1 = .unanswered e ∧ (c.ask q).2.session.Concludes w rule.run (.error e) := by
  obtain ⟨r, hr, y, hy, hset⟩ := ask_answers h hq hm
  match r, y, hy with
  | .ok a, .ok b, hrel => exact .inl ⟨a, b, hr, hrel, hset⟩
  | .error e, .error _, ⟨rfl, _⟩ => exact .inr ⟨e, hr, hset⟩

/-- What a client is told of a superclass. -/
theorem ask_superclass (h : c.Fits w) (hid : c.session.Shows symbol id) :
    (∃ type v, (c.ask (.superclass id)).1 = .types [type] ∧
        viewed w type v (c.ask (.superclass id)).2.session ∧
        (c.ask (.superclass id)).2.session.Concludes w (w.superclassOf symbol).run (.ok v)) ∨
      ∃ e, (c.ask (.superclass id)).1 = .unanswered e ∧
        (c.ask (.superclass id)).2.session.Concludes w (w.superclassOf symbol).run (.error e) :=
  ask_honours (q := .superclass id) (f := fun type => .types [type]) h rfl
    (superclassOf_honours hid)

/-- What it is told of interfaces. -/
theorem ask_interfaces (h : c.Fits w) (hid : c.session.Shows symbol id) :
    (∃ types vs, (c.ask (.interfaces id)).1 = .types types ∧
        viewedAll w types vs (c.ask (.interfaces id)).2.session ∧
        (c.ask (.interfaces id)).2.session.Concludes w (w.interfacesOf symbol).run (.ok vs)) ∨
      ∃ e, (c.ask (.interfaces id)).1 = .unanswered e ∧
        (c.ask (.interfaces id)).2.session.Concludes w (w.interfacesOf symbol).run (.error e) :=
  ask_honours (q := .interfaces id) (f := .types) h rfl (interfacesOf_honours hid)

/-- An own type is always told. -/
theorem ask_ownType (h : c.Fits w) (hid : c.session.Shows symbol id) :
    ∃ type, (c.ask (.ownType id)).1 = .types [type] ∧
      (c.ask (.ownType id)).2.session.OwnTypeAs w symbol type := by
  obtain ⟨_, hr, type, rfl, htype⟩ := ask_answers (q := .ownType id)
    (f := fun type => .types [type]) h rfl (Answers.lift_last (ownType_ends hid))
  exact ⟨type, hr, htype⟩

/-- What it is told of the element of a type that it received. -/
theorem ask_elementOf (h : c.Fits w) {i : Nat} {type : ModelType} (hi : c.types[i]? = some type) :
    (∃ found o, (c.ask (.elementOf i)).1 = .elements found.toList ∧
        optional shown found o (c.ask (.elementOf i)).2.session ∧
        (c.ask (.elementOf i)).2.session.Concludes w
          (w.resolveType (c.session.view type)).run (.ok o)) ∨
      ∃ e, (c.ask (.elementOf i)).1 = .unanswered e ∧
        (c.ask (.elementOf i)).2.session.Concludes w
          (w.resolveType (c.session.view type)).run (.error e) := by
  refine ask_honours (q := .elementOf i) (f := fun found => .elements found.toList) h ?_
    (elementOfType_honours (h.types type (List.mem_of_getElem? hi)))
  rw [Question.query, withType, hi]

/-- Wherever a client received the type, its element is `id`. -/
def Names (c : Client) (type : ModelType) (id : ElementId) : Prop :=
  ∀ (more : List Question) (i : Nat), (c.askAll more).types[i]? = some type →
    ((c.askAll more).ask (.elementOf i)).1 = .elements [id]

/-- The element of a type is the one that the rules gave it before. -/
theorem names_of_finds {type : ModelType} (h : c.Fits w) (hid : c.session.Shows symbol id)
    (hholds : c.session.Holds w type)
    (hfound : (w.resolveType (c.session.view type)).run.Finds c.session.HoldsList
      (.ok (some symbol))) : c.Names type id := by
  intro more i hi
  obtain ⟨hfits, hg⟩ := fits_askAll h more
  obtain ⟨-, hg'⟩ := fits_ask hfits (.elementOf i)
  have hs := h.idle.resolved
  have hlater := (hfound.mono hg.lists).mono hg'.lists
  rw [← Session.view_grow hs hfits.idle.resolved hg.toKeeps hholds] at hlater
  have ht := ((fits_ask hfits (.elementOf i)).1).idle.resolved
  have hunique := fun symbol l l' (hl : Session.HoldsList _ symbol l)
    (hl' : Session.HoldsList _ symbol l') => hl.unique ht.sound hl'
  rcases ask_elementOf hfits hi with ⟨found, o, hreply, hshown, hrule⟩ | ⟨e, -, hrule⟩
  · cases hrule.held.unique hunique hlater
    cases found with
    | none => exact hshown.elim
    | some other =>
      have hid' := (hid.grow hs.sound hg.toKeeps).grow hfits.idle.resolved.sound hg'.toKeeps
      rw [hreply, Session.Shows.functional ht.sound (Session.ShowsType.shows hshown) hid']
      rfl
  · cases hrule.held.unique hunique hlater

end Client

end JavaAbi
