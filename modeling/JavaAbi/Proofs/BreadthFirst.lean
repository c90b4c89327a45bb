namespace JavaAbi.BreadthFirst

/-!
# Breadth-first search

A search takes types from the front of a queue. One that it took before it drops; of another that is
not good it puts the neighbours at the end. Beside it stands the order that the search is named for:
the neighbours of the owner, the neighbours of these, and so on, each level in the order of the one
before it, with all repetitions. The queue of the search is what is left of this order when members
that add nothing are dropped.

* `Scan` — the search;
* `level`, `IsFirst` — the order, and the first good one in it besides the owner;
* `Thins` — a queue without some of the members that were seen, or that stand in it before;
* `Sweep` — how far the levels are gone through;
* `Scan.isFirst`, `Scan.nothing` — the search finds the first good one, or there is none.
-/

variable {α : Type} (next : α → List α) (good : α → Prop)

/-- A search with the members taken so far and a queue, and the good one that it finds. -/
inductive Scan : List α → List α → Option α → Prop
  | exhausted {seen : List α} : Scan seen [] none
  | again {seen rest : List α} {c : α} {found : Option α} (old : c ∈ seen)
      (rest_scan : Scan seen rest found) : Scan seen (c :: rest) found
  | found {seen rest : List α} {c : α} (new : c ∉ seen) (is_good : good c) :
      Scan seen (c :: rest) (some c)
  | onwards {seen rest : List α} {c : α} {found : Option α} (new : c ∉ seen) (not_good : ¬good c)
      (rest_scan : Scan (c :: seen) (rest ++ next c) found) : Scan seen (c :: rest) found

/-- What is reached from an owner in a number of steps, in order and with repetitions. -/
def level (owner : α) : Nat → List α
  | 0 => [owner]
  | n + 1 => (level owner n).flatMap next

/-- The first good one besides the owner: no other stands before it in its level, or in a nearer
    one. -/
def IsFirst (owner x : α) : Prop :=
  x ≠ owner ∧ good x ∧ ∃ n before after, level next owner (n + 1) = before ++ x :: after ∧
    (∀ y ∈ before, y = owner ∨ ¬good y) ∧ ∀ k < n, ∀ y ∈ level next owner (k + 1), y = owner ∨ ¬good y

/-- Members at the front that were taken before may be dropped at once. -/
theorem Scan.of_dropWhile [BEq α] [LawfulBEq α] {next : α → List α} {good : α → Prop}
    {seen queue : List α} {found : Option α}
    (h : Scan next good seen (queue.dropWhile seen.contains) found) :
    Scan next good seen queue found := by
  induction queue with
  | nil => exact h
  | cons c rest ih =>
    rw [List.dropWhile_cons] at h
    split at h
    · rename_i hc
      exact .again (List.contains_iff_mem.1 hc) (ih h)
    · exact h

/-! ### Queues without repetitions -/

/-- A queue is left of another one when members are dropped that were seen, or that stand before in
    it. -/
inductive Thins : List α → List α → List α → Prop
  | nil {seen : List α} : Thins seen [] []
  | keep {seen whole queue : List α} (c : α) (h : Thins (c :: seen) whole queue) :
      Thins seen (c :: whole) (c :: queue)
  | drop {seen whole queue : List α} {c : α} (old : c ∈ seen) (h : Thins seen whole queue) :
      Thins seen (c :: whole) queue

namespace Thins

variable {seen seen' whole queue : List α} {c : α}

theorem mono (h : Thins seen whole queue) (hsub : seen ⊆ seen') : Thins seen' whole queue := by
  induction h generalizing seen' with
  | nil => exact .nil
  | keep c _ ih => exact .keep c (ih (List.cons_subset_cons c hsub))
  | drop old _ ih => exact .drop (hsub old) (ih hsub)

theorem refl (queue : List α) : Thins seen queue queue := by
  induction queue generalizing seen with
  | nil => exact .nil
  | cons c rest ih => exact .keep c ih

/-- What stands first in the queue may be dropped too, if it was seen. -/
theorem skip (h : Thins seen whole (c :: queue)) (hc : c ∈ seen) : Thins seen whole queue := by
  generalize hq : c :: queue = q at h
  induction h with
  | nil => cases hq
  | keep d h =>
    cases hq
    exact .drop hc (h.mono (List.cons_subset.2 ⟨hc, fun _ hx => hx⟩))
  | drop old _ ih => exact .drop old (ih hc hq)

/-- At the end, members may be dropped that were seen or stand in the queue. -/
theorem append_drop {more : List α} (h : Thins seen whole queue)
    (hmore : ∀ y ∈ more, y ∈ seen ∨ y ∈ queue) : Thins seen (whole ++ more) queue := by
  induction h with
  | nil =>
    induction more with
    | nil => exact .nil
    | cons y more ih =>
      obtain ⟨hy, hmore⟩ := List.forall_mem_cons.1 hmore
      exact .drop (hy.resolve_right List.not_mem_nil) (ih hmore)
  | keep c _ ih =>
    refine .keep c (ih fun y hy => ?_)
    rcases hmore y hy with hy | hy
    · exact .inl (List.mem_cons_of_mem c hy)
    · exact (List.mem_cons.1 hy).imp_left fun heq : y = c => heq ▸ List.mem_cons_self
  | drop old _ ih => exact .drop old (ih hmore)

theorem append_keep (h : Thins seen whole queue) (more : List α) :
    Thins seen (whole ++ more) (queue ++ more) := by
  induction h with
  | nil => exact refl more
  | keep c _ ih => exact .keep c ih
  | drop old _ ih => exact .drop old ih

/-- Before the first one of the queue only members are dropped that were seen. -/
theorem exists_front (h : Thins seen whole (c :: queue)) :
    ∃ dropped rest, whole = dropped ++ c :: rest ∧ (∀ d ∈ dropped, d ∈ seen) ∧
      Thins (c :: seen) rest queue := by
  generalize hq : c :: queue = q at h
  induction h with
  | nil => cases hq
  | keep d h =>
    cases hq
    exact ⟨[], _, rfl, List.forall_mem_nil _, h⟩
  | drop old _ ih =>
    obtain ⟨dropped, rest, rfl, hdropped, hrest⟩ := ih hq
    exact ⟨_ :: dropped, rest, rfl, List.forall_mem_cons.2 ⟨old, hdropped⟩, hrest⟩

end Thins

/-! ### Going through the levels -/

variable {next good} {owner : α} {P : α → Prop} {n : Nat} {pre post : List α}

/-- Of a level, the first part is gone through, as are the levels before it, and all that was met
    there has a property. -/
structure Sweep (next : α → List α) (owner : α) (P : α → Prop) (n : Nat) (pre post : List α) :
    Prop where
  here : level next owner (n + 1) = pre ++ post
  gone : ∀ y ∈ pre, P y
  below : ∀ k < n, ∀ y ∈ level next owner (k + 1), P y

theorem Sweep.step {c : α} (h : Sweep next owner P n pre (c :: post)) (hc : P c) :
    Sweep next owner P n (pre ++ [c]) post where
  here := by rw [h.here, List.append_assoc, List.singleton_append]
  gone := List.forall_mem_append.2 ⟨h.gone, List.forall_mem_singleton.2 hc⟩
  below := h.below

/-- After the last one of a level comes the first one of the next level. -/
theorem Sweep.cross {c : α} {rest : List α} (h : Sweep next owner P n pre post)
    (hqueue : post ++ pre.flatMap next = c :: rest) :
    ∃ n pre post, Sweep next owner P n pre (c :: post) ∧ post ++ pre.flatMap next = rest := by
  cases post with
  | cons p post =>
    obtain ⟨rfl, hrest⟩ := List.cons.inj hqueue
    exact ⟨n, pre, post, h, hrest⟩
  | nil =>
    have hhere : level next owner (n + 1) = pre := by rw [h.here, List.append_nil]
    refine ⟨n + 1, [], rest, ⟨?_, List.forall_mem_nil _, fun k hk => ?_⟩, List.append_nil _⟩
    · rw [level, hhere]
      exact hqueue
    · rcases Nat.lt_succ_iff_lt_or_eq.1 hk with hk | rfl
      · exact h.below k hk
      · rw [hhere]
        exact h.gone

/-- Members with the property are passed; what they lead to comes at the end. -/
theorem Sweep.pass {passed rest : List α} {c : α} (h : Sweep next owner P n pre post)
    (hqueue : post ++ pre.flatMap next = passed ++ c :: rest) (hpassed : ∀ d ∈ passed, P d) :
    ∃ n pre post, Sweep next owner P n pre (c :: post) ∧
      post ++ pre.flatMap next = rest ++ passed.flatMap next := by
  induction passed generalizing n pre post rest with
  | nil =>
    obtain ⟨n', pre', post', h', hqueue'⟩ := h.cross hqueue
    exact ⟨n', pre', post', h', by rw [hqueue', List.flatMap_nil, List.append_nil]⟩
  | cons d passed ih =>
    obtain ⟨hd, hpassed⟩ := List.forall_mem_cons.1 hpassed
    have hqueue' : post ++ pre.flatMap next = d :: (passed ++ c :: rest) := hqueue
    obtain ⟨n', pre', post', h', hqueue'⟩ := h.cross hqueue'
    have hstep : Sweep next owner P n' (pre' ++ [d]) post' := h'.step hd
    have hnext : post' ++ (pre' ++ [d]).flatMap next = passed ++ c :: (rest ++ next d) := by
      rw [List.flatMap_append, ← List.append_assoc, hqueue', List.flatMap_singleton,
        List.append_assoc]
      rfl
    obtain ⟨n'', pre'', post'', h'', hqueue''⟩ := ih hstep hnext hpassed
    exact ⟨n'', pre'', post'', h'', by rw [hqueue'', List.flatMap_cons, List.append_assoc]⟩

/-! ### What the search finds -/

variable {seen queue : List α} {found : Option α}

/-- What the members taken so far lead to was taken too, or is in the queue. -/
def Closed (next : α → List α) (seen queue : List α) : Prop :=
  ∀ c ∈ seen, ∀ y ∈ next c, y ∈ seen ∨ y ∈ queue

theorem Closed.again {c : α} (h : Closed next seen (c :: queue)) (hc : c ∈ seen) :
    Closed next seen queue := fun d hd y hy => by
  rcases h d hd y hy with hy | hy
  · exact .inl hy
  · exact (List.mem_cons.1 hy).imp_left fun heq : y = c => heq ▸ hc

theorem Closed.onwards {c : α} (h : Closed next seen (c :: queue)) :
    Closed next (c :: seen) (queue ++ next c) := fun d hd y hy => by
  rcases List.mem_cons.1 hd with rfl | hd
  · exact .inr (List.mem_append_right _ hy)
  · rcases h d hd y hy with hy | hy
    · exact .inl (List.mem_cons_of_mem c hy)
    · rcases List.mem_cons.1 hy with rfl | hy
      · exact .inl List.mem_cons_self
      · exact .inr (List.mem_append_left _ hy)

/-- **What a search finds comes first.** -/
theorem Scan.isFirst_of_sweep {x : α} (h : Scan next good seen queue (some x))
    (howner : owner ∈ seen) (hclosed : Closed next seen queue)
    (hseen : ∀ c ∈ seen, c = owner ∨ ¬good c)
    (hsweep : Sweep next owner (fun y => y = owner ∨ ¬good y) n pre post)
    (hthin : Thins seen (post ++ pre.flatMap next) queue) : IsFirst next good owner x := by
  generalize hfound : some x = found at h
  induction h generalizing n pre post with
  | exhausted => cases hfound
  | again old _ ih =>
    exact ih howner (hclosed.again old) hseen hsweep (hthin.skip old) hfound
  | found new is_good =>
    cases hfound
    obtain ⟨dropped, rest, hqueue, hdropped, -⟩ := hthin.exists_front
    obtain ⟨n', pre', post', hsweep', -⟩ :=
      hsweep.pass hqueue fun d hd => hseen d (hdropped d hd)
    refine ⟨fun heq => new (heq ▸ howner), is_good, n', pre', post', hsweep'.here, hsweep'.gone,
      hsweep'.below⟩
  | @onwards seen rest c found new not_good _ ih =>
    obtain ⟨dropped, whole, hqueue, hdropped, hrest⟩ := hthin.exists_front
    obtain ⟨n', pre', post', hsweep', hqueue'⟩ :=
      hsweep.pass hqueue fun d hd => hseen d (hdropped d hd)
    have hstep := hsweep'.step (.inr not_good)
    have hwhole : post' ++ (pre' ++ [c]).flatMap next =
        whole ++ dropped.flatMap next ++ next c := by
      rw [List.flatMap_append, ← List.append_assoc, hqueue', List.flatMap_singleton]
    -- what the dropped members lead to was seen before, or is in the queue already
    have hadded : Thins (c :: seen) (whole ++ dropped.flatMap next) rest := by
      refine hrest.append_drop fun y hy => ?_
      obtain ⟨d, hd, hy⟩ := List.mem_flatMap.1 hy
      rcases hclosed d (hdropped d hd) y hy with hy | hy
      · exact .inl (List.mem_cons_of_mem c hy)
      · exact (List.mem_cons.1 hy).imp_left fun heq : y = c => heq ▸ List.mem_cons_self
    refine ih (List.mem_cons_of_mem c howner) hclosed.onwards
      (List.forall_mem_cons.2 ⟨.inr not_good, hseen⟩) hstep ?_ hfound
    rw [hwhole]
    exact hadded.append_keep (next c)

/-- A search that finds nothing ends with all that there is, and none of it is good. -/
theorem Scan.exists_closed (h : Scan next good seen queue none) (hclosed : Closed next seen queue)
    (hseen : ∀ c ∈ seen, c = owner ∨ ¬good c) :
    ∃ all, seen ⊆ all ∧ Closed next all [] ∧ ∀ c ∈ all, c = owner ∨ ¬good c := by
  generalize hfound : none = found at h
  induction h with
  | exhausted => exact ⟨_, fun _ hc => hc, hclosed, hseen⟩
  | again old _ ih => exact ih (hclosed.again old) hseen hfound
  | found => cases hfound
  | @onwards seen rest c found new not_good _ ih =>
    obtain ⟨all, hsub, hall⟩ := ih hclosed.onwards (List.forall_mem_cons.2 ⟨.inr not_good, hseen⟩) hfound
    exact ⟨all, fun y hy => hsub (List.mem_cons_of_mem c hy), hall⟩

theorem level_subset_of_closed {all : List α} (howner : owner ∈ all) (hall : Closed next all [])
    (n : Nat) : level next owner n ⊆ all := by
  induction n with
  | zero => exact List.cons_subset.2 ⟨howner, List.nil_subset _⟩
  | succ n ih =>
    intro y hy
    obtain ⟨d, hd, hy⟩ := List.mem_flatMap.1 hy
    exact (hall d (ih hd) y hy).resolve_right List.not_mem_nil

theorem closed_singleton (next : α → List α) (owner : α) : Closed next [owner] (next owner) :=
  List.forall_mem_singleton.2 fun _ hy => .inr hy

/-- **A search from the neighbours of an owner finds the first good one besides the owner.** -/
theorem Scan.isFirst {x : α} (h : Scan next good [owner] (next owner) (some x)) :
    IsFirst next good owner x := by
  have hsweep : Sweep next owner (fun y => y = owner ∨ ¬good y) 0 [] (next owner) :=
    ⟨List.flatMap_singleton .., List.forall_mem_nil _, fun k hk => absurd hk (Nat.not_lt_zero k)⟩
  refine h.isFirst_of_sweep (List.mem_singleton_self owner) (closed_singleton next owner)
    (List.forall_mem_singleton.2 (.inl rfl)) hsweep ?_
  rw [List.flatMap_nil, List.append_nil]
  exact .refl (next owner)

/-- **A search that finds nothing leaves out nothing.** -/
theorem Scan.nothing (h : Scan next good [owner] (next owner) none) (n : Nat) :
    ∀ y ∈ level next owner n, y = owner ∨ ¬good y := by
  obtain ⟨all, hsub, hclosed, hall⟩ :=
    h.exists_closed (closed_singleton next owner) (List.forall_mem_singleton.2 (.inl rfl))
  intro y hy
  exact hall y (level_subset_of_closed (hsub (List.mem_singleton_self owner)) hclosed n hy)

end JavaAbi.BreadthFirst
