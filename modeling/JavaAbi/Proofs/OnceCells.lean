import JavaAbi.Proofs.CacheRuns

namespace JavaAbi

/-!
# Once-cells with builder marks

How a cache is put together: the slot of a key has a cell that is initialized once, and a mark that
names the thread that is constructing the value. A cell that is initialized while its initialization
is running would wait for itself forever; the mark is looked at first, so that this never happens.

* `OnceSlot`, `OnceCache` — cells and marks; `OnceCache.run` — steps, unless they wait forever;
* `OnceCache.of` — the cells and marks of a cache;
* `OnceCache.runAll_of` — steps never wait forever, and answer as those of the cache do;
* `CacheStep.run_disciplined` — the discipline of all runs from an empty cache.
-/

/-- The number of a thread. -/
abbrev ThreadId := Nat

/-- A once-cell, empty or with its value, and whether its initialization is running; and the thread
    that is constructing the value. -/
structure OnceSlot (ν : Type) where
  value : Option ν := none
  initializing : Bool := false
  builder : Option ThreadId := none

namespace OnceSlot

variable {ν : Type}

/-- An initialization begins: the slot is marked. -/
def mark (thread : ThreadId) (s : OnceSlot ν) : OnceSlot ν :=
  { s with initializing := true, builder := some thread }

/-- The mark goes. -/
def unmark (s : OnceSlot ν) : OnceSlot ν := { s with builder := none }

/-- The initialization ends: with a value, or the cell stays empty. -/
def settle (outcome : Option ν) (s : OnceSlot ν) : OnceSlot ν :=
  { s with value := outcome, initializing := false }

end OnceSlot

/-- Slots by key, with the counters. -/
structure OnceCache (κ ν : Type) where
  slots : List (κ × OnceSlot ν) := []
  hits : Nat := 0
  misses : Nat := 0

namespace OnceCache

variable {κ ν : Type} [DecidableEq κ]

/-- Changes the slot of a key; a new key goes to the end with a new slot. -/
def modifySlot (k : κ) (f : OnceSlot ν → OnceSlot ν) : List (κ × OnceSlot ν) → List (κ × OnceSlot ν)
  | [] => [(k, f {})]
  | e :: rest => if e.1 = k then (k, f e.2) :: rest else e :: modifySlot k f rest

/-- The cache with the slot of a key changed. -/
def modify (c : OnceCache κ ν) (k : κ) (f : OnceSlot ν → OnceSlot ν) : OnceCache κ ν :=
  { c with slots := modifySlot k f c.slots }

/-- The slot of a key; that of a new key is empty. -/
def slot (c : OnceCache κ ν) (k : κ) : OnceSlot ν := (c.slots.lookup k).getD {}

/-- An answer with the counters of a cache. -/
def answer (c : OnceCache κ ν) (result : CacheResult ν) (inner : Option (List (CacheAnswer ν))) :
    CacheAnswer ν :=
  .mk result inner c.slots.length c.hits c.misses

mutual

/-- One step on a thread, unless it waits forever. -/
def run (thread : ThreadId) : CacheStep κ ν → OnceCache κ ν → Option (CacheAnswer ν × OnceCache κ ν)
  | .get k, c => some (c.answer (.read (c.slot k).value) none, c)
  | .create k inner outcome, c =>
    let c := c.modify k id
    match (c.slot k).value with
    | some v =>
      let c := { c with hits := c.hits + 1 }
      some (c.answer (.made v) none, c)
    | none =>
      if (c.slot k).builder = some thread then
        some (c.answer .reentrant none, c)
      -- The initialization of a cell waits for the one that is running, here for itself.
      else if (c.slot k).initializing then
        none
      else
        let c := c.modify k (OnceSlot.mark thread)
        match runAll thread inner { c with misses := c.misses + 1 } with
        | none => none
        | some (answers, c) =>
          -- The mark goes whether the construction returns or gives up.
          let c := (c.modify k OnceSlot.unmark).modify k (OnceSlot.settle outcome)
          some (c.answer (CacheStep.resultOf outcome) (some answers), c)

/-- Steps in order. -/
def runAll (thread : ThreadId) :
    List (CacheStep κ ν) → OnceCache κ ν → Option (List (CacheAnswer ν) × OnceCache κ ν)
  | [], c => some ([], c)
  | s :: rest, c =>
    match run thread s c with
    | none => none
    | some (a, c) =>
      match runAll thread rest c with
      | none => none
      | some (as, c) => some (a :: as, c)

end

/-! ### The cells of a cache -/

/-- The cell and the mark of a slot. -/
def cell (thread : ThreadId) : Slot ν → OnceSlot ν
  | .vacant => {}
  | .building => { initializing := true, builder := some thread }
  | .ready v => { value := some v }

/-- The cells and marks of a cache. -/
def of (thread : ThreadId) (c : Cache κ ν) : OnceCache κ ν where
  slots := c.slots.map fun e => (e.1, cell thread e.2)
  hits := c.hits
  misses := c.misses

variable {thread : ThreadId} {c : Cache κ ν} {k : κ}

theorem slot_of (c : Cache κ ν) (k : κ) :
    (of thread c).slot k = cell thread ((c.slot? k).getD .vacant) := by
  unfold slot of Cache.slot?
  induction c.slots with
  | nil => rfl
  | cons e rest ih =>
    obtain ⟨key, x⟩ := e
    by_cases he : k = key
    · simp [he]
    · have hb : (k == key) = false := by simpa using he
      simpa [List.lookup_cons, hb] using ih

omit [DecidableEq κ] in
theorem answer_of (c : Cache κ ν) (result : CacheResult ν)
    (inner : Option (List (CacheAnswer ν))) :
    (of thread c).answer result inner = CacheStep.answer c result inner := by
  simp [answer, CacheStep.answer, of, Cache.size]

theorem modifySlot_map {x : Slot ν} {f : OnceSlot ν → OnceSlot ν} (slots : List (κ × Slot ν))
    (hf : f (cell thread ((slots.lookup k).getD .vacant)) = cell thread x) :
    modifySlot k f (slots.map fun e => (e.1, cell thread e.2)) =
      (Cache.setSlot k x slots).map fun e => (e.1, cell thread e.2) := by
  induction slots with
  | nil =>
    have hempty : f {} = cell thread x := hf
    simp [modifySlot, Cache.setSlot, hempty]
  | cons e rest ih =>
    obtain ⟨key, y⟩ := e
    by_cases he : key = k
    · subst he
      have hfound : f (cell thread y) = cell thread x := by simpa using hf
      simp [modifySlot, Cache.setSlot, hfound]
    · have hb : (k == key) = false := by simpa using Ne.symm he
      rw [List.lookup_cons, hb] at hf
      simp [modifySlot, Cache.setSlot, he, ih hf]

/-- A change of a slot is a change of its cell and mark. -/
theorem modify_of {x : Slot ν} {f : OnceSlot ν → OnceSlot ν}
    (hf : f (cell thread ((c.slot? k).getD .vacant)) = cell thread x) :
    (of thread c).modify k f = of thread { c with slots := Cache.setSlot k x c.slots } := by
  simp [modify, of, modifySlot_map c.slots hf]

theorem modifySlot_modifySlot (f g : OnceSlot ν → OnceSlot ν) (slots : List (κ × OnceSlot ν)) :
    modifySlot k g (modifySlot k f slots) = modifySlot k (fun s => g (f s)) slots := by
  induction slots with
  | nil => simp [modifySlot]
  | cons e rest ih =>
    by_cases he : e.1 = k
    · simp [modifySlot, he]
    · simp [modifySlot, he, ih]

/-- Two changes of one slot are one. -/
theorem modify_modify (c : OnceCache κ ν) (k : κ) (f g : OnceSlot ν → OnceSlot ν) :
    (c.modify k f).modify k g = c.modify k fun s => g (f s) := by
  simp [modify, modifySlot_modifySlot]

theorem slot_modify (c : OnceCache κ ν) (k : κ) (f : OnceSlot ν → OnceSlot ν) :
    (c.modify k f).slot k = f (c.slot k) := by
  unfold slot modify
  induction c.slots with
  | nil => simp [modifySlot]
  | cons e rest ih =>
    obtain ⟨key, x⟩ := e
    by_cases he : key = k
    · simp [modifySlot, he]
    · have hb : (k == key) = false := by simpa using Ne.symm he
      simpa [modifySlot, he, List.lookup_cons, hb] using ih

theorem setSlot_self {x : Slot ν} {slots : List (κ × Slot ν)} (h : slots.lookup k = some x) :
    Cache.setSlot k x slots = slots := by
  induction slots with
  | nil => cases h
  | cons e rest ih =>
    obtain ⟨key, y⟩ := e
    rw [Cache.setSlot]
    by_cases he : key = k
    · subst he
      have hy : y = x := by simpa using h
      rw [if_pos rfl, hy]
    · have hb : (k == key) = false := by simpa using Ne.symm he
      rw [List.lookup_cons, hb] at h
      rw [if_neg he, ih h]

/-- To find a slot that is there changes nothing. -/
theorem modify_id {x : Slot ν} (h : c.slot? k = some x) :
    (of thread c).modify k id = of thread c := by
  rw [modify_of (x := x) (by rw [h]; rfl), setSlot_self h]

/-! ### Steps -/

/-- A request that starts a construction, if the steps inside it do what they should. -/
theorem create_of {before : List (CacheEvent κ ν)} {inner : List (CacheStep κ ν)}
    {outcome : Option ν} (hk : c.slot? k = none ∨ c.slot? k = some .vacant) (h : c.Records before)
    (hinner : (c.starting k).Records (before ++ [.started k]) →
      runAll thread inner (of thread (c.starting k)) =
        some ((CacheStep.runAll inner (c.starting k)).1,
          of thread (CacheStep.runAll inner (c.starting k)).2)) :
    run thread (.create k inner outcome) (of thread c) =
      some (((CacheStep.create k inner outcome).run c).1,
        of thread ((CacheStep.create k inner outcome).run c).2) := by
  have hstart := h.start hk
  have hkeeps := CacheStep.runAll_records inner hstart
  have hempty : (of thread c).slot k = {} := by
    rw [slot_of]
    rcases hk with hk | hk <;> rw [hk] <;> rfl
  -- The cell of a key without value is not being initialized, so its initialization can start.
  -- The cell of a key without value is not being initialized, so its initialization can start.
  have hstarting : ((of thread c).modify k id).modify k (OnceSlot.mark thread) =
      of thread { c with slots := Cache.setSlot k .building c.slots } := by
    rw [modify_modify, modify_of]
    rw [← slot_of, hempty]
    rfl
  have hrun := hinner hstart
  rw [CacheStep.run_create hk, run]
  simp only [slot_modify, hempty, hstarting, id]
  change (match runAll thread inner (of thread (c.starting k)) with
    | none => none
    | some (answers, c) => _) = _
  rw [hrun]
  generalize CacheStep.runAll inner (c.starting k) = r at hkeeps ⊢
  have hslot : r.2.slot? k = some .building :=
    hkeeps.building k (by rw [Cache.slot?_starting, if_pos rfl])
  have hended : ((of thread r.2).modify k OnceSlot.unmark).modify k (OnceSlot.settle outcome) =
      of thread (r.2.conclude k outcome) := by
    have hcell : OnceSlot.settle outcome (OnceSlot.unmark (cell thread
        ((r.2.slot? k).getD .vacant))) = cell thread (Cache.slotOf outcome) := by
      rw [hslot]
      cases outcome <;> rfl
    rw [modify_modify, modify_of hcell]
    cases outcome <;> rfl
  simp only [hended, answer_of]

mutual

/-- **A step on cells and marks** does not wait forever, and answers as one on the cache does. -/
theorem run_of (s : CacheStep κ ν) {c : Cache κ ν} {before : List (CacheEvent κ ν)}
    (h : c.Records before) :
    run thread s (of thread c) = some ((s.run c).1, of thread (s.run c).2) := by
  match s with
  | .get k =>
    have hvalue : (cell thread ((c.slot? k).getD .vacant)).value = c.get? k := by
      rw [Cache.get?]
      cases c.slot? k with
      | none => rfl
      | some x => cases x <;> rfl
    rw [run, CacheStep.run, slot_of, hvalue, answer_of]
  | .create k inner outcome =>
    match hslot : c.slot? k with
    | some (.ready v) =>
      have hcell : ((of thread c).slot k).value = some v := by rw [slot_of, hslot]; rfl
      rw [run, CacheStep.run, Cache.request_found hslot, modify_id hslot]
      simp only [hcell]
      exact congrArg some (Prod.ext (answer_of { c with hits := c.hits + 1 } _ _) rfl)
    | some .building =>
      have hcell : ((of thread c).slot k) = cell thread .building := by rw [slot_of, hslot]; rfl
      rw [run, CacheStep.run, Cache.request_building hslot, modify_id hslot]
      simp only [hcell, cell, if_true, answer_of]
    | none => exact create_of (.inl hslot) h fun h => runAll_of inner h
    | some .vacant => exact create_of (.inr hslot) h fun h => runAll_of inner h

/-- **Steps on cells and marks** do not wait forever, and answer as those on the cache do. -/
theorem runAll_of (steps : List (CacheStep κ ν)) {c : Cache κ ν} {before : List (CacheEvent κ ν)}
    (h : c.Records before) :
    runAll thread steps (of thread c) =
      some ((CacheStep.runAll steps c).1, of thread (CacheStep.runAll steps c).2) := by
  match steps with
  | [] => rfl
  | s :: rest =>
    have hrest := runAll_of rest (s.run_records h).records
    rw [runAll, CacheStep.runAll, run_of s h]
    simp only [hrest]

end

end OnceCache

namespace CacheStep

variable {κ ν : Type} [DecidableEq κ]

/-- **Discipline of all runs.** Steps on an empty cache never wait forever, they answer as those on
    its cells and marks do, and whatever happens is as it should be, up to the counters in the
    end. -/
theorem run_disciplined (thread : ThreadId) (steps : List (CacheStep κ ν)) :
    OnceCache.runAll thread steps {} =
      some ((runAll steps {}).1, OnceCache.of thread (runAll steps {}).2) ∧
    Disciplined (eventsAll steps (runAll steps {}).1) ∧
    (runAll steps {}).2.hits = (eventsAll steps (runAll steps {}).1).countP CacheEvent.isHit ∧
    (runAll steps {}).2.misses = (eventsAll steps (runAll steps {}).1).countP CacheEvent.isStart ∧
    (runAll steps {}).2.size = distinctKeys (eventsAll steps (runAll steps {}).1) := by
  have hempty : Cache.Records ({} : Cache κ ν) [] := Cache.records_empty
  have hkeeps := runAll_records steps hempty
  have hrecords := hkeeps.records
  rw [List.nil_append] at hrecords
  exact ⟨OnceCache.runAll_of steps hempty, hkeeps.lawful.disciplined, hrecords.hits,
    hrecords.misses, hrecords.size_eq⟩

/-- A construction that asks for its own key and gives up, then another one that succeeds, and a
    request that the value answers. -/
example :
    let steps : List (CacheStep Nat Nat) :=
      [.create 0 [.create 0 [] (some 1), .create 1 [] (some 2)] none, .create 0 [] (some 3),
        .create 0 [] (some 4)]
    (eventsAll steps (runAll steps {}).1).filter (·.called?.isSome) =
      [.started 0, .met 0 .reentrant, .started 1, .started 0, .met 0 (.made 3)] := by
  decide

end CacheStep

end JavaAbi
