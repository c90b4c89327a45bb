import Mathlib.Data.List.Dedup
import Mathlib.Data.List.Nodup
import JavaAbi.Proofs.Caches

namespace JavaAbi

/-!
# Runs of cache steps

What happens in a run of steps, as a list of events in order of time, is read off the steps and
their answers alone. What may happen next is settled by what happened before: a key with a value answers
with it, a key whose construction runs is refused, and any other key is constructed.

* `CacheEvent`, `CacheStep.events` — what happens in a run;
* `firstValue?`, `Running` — what the events so far say about a key;
* `CacheEvent.Allowed` — what may happen next; `Cache.Records` — what a cache knows of the past;
* `CacheStep.run_records` — every step keeps to it;
* `Lawful.disciplined` — what follows for whole runs.
-/

/-- What happens in a run. -/
inductive CacheEvent (κ ν : Type) where
  /-- A key is read. -/
  | read (key : κ) (value : Option ν)
  /-- A request is answered without a construction. -/
  | met (key : κ) (result : CacheResult ν)
  /-- A request starts a construction. -/
  | started (key : κ)
  /-- A construction returns a value or gives up. -/
  | ended (key : κ) (outcome : Option ν)
  /-- The request that started a construction is answered. -/
  | gave (key : κ) (result : CacheResult ν)
  /-- The counters are read. -/
  | stats (size hits misses : Nat)
  deriving DecidableEq, Repr

namespace CacheStep

variable {κ ν : Type}

mutual

/-- What happens in a step, by its answer. -/
def events : CacheStep κ ν → CacheAnswer ν → List (CacheEvent κ ν)
  | .get k, .mk (.read value) _ size hits misses => [.read k value, .stats size hits misses]
  | .get _, _ => []
  | .create k _ _, .mk result none size hits misses => [.met k result, .stats size hits misses]
  | .create k inner outcome, .mk result (some answers) size hits misses =>
    .started k :: (eventsAll inner answers ++
      [.ended k outcome, .gave k result, .stats size hits misses])

/-- What happens in steps, by their answers. -/
def eventsAll : List (CacheStep κ ν) → List (CacheAnswer ν) → List (CacheEvent κ ν)
  | [], _ | _, [] => []
  | s :: rest, a :: as => events s a ++ eventsAll rest as

end

end CacheStep

/-! ### What events say -/

namespace CacheEvent

variable {κ ν : Type}

/-- The key of a request. -/
@[simp] def called? : CacheEvent κ ν → Option κ
  | met k _ | started k => some k
  | _ => none

/-- A stored value answers a request. -/
@[simp] def isHit : CacheEvent κ ν → Bool
  | met _ (.made _) => true
  | _ => false

/-- A request is refused. -/
@[simp] def isRefusal : CacheEvent κ ν → Bool
  | met _ .reentrant => true
  | _ => false

/-- A construction starts. -/
@[simp] def isStart : CacheEvent κ ν → Bool
  | started _ => true
  | _ => false

variable [DecidableEq κ]

/-- A construction of a key starts. -/
@[simp] def startOf (k : κ) : CacheEvent κ ν → Bool
  | started j => j = k
  | _ => false

/-- A construction of a key ends. -/
@[simp] def endOf (k : κ) : CacheEvent κ ν → Bool
  | ended j _ => j = k
  | _ => false

/-- The value that a construction of a key returns. -/
@[simp] def valueOf? (k : κ) : CacheEvent κ ν → Option ν
  | ended j outcome => if j = k then outcome else none
  | _ => none

end CacheEvent

section Past

variable {κ ν : Type} [DecidableEq κ]

open CacheEvent

/-- The value that the first construction of a key returned that did not give up. -/
def firstValue? (k : κ) (before : List (CacheEvent κ ν)) : Option ν :=
  before.findSome? (valueOf? k)

/-- A construction of a key is running: more have started than have ended. -/
def Running (k : κ) (before : List (CacheEvent κ ν)) : Prop :=
  before.countP (endOf k) < before.countP (startOf k)

theorem firstValue?_snoc (k : κ) (before : List (CacheEvent κ ν)) (e : CacheEvent κ ν) :
    firstValue? k (before ++ [e]) = (firstValue? k before).or (e.valueOf? k) := by
  simp [firstValue?]

/-- How many keys have been requested. -/
def distinctKeys (before : List (CacheEvent κ ν)) : Nat := (before.filterMap called?).dedup.length

/-- What may happen after these events. -/
def CacheEvent.Allowed (before : List (CacheEvent κ ν)) : CacheEvent κ ν → Prop
  | .read k value => value = firstValue? k before
  | .met k (.made v) => firstValue? k before = some v
  | .met k .reentrant => firstValue? k before = none ∧ Running k before
  | .met _ _ => False
  | .started k => firstValue? k before = none ∧ ¬Running k before
  | .ended k _ => firstValue? k before = none ∧
      before.countP (startOf k) = before.countP (endOf k) + 1
  | .gave k (.made v) => firstValue? k before = some v
  | .gave k .abandoned => firstValue? k before = none ∧ ¬Running k before
  | .gave _ _ => False
  | .stats size hits misses => size = distinctKeys before ∧ hits = before.countP isHit ∧
      misses = before.countP isStart

/-- Each event may happen after those before it. -/
def Lawful (before : List (CacheEvent κ ν)) : List (CacheEvent κ ν) → Prop
  | [] => True
  | e :: rest => e.Allowed before ∧ Lawful (before ++ [e]) rest

theorem lawful_append {before events events' : List (CacheEvent κ ν)} :
    Lawful before (events ++ events') ↔
      Lawful before events ∧ Lawful (before ++ events) events' := by
  induction events generalizing before with
  | nil => simp [Lawful]
  | cons e rest ih => simp [Lawful, ih, and_assoc]

/-- An event of a lawful run may happen after those before it. -/
theorem Lawful.allowed {pre post : List (CacheEvent κ ν)} {e : CacheEvent κ ν}
    (h : Lawful [] (pre ++ e :: post)) : e.Allowed pre := by
  have h := (lawful_append.1 h).2
  rw [List.nil_append] at h
  exact h.1

end Past

/-! ### What a cache knows of the past -/

namespace Cache

variable {κ ν : Type} [DecidableEq κ] {c : Cache κ ν} {k : κ} {v : ν}

theorem mem_keys_setSlot {x : Slot ν} {slots : List (κ × Slot ν)} {j : κ} :
    j ∈ (setSlot k x slots).map Prod.fst ↔ j = k ∨ j ∈ slots.map Prod.fst := by
  induction slots with
  | nil => simp [setSlot]
  | cons e rest ih =>
    rw [setSlot]
    split
    · rename_i he
      simp [← he]
    · simp only [List.map_cons, List.mem_cons, ih]
      exact or_left_comm

theorem nodup_keys_setSlot {x : Slot ν} {slots : List (κ × Slot ν)}
    (h : (slots.map Prod.fst).Nodup) : ((setSlot k x slots).map Prod.fst).Nodup := by
  induction slots with
  | nil => simp [setSlot]
  | cons e rest ih =>
    rw [List.map_cons, List.nodup_cons] at h
    rw [setSlot]
    split
    · rename_i he
      rw [List.map_cons, List.nodup_cons, ← he]
      exact h
    · rename_i he
      rw [List.map_cons, List.nodup_cons, mem_keys_setSlot]
      exact ⟨fun hmem => hmem.elim he h.1, ih h.2⟩

theorem mem_keys_of_slot? {x : Slot ν} (h : c.slot? k = some x) : k ∈ c.slots.map Prod.fst := by
  obtain ⟨l, r, hl, -⟩ := List.lookup_eq_some_iff.1 h
  simp [hl]

theorem request_found (h : c.slot? k = some (.ready v)) :
    c.request k = (.found v, { c with hits := c.hits + 1 }) := by
  simp [request, h]

theorem request_building (h : c.slot? k = some .building) : c.request k = (.reentrant, c) := by
  simp [request, h]

/-- The cache while a construction of a key has just started. -/
def starting (c : Cache κ ν) (k : κ) : Cache κ ν :=
  { c with slots := setSlot k .building c.slots, misses := c.misses + 1 }

theorem request_starting (h : c.slot? k = none ∨ c.slot? k = some .vacant) :
    c.request k = (.construct, c.starting k) := by
  rcases h with h | h <;> simp [request, h, starting]

theorem slot?_starting (c : Cache κ ν) (k j : κ) :
    (c.starting k).slot? j = if j = k then some .building else c.slot? j :=
  lookup_setSlot k _ _ j

/-- The cache when a construction of a key has ended. -/
def conclude (c : Cache κ ν) (k : κ) : Option ν → Cache κ ν
  | some v => c.finish k v
  | none => c.abandon k

/-- The slot in which a construction ends. -/
def slotOf : Option ν → Slot ν
  | some v => .ready v
  | none => .vacant

theorem slots_conclude (c : Cache κ ν) (k : κ) (outcome : Option ν) :
    (c.conclude k outcome).slots = setSlot k (slotOf outcome) c.slots := by
  cases outcome <;> rfl

theorem slot?_conclude (c : Cache κ ν) (k j : κ) (outcome : Option ν) :
    (c.conclude k outcome).slot? j = if j = k then some (slotOf outcome) else c.slot? j := by
  cases outcome with
  | some v => exact slot?_finish c k v j
  | none => exact slot?_abandon c k j

open CacheEvent in
/-- **What a cache knows of the past.** -/
structure Records (c : Cache κ ν) (before : List (CacheEvent κ ν)) : Prop where
  value : ∀ k, c.get? k = firstValue? k before
  running : ∀ k, c.slot? k = some .building →
    before.countP (startOf k) = before.countP (endOf k) + 1
  idle : ∀ k, c.slot? k ≠ some .building → before.countP (startOf k) = before.countP (endOf k)
  keys : ∀ k, k ∈ c.slots.map Prod.fst ↔ k ∈ before.filterMap called?
  nodup : (c.slots.map Prod.fst).Nodup
  hits : c.hits = before.countP isHit
  misses : c.misses = before.countP isStart

theorem records_empty : Records ({} : Cache κ ν) [] where
  value _ := rfl
  running k h := by cases h
  idle k _ := rfl
  keys k := by simp
  nodup := by simp
  hits := by simp
  misses := by simp

namespace Records

variable {before : List (CacheEvent κ ν)}

theorem running_iff (h : c.Records before) (k : κ) :
    Running k before ↔ c.slot? k = some .building := by
  unfold Running
  constructor
  · intro hlt
    by_contra hk
    have hidle := h.idle k hk
    omega
  · intro hk
    have hrunning := h.running k hk
    omega

theorem size_eq (h : c.Records before) : c.size = distinctKeys before := by
  have hperm : (c.slots.map Prod.fst).Perm (before.filterMap CacheEvent.called?).dedup := by
    refine (List.perm_ext_iff_of_nodup h.nodup (List.nodup_dedup _)).2 fun k => ?_
    rw [List.mem_dedup, h.keys]
  have hlength := hperm.length_eq
  rwa [List.length_map] at hlength

/-- Events that no cache takes notice of. -/
theorem unnoticed (h : c.Records before) {e : CacheEvent κ ν}
    (hv : ∀ k, e.valueOf? k = none) (hs : ∀ k, e.startOf k = false) (he : ∀ k, e.endOf k = false)
    (hc : e.called? = none) (hh : e.isHit = false) (hm : e.isStart = false) :
    c.Records (before ++ [e]) where
  value k := by rw [firstValue?_snoc, hv, Option.or_none, h.value]
  running k hk := by
    simp only [List.countP_append, List.countP_singleton, hs, he]
    simpa using h.running k hk
  idle k hk := by
    simp only [List.countP_append, List.countP_singleton, hs, he]
    simpa using h.idle k hk
  keys k := by
    rw [List.filterMap_append, List.filterMap_cons_none hc]
    simpa using h.keys k
  nodup := h.nodup
  hits := by
    simp only [List.countP_append, List.countP_singleton, hh]
    simpa using h.hits
  misses := by
    simp only [List.countP_append, List.countP_singleton, hm]
    simpa using h.misses

theorem read (h : c.Records before) (k : κ) (value : Option ν) :
    c.Records (before ++ [.read k value]) :=
  h.unnoticed (fun _ => rfl) (fun _ => rfl) (fun _ => rfl) rfl rfl rfl

theorem gave (h : c.Records before) (k : κ) (result : CacheResult ν) :
    c.Records (before ++ [.gave k result]) :=
  h.unnoticed (fun _ => rfl) (fun _ => rfl) (fun _ => rfl) rfl rfl rfl

theorem stats (h : c.Records before) (size hits misses : Nat) :
    c.Records (before ++ [.stats size hits misses]) :=
  h.unnoticed (fun _ => rfl) (fun _ => rfl) (fun _ => rfl) rfl rfl rfl

/-- A request of a key that has a slot. -/
theorem met (h : c.Records before) {x : Slot ν} (hk : c.slot? k = some x) (result : CacheResult ν)
    {hits : Nat} (hhits : hits = c.hits + if (CacheEvent.met k result).isHit then 1 else 0) :
    Records { c with hits } (before ++ [.met k result]) where
  value j := by
    rw [firstValue?_snoc, ← h.value j]
    simp [get?, slot?]
  running j hj := by simpa using h.running j hj
  idle j hj := by simpa using h.idle j hj
  keys j := by
    have hmem := mem_keys_of_slot? hk
    simp only [List.filterMap_append, List.mem_append, ← h.keys j]
    refine (or_iff_left_of_imp fun hj => ?_).symm
    obtain rfl : j = k := by simpa using hj
    exact hmem
  nodup := h.nodup
  hits := by simp [List.countP_append, hhits, h.hits]
  misses := by simp [h.misses]

theorem start (h : c.Records before) (hk : c.slot? k = none ∨ c.slot? k = some .vacant) :
    (c.starting k).Records (before ++ [.started k]) where
  value j := by
    -- A key that is started has no value, and starting it gives none.
    have hnone : c.get? k = none := by rcases hk with hk | hk <;> simp [get?, hk, Slot.value?]
    have hget : (c.starting k).get? j = c.get? j := by
      rw [get?, get?, slot?_starting]
      by_cases hj : j = k
      · subst hj
        rw [if_pos rfl]
        exact hnone.symm
      · rw [if_neg hj]
    simp [firstValue?_snoc, hget, h.value j]
  running j hj := by
    have hidle : c.slot? k ≠ some .building := by rcases hk with hk | hk <;> simp [hk]
    rw [slot?_starting] at hj
    by_cases hjk : j = k
    · subst hjk
      simp [h.idle j hidle]
    · rw [if_neg hjk] at hj
      simp [Ne.symm hjk, h.running j hj]
  idle j hj := by
    rw [slot?_starting] at hj
    by_cases hjk : j = k
    · rw [if_pos hjk] at hj
      exact absurd rfl hj
    · rw [if_neg hjk] at hj
      simp [Ne.symm hjk, h.idle j hj]
  keys j := by
    simp only [starting, mem_keys_setSlot, h.keys j, List.filterMap_append, List.mem_append]
    rw [or_comm]
    simp [eq_comm]
  nodup := nodup_keys_setSlot h.nodup
  hits := by simp [starting, h.hits]
  misses := by simp [starting, h.misses]

theorem conclude (h : c.Records before) (hk : c.slot? k = some .building) (outcome : Option ν) :
    (c.conclude k outcome).Records (before ++ [.ended k outcome]) where
  value j := by
    have hnone : c.get? k = none := by simp [get?, hk, Slot.value?]
    rw [get?, slot?_conclude, firstValue?_snoc, ← h.value j]
    by_cases hj : j = k
    · subst hj
      cases outcome <;> simp [hnone, Slot.value?, slotOf]
    · simp [hj, Ne.symm hj, get?]
  running j hj := by
    rw [slot?_conclude] at hj
    by_cases hjk : j = k
    · rw [if_pos hjk] at hj
      cases outcome <;> cases hj
    · rw [if_neg hjk] at hj
      simp [Ne.symm hjk, h.running j hj]
  idle j hj := by
    rw [slot?_conclude] at hj
    by_cases hjk : j = k
    · subst hjk
      simp [h.running j hk]
    · rw [if_neg hjk] at hj
      simp [Ne.symm hjk, h.idle j hj]
  keys j := by
    -- The key has had a slot since it was started.
    have hmem := mem_keys_of_slot? hk
    rw [slots_conclude, mem_keys_setSlot, List.filterMap_append, List.mem_append, ← h.keys j]
    refine (or_iff_right_of_imp ?_).trans (or_iff_left_of_imp ?_).symm
    · rintro rfl
      exact hmem
    · simp
  nodup := by
    rw [slots_conclude]
    exact nodup_keys_setSlot h.nodup
  hits := by cases outcome <;> simp [Cache.conclude, finish, abandon, h.hits]
  misses := by cases outcome <;> simp [Cache.conclude, finish, abandon, h.misses]

end Records

end Cache

/-! ### Steps -/

namespace CacheStep

variable {κ ν : Type} [DecidableEq κ]

/-- What a request answers whose construction has ended. -/
def resultOf : Option ν → CacheResult ν
  | some v => .made v
  | none => .abandoned

/-- A request that starts a construction. -/
theorem run_create {c : Cache κ ν} {k : κ} (hk : c.slot? k = none ∨ c.slot? k = some .vacant)
    (inner : List (CacheStep κ ν)) (outcome : Option ν) :
    (create k inner outcome).run c =
      (answer ((runAll inner (c.starting k)).2.conclude k outcome) (resultOf outcome)
          (some (runAll inner (c.starting k)).1),
        (runAll inner (c.starting k)).2.conclude k outcome) := by
  rw [run, Cache.request_starting hk]
  cases outcome <;> rfl

/-- What a step or a list of steps is shown to do: the cache knows of what happened, all of it may
    happen, and constructions that run keep running. -/
structure Keeps (c t : Cache κ ν) (before happened : List (CacheEvent κ ν)) : Prop where
  records : t.Records (before ++ happened)
  lawful : Lawful before happened
  building : ∀ k, c.slot? k = some .building → t.slot? k = some .building

/-- A request that starts a construction, if the steps inside it do what they should. -/
theorem create_records {c : Cache κ ν} {k : κ} {inner : List (CacheStep κ ν)} {outcome : Option ν}
    {before : List (CacheEvent κ ν)} (hk : c.slot? k = none ∨ c.slot? k = some .vacant)
    (h : c.Records before)
    (hinner : (c.starting k).Records (before ++ [.started k]) →
      Keeps (c.starting k) (runAll inner (c.starting k)).2 (before ++ [.started k])
        (eventsAll inner (runAll inner (c.starting k)).1)) :
    Keeps c ((create k inner outcome).run c).2 before
      ((create k inner outcome).events ((create k inner outcome).run c).1) := by
  rw [run_create hk, answer, events]
  replace hinner := hinner (h.start hk)
  generalize runAll inner (c.starting k) = r at hinner ⊢
  -- The slot is marked all the while that the inner steps run.
  have hslot : r.2.slot? k = some .building :=
    hinner.building k (by rw [Cache.slot?_starting, if_pos rfl])
  have hended := hinner.records.conclude hslot outcome
  have hgave := hended.gave k (resultOf outcome)
  have hstats := hgave.stats (r.2.conclude k outcome).size (r.2.conclude k outcome).hits
    (r.2.conclude k outcome).misses
  have hnone : c.get? k = none := by rcases hk with hk | hk <;> simp [Cache.get?, hk, Slot.value?]
  have hidle : c.slot? k ≠ some .building := by rcases hk with hk | hk <;> simp [hk]
  refine { records := ?_, lawful := ?_, building := ?_ }
  · simpa using hstats
  · refine ⟨⟨by rw [← h.value, hnone], fun hrunning => hidle ((h.running_iff k).1 hrunning)⟩, ?_⟩
    refine lawful_append.2 ⟨hinner.lawful, ?_, ?_, ?_, trivial⟩
    · refine ⟨?_, hinner.records.running k hslot⟩
      rw [← hinner.records.value, Cache.get?, hslot]
      rfl
    · have hvalue := hended.value k
      have hrunning := hended.running_iff k
      rw [Cache.get?, Cache.slot?_conclude, if_pos rfl] at hvalue
      rw [Cache.slot?_conclude, if_pos rfl] at hrunning
      cases outcome with
      | some v => exact hvalue.symm
      | none => exact ⟨hvalue.symm, fun hr => nomatch hrunning.1 hr⟩
    · exact ⟨hgave.size_eq, hgave.hits, hgave.misses⟩
  · intro j hj
    have hne : j ≠ k := by
      rintro rfl
      exact hidle hj
    rw [Cache.slot?_conclude, if_neg hne]
    refine hinner.building j ?_
    rw [Cache.slot?_starting, if_neg hne]
    exact hj

mutual

theorem run_records (s : CacheStep κ ν) {c : Cache κ ν} {before : List (CacheEvent κ ν)}
    (h : c.Records before) :
    Keeps c (s.run c).2 before (s.events (s.run c).1) := by
  match s with
  | .get k =>
    rw [run, answer, events]
    have hread := h.read k (c.get? k)
    have hstats := hread.stats c.size c.hits c.misses
    rw [List.append_assoc] at hstats
    exact
      { records := hstats
        lawful := ⟨h.value k, ⟨hread.size_eq, hread.hits, hread.misses⟩, trivial⟩
        building := fun _ hk => hk }
  | .create k inner outcome =>
    match hslot : c.slot? k with
    | some (.ready v) =>
      rw [run, Cache.request_found hslot]
      have hmet := h.met hslot (.made v) rfl
      have hstats := hmet.stats c.size (c.hits + 1) c.misses
      rw [List.append_assoc] at hstats
      exact
        { records := hstats
          lawful := ⟨by rw [CacheEvent.Allowed, ← h.value, Cache.get?, hslot]; rfl,
            ⟨hmet.size_eq, hmet.hits, hmet.misses⟩, trivial⟩
          building := fun _ hk => hk }
    | some .building =>
      rw [run, Cache.request_building hslot]
      have hmet := h.met hslot .reentrant rfl
      have hstats := hmet.stats c.size c.hits c.misses
      rw [List.append_assoc] at hstats
      exact
        { records := hstats
          lawful := ⟨⟨by rw [← h.value, Cache.get?, hslot]; rfl, (h.running_iff k).2 hslot⟩,
            ⟨hmet.size_eq, hmet.hits, hmet.misses⟩, trivial⟩
          building := fun _ hk => hk }
    -- Only a key that has no value and is not running starts a construction, with the steps inside
    -- it.
    | none => exact create_records (.inl hslot) h fun h => runAll_records inner h
    | some .vacant => exact create_records (.inr hslot) h fun h => runAll_records inner h

theorem runAll_records (steps : List (CacheStep κ ν)) {c : Cache κ ν}
    {before : List (CacheEvent κ ν)} (h : c.Records before) :
    Keeps c (runAll steps c).2 before (eventsAll steps (runAll steps c).1) := by
  match steps with
  | [] =>
    rw [runAll, eventsAll]
    exact { records := by rwa [List.append_nil], lawful := trivial, building := fun _ hk => hk }
  | s :: rest =>
    have hs := run_records s h
    have hrest := runAll_records rest hs.records
    rw [runAll, eventsAll]
    exact
      { records := by
          rw [← List.append_assoc]
          exact hrest.records
        lawful := lawful_append.2 ⟨hs.lawful, hrest.lawful⟩
        building := fun k hk => hrest.building k (hs.building k hk) }

end

end CacheStep

/-! ### Whole runs -/

section Runs

variable {κ ν : Type} [DecidableEq κ] {k : κ} {v : ν} {pre post events : List (CacheEvent κ ν)}
  {e : CacheEvent κ ν}

open CacheEvent

theorem firstValue?_append (k : κ) (events events' : List (CacheEvent κ ν)) :
    firstValue? k (events ++ events') = (firstValue? k events).or (firstValue? k events') :=
  List.findSome?_append

theorem firstValue?_ne_none (h : .ended k (some v) ∈ events) : firstValue? k events ≠ none := by
  intro hnone
  have hvalue := List.findSome?_eq_none_iff.1 hnone _ h
  simp at hvalue

/-- The first value of a key is that of a construction before which none returned one. -/
theorem exists_of_firstValue? (h : firstValue? k events = some v) :
    ∃ pre post, events = pre ++ .ended k (some v) :: post := by
  obtain ⟨pre, e, post, hsplit, hvalue, -⟩ := List.findSome?_eq_some_iff.1 h
  cases e with
  | ended j outcome =>
    rw [valueOf?] at hvalue
    split at hvalue
    · rename_i hj
      subst hj hvalue
      exact ⟨pre, post, hsplit⟩
    · cases hvalue
  | _ => cases hvalue

/-- What a request meets. -/
theorem CacheEvent.Allowed.called (h : e.Allowed pre) (hk : e.called? = some k) :
    (∃ v, e = .met k (.made v) ∧ firstValue? k pre = some v) ∨
    (e = .met k .reentrant ∧ firstValue? k pre = none ∧ Running k pre) ∨
    (e = .started k ∧ firstValue? k pre = none ∧ ¬Running k pre) := by
  cases e with
  | met j result =>
    obtain rfl : j = k := Option.some.inj hk
    cases result with
    | made v => exact .inl ⟨v, rfl, h⟩
    | reentrant => exact .inr (.inl ⟨rfl, h⟩)
    | read _ | abandoned => exact h.elim
  | started j =>
    obtain rfl : j = k := Option.some.inj hk
    exact .inr (.inr ⟨rfl, h⟩)
  | _ => cases hk

/-- No construction starts once a key has a value. -/
theorem Lawful.no_start (h : Lawful [] (pre ++ post)) (hv : firstValue? k pre ≠ none) :
    .started k ∉ post := by
  intro hmem
  obtain ⟨a, b, rfl⟩ := List.append_of_mem hmem
  rw [← List.append_assoc] at h
  have hnone := h.allowed.1
  rw [firstValue?_append, Option.or_eq_none_iff] at hnone
  exact hv hnone.1

theorem countP_startOf (h : .started k ∉ events) : events.countP (startOf k) = 0 := by
  rw [List.countP_eq_zero]
  intro e he hstart
  cases e with
  | started j =>
    obtain rfl : j = k := by simpa using hstart
    exact h he
  | _ => cases hstart

/-- No construction runs once a key has a value. -/
theorem Lawful.not_running (h : Lawful [] events) (hv : firstValue? k events = some v) :
    ¬Running k events := by
  obtain ⟨pre, post, rfl⟩ := exists_of_firstValue? hv
  have hended := h.allowed.2
  rw [List.append_cons] at h
  have hmem : .ended k (some v) ∈ pre ++ [.ended k (some v)] := by simp
  have hstarts := countP_startOf (h.no_start (firstValue?_ne_none hmem))
  have hstart : startOf k (.ended k (some v)) = false := rfl
  have hend : endOf k (.ended k (some v)) = true := by simp
  unfold Running
  rw [List.countP_append, List.countP_append, List.countP_cons, List.countP_cons, hstart, hend]
  simp only [if_true, Bool.false_eq_true, if_false]
  omega

/-- Whether a construction runs changes only when one starts. -/
theorem not_running_append (h : ¬Running k pre) (hs : .started k ∉ post) :
    ¬Running k (pre ++ post) := by
  unfold Running at h ⊢
  have hstarts := countP_startOf hs
  rw [List.countP_append, List.countP_append]
  omega

/-- A key has no new value as long as no construction of it starts. -/
theorem Lawful.firstValue?_eq_none (h : Lawful [] (pre ++ post)) (hr : ¬Running k pre)
    (hv : firstValue? k pre = none) (hs : .started k ∉ post) :
    firstValue? k (pre ++ post) = none := by
  match hw : firstValue? k (pre ++ post) with
  | none => rfl
  | some w =>
    rw [firstValue?_append, hv, Option.none_or] at hw
    obtain ⟨a, b, rfl⟩ := exists_of_firstValue? hw
    rw [← List.append_assoc] at h
    have hended := h.allowed.2
    have hnot : ¬Running k (pre ++ a) :=
      not_running_append hr fun hmem => hs (List.mem_append_left _ hmem)
    unfold Running at hnot
    omega

/-- A construction that gives up leaves nothing behind. -/
theorem Lawful.vacant (h : Lawful [] (pre ++ [.ended k none])) :
    firstValue? k (pre ++ [.ended k none]) = none ∧ ¬Running k (pre ++ [.ended k none]) := by
  obtain ⟨hv, hcount⟩ := h.allowed
  refine ⟨by simp [firstValue?_snoc, hv], ?_⟩
  unfold Running
  rw [List.countP_append, List.countP_append, hcount]
  simp

/-- **Discipline of a run**, in its own words. -/
structure Disciplined (events : List (CacheEvent κ ν)) : Prop where
  /-- Whenever a request is answered with a value, it is the one that the first construction of the
      key returned that did not give up. -/
  answered : ∀ k v, .met k (.made v) ∈ events ∨ .gave k (.made v) ∈ events →
    firstValue? k events = some v
  /-- No construction of the key starts after that. -/
  settled : ∀ pre post k v, events = pre ++ .ended k (some v) :: post → .started k ∉ post
  /-- A request is refused exactly if a construction of its key is running. -/
  refused : ∀ pre e post k, events = pre ++ e :: post → e.called? = some k →
    (e = .met k .reentrant ↔ Running k pre)
  /-- A construction that gives up leaves its key without value and not under construction. -/
  vacant : ∀ pre post k, events = pre ++ .ended k none :: post →
    firstValue? k (pre ++ [.ended k none]) = none ∧ ¬Running k (pre ++ [.ended k none])
  /-- The next request of the key constructs it afresh. -/
  afresh : ∀ pre mid e post k, events = pre ++ .ended k none :: (mid ++ e :: post) →
    (∀ x ∈ mid, x.called? ≠ some k) → e.called? = some k → e = .started k
  /-- Values that were returned before it gave up stay. -/
  kept : ∀ pre post k j v, events = pre ++ .ended k none :: post → firstValue? j pre = some v →
    ∀ e ∈ post, e.called? = some j → e = .met j (.made v)
  /-- A key that is read has the value that was returned for it. -/
  read : ∀ pre post k value, events = pre ++ .read k value :: post → value = firstValue? k pre
  /-- The counters count requests answered with stored values, constructions and keys. -/
  stats : ∀ pre post size hits misses, events = pre ++ .stats size hits misses :: post →
    size = distinctKeys pre ∧ hits = pre.countP isHit ∧ misses = pre.countP isStart
  /-- Every request is one or the other, or is refused. -/
  calls : (events.filterMap called?).length =
    events.countP isHit + events.countP isStart + events.countP isRefusal

theorem Lawful.calls {before : List (CacheEvent κ ν)} (h : Lawful before events) :
    (events.filterMap called?).length =
      events.countP isHit + events.countP isStart + events.countP isRefusal := by
  induction events generalizing before with
  | nil => rfl
  | cons e rest ih =>
    have hrest := ih h.2
    cases e with
    | met k result =>
      cases result with
      | made v | reentrant =>
        simp [List.countP_cons]
        omega
      | read _ | abandoned => exact h.1.elim
    | started k =>
      simp [List.countP_cons]
      omega
    | read k value | ended k outcome | gave k result | stats size hits misses =>
      simpa [List.filterMap_cons, List.countP_cons] using hrest

theorem Lawful.disciplined (h : Lawful [] events) : Disciplined events where
  answered k v hmem := by
    -- An answer repeats the first value, which the events before it gave.
    have hbefore : ∃ pre post, events = pre ++ post ∧ firstValue? k pre = some v := by
      rcases hmem with hmem | hmem <;> obtain ⟨pre, post, rfl⟩ := List.append_of_mem hmem
      · exact ⟨pre, _, rfl, h.allowed⟩
      · exact ⟨pre, _, rfl, h.allowed⟩
    obtain ⟨pre, post, rfl, hv⟩ := hbefore
    rw [firstValue?_append, hv, Option.some_or]
  settled := by
    rintro pre post k v rfl
    rw [List.append_cons] at h
    have hmem : .ended k (some v) ∈ pre ++ [.ended k (some v)] := by simp
    exact h.no_start (firstValue?_ne_none hmem)
  refused := by
    rintro pre e post k rfl hk
    rcases h.allowed.called hk with ⟨v, rfl, hv⟩ | ⟨rfl, -, hr⟩ | ⟨rfl, -, hr⟩
    · have hpre := (lawful_append.1 h).1
      simpa using hpre.not_running hv
    · simpa using hr
    · simpa using hr
  vacant := by
    rintro pre post k rfl
    rw [List.append_cons] at h
    exact (lawful_append.1 h).1.vacant
  afresh := by
    rintro pre mid e post k rfl hmid hk
    rw [List.append_cons, ← List.append_assoc] at h
    -- After a failure the key is vacant, and stays so until it is started again.
    obtain ⟨hv, hr⟩ := (lawful_append.1 (List.append_assoc .. ▸ h)).1.vacant
    have hstart : .started k ∉ mid := fun hmem => hmid _ hmem rfl
    have hv' := ((lawful_append.1 h).1).firstValue?_eq_none hr hv hstart
    have hr' := not_running_append hr hstart
    rcases h.allowed.called hk with ⟨v, -, hw⟩ | ⟨-, -, hw⟩ | ⟨rfl, -, -⟩
    · cases hv'.symm.trans hw
    · exact absurd hw hr'
    · rfl
  kept := by
    rintro pre post k j v rfl hv e he hj
    obtain ⟨a, b, rfl⟩ := List.append_of_mem he
    have hvalue : firstValue? j (pre ++ .ended k none :: a) = some v := by
      rw [firstValue?_append, hv, Option.some_or]
    rw [← List.cons_append, ← List.append_assoc] at h
    rcases h.allowed.called hj with ⟨w, rfl, hw⟩ | ⟨-, hw, -⟩ | ⟨-, hw, -⟩
    · rw [Option.some.inj (hvalue.symm.trans hw)]
    · cases hvalue.symm.trans hw
    · cases hvalue.symm.trans hw
  read := by
    rintro pre post k value rfl
    exact h.allowed
  stats := by
    rintro pre post size hits misses rfl
    exact h.allowed
  calls := h.calls

end Runs

end JavaAbi
