namespace JavaAbi

/-!
# Compute-once caches

A cache holds one slot for each key ever requested. The first request of a key starts its
construction, which may request other keys; a request of a key that is being constructed is refused
as re-entrant; once finished, the value answers every later request. A construction that is given up
leaves the slot vacant, and the next request starts again.

* `Cache.request` — what a request of a key meets;
* `Cache.finish`, `Cache.abandon` — the two ends of a construction;
* `CacheStep.run` — whole programs of requests, nested in constructions.
-/

/-- What is known of a key. -/
inductive Slot (ν : Type) where
  | vacant
  | building
  | ready (value : ν)
  deriving DecidableEq, Inhabited, Repr

/-- The value of a finished slot. -/
def Slot.value? {ν : Type} : Slot ν → Option ν
  | .ready v => some v
  | _ => none

/-- Slots by key, with the number of requests that a finished slot answered and of constructions
    started. -/
structure Cache (κ ν : Type) where
  slots : List (κ × Slot ν) := []
  hits : Nat := 0
  misses : Nat := 0
  deriving Inhabited

/-- What a request meets. -/
inductive Request (ν : Type) where
  | found (value : ν)
  | reentrant
  | construct
  deriving DecidableEq, Inhabited, Repr

namespace Cache

variable {κ ν : Type} [DecidableEq κ]

/-- The slot of a key, if the key was ever requested. -/
def slot? (c : Cache κ ν) (k : κ) : Option (Slot ν) := c.slots.lookup k

/-- Sets the slot of a key; a new key goes to the end. -/
def setSlot (k : κ) (s : Slot ν) : List (κ × Slot ν) → List (κ × Slot ν)
  | [] => [(k, s)]
  | e :: rest => if e.1 = k then (k, s) :: rest else e :: setSlot k s rest

/-- A request of a key. One that starts a construction marks the slot. -/
def request (c : Cache κ ν) (k : κ) : Request ν × Cache κ ν :=
  match c.slot? k with
  | some (.ready v) => (.found v, { c with hits := c.hits + 1 })
  | some .building => (.reentrant, c)
  | _ => (.construct, { c with slots := setSlot k .building c.slots, misses := c.misses + 1 })

/-- Ends a construction with a value. -/
def finish (c : Cache κ ν) (k : κ) (v : ν) : Cache κ ν :=
  { c with slots := setSlot k (.ready v) c.slots }

/-- Ends a construction without a value. -/
def abandon (c : Cache κ ν) (k : κ) : Cache κ ν :=
  { c with slots := setSlot k .vacant c.slots }

/-- The value of a key that has one. -/
def get? (c : Cache κ ν) (k : κ) : Option ν := (c.slot? k).bind Slot.value?

/-- Number of keys ever requested. -/
def size (c : Cache κ ν) : Nat := c.slots.length

end Cache

/-! ### Programs -/

/-- A step on a cache: reading a key, or requesting it with a construction that runs steps of its
    own and then gives a value or gives up. -/
inductive CacheStep (κ ν : Type) where
  | get (key : κ)
  | create (key : κ) (inner : List (CacheStep κ ν)) (outcome : Option ν)
  deriving Inhabited

/-- What a step answers. -/
inductive CacheResult (ν : Type) where
  | read (value : Option ν)
  | made (value : ν)
  | reentrant
  | abandoned
  deriving DecidableEq, Inhabited, Repr

/-- The answer of a step: its result, the answers of the steps of the construction if it ran, and
    the counters after the step. -/
inductive CacheAnswer (ν : Type) where
  | mk (result : CacheResult ν) (inner : Option (List (CacheAnswer ν))) (size hits misses : Nat)
  deriving Inhabited

namespace CacheStep

variable {κ ν : Type} [DecidableEq κ]

/-- An answer with the counters of a cache. -/
def answer (c : Cache κ ν) (result : CacheResult ν) (inner : Option (List (CacheAnswer ν))) :
    CacheAnswer ν :=
  .mk result inner c.size c.hits c.misses

mutual

/-- One step. -/
def run : CacheStep κ ν → Cache κ ν → CacheAnswer ν × Cache κ ν
  | .get k, c => (answer c (.read (c.get? k)) none, c)
  | .create k inner outcome, c =>
    match c.request k with
    | (.found v, c) => (answer c (.made v) none, c)
    | (.reentrant, c) => (answer c .reentrant none, c)
    | (.construct, c) =>
      let (answers, c) := runAll inner c
      match outcome with
      | some v =>
        let c := c.finish k v
        (answer c (.made v) (some answers), c)
      | none =>
        let c := c.abandon k
        (answer c .abandoned (some answers), c)

/-- Steps in order. -/
def runAll : List (CacheStep κ ν) → Cache κ ν → List (CacheAnswer ν) × Cache κ ν
  | [], c => ([], c)
  | s :: rest, c =>
    let (a, c) := run s c
    let (as, c) := runAll rest c
    (a :: as, c)

end

end CacheStep

/-- The message of a refused request. -/
def reentrantMessage : String := "construction re-entered its own key"

end JavaAbi
