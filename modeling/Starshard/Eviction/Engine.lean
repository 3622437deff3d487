import Mathlib.Data.Prod.Lex
import Mathlib.Data.List.Nodup
import Starshard.Types

/-! Policy metadata (`eviction/engine.rs`): one entry for each live key, and the
ranking by which a maintenance pass evicts. -/
namespace Starshard.Eviction

/-- The limits of a configured map as `EvictionOptions::validate` accepts them. -/
structure Options extends EvictionConfig where
  entryLimits : maxEntries = none ∨ maxItemsPerShard = none

structure Entry (K : Type) where
  key : K
  incarnation : Nat
  inserted : Nat
  accessed : Nat
  frequency : Nat
  weight : Nat

def Entry.fresh {K : Type} (k : K) (stamp weight : Nat) : Entry K :=
  ⟨k, stamp, stamp, stamp, 1, weight⟩

/-- `LifecycleState` of a configured map. The buckets of the stripes stand one
after the other, and `weight` adds up the weights of the stripes. -/
structure Engine (K : Type) where
  entries : List (Entry K)
  weight : Nat
  sequence : Nat
  epoch : Nat
  dirtyEpoch : Nat
  repairedEpoch : Nat
  workEpoch : Nat
  maintainedEpoch : Nat
  reconciliations : Nat
  metrics : Metrics

def policyRank (policy : CapacityPolicy) (inserted accessed frequency incarnation : Nat) :
    Nat ×ₗ Nat ×ₗ Nat :=
  match policy with
  | .lru => toLex (accessed, toLex (inserted, incarnation))
  | .lfu => toLex (frequency, toLex (accessed, inserted))
  | .fifo => toLex (inserted, toLex (0, incarnation))

/-- `EvictionCandidate::rank`. -/
def rank {K : Type} (policy : CapacityPolicy) (c : EvictionCandidate K) : Nat ×ₗ Nat ×ₗ Nat :=
  policyRank policy c.inserted c.accessed c.frequency c.incarnation

/-- `sort_unstable_by_key`. -/
def ranked {K : Type} (policy : CapacityPolicy) (cs : List (EvictionCandidate K)) :
    List (EvictionCandidate K) :=
  cs.mergeSort fun a b => decide (rank policy a ≤ rank policy b)

namespace Engine

variable {K : Type} [DecidableEq K] (fx : K → Nat)

def new (K : Type) : Engine K where
  entries := []
  weight := 0
  sequence := 1
  epoch := 1
  dirtyEpoch := 0
  repairedEpoch := 0
  workEpoch := 0
  maintainedEpoch := 0
  reconciliations := 0
  metrics := ⟨0, 0, 0, 0, 0, 0⟩

def dirty (e : Engine K) : Bool := e.dirtyEpoch != e.repairedEpoch

def markPending (e : Engine K) : Engine K := { e with workEpoch := wrapping (e.workEpoch + 1) }

def markDirty (e : Engine K) : Engine K :=
  { e with dirtyEpoch := wrapping (e.dirtyEpoch + 1) }.markPending

/-- `mutation`; a ticket that is finished has no further effect. -/
def mutation (e : Engine K) : Engine K := e.markPending

def maintenanceGeneration (e : Engine K) : Nat := e.workEpoch

def markMaintained (observed : Nat) (e : Engine K) : Engine K :=
  { e with maintainedEpoch := max e.maintainedEpoch observed }

def overMemoryBudget (config : EvictionConfig) (e : Engine K) : Bool :=
  config.memoryBudget.any (e.weight > ·)

def bucket (hash : Nat) (e : Engine K) : List (Entry K) :=
  e.entries.filter fun x => decide (fx x.key = hash)

def find? (k : K) (e : Engine K) : Option (Entry K) :=
  (e.bucket fx (fx k)).find? fun x => decide (x.key = k)

def candidate (e : Engine K) (x : Entry K) : EvictionCandidate K where
  key := x.key
  weight := x.weight
  hash := fx x.key
  epoch := e.epoch
  incarnation := x.incarnation
  inserted := x.inserted
  accessed := x.accessed
  frequency := x.frequency

def candidates (policy : CapacityPolicy) (e : Engine K) : List (EvictionCandidate K) :=
  if e.dirty then [] else ranked policy (e.entries.map (e.candidate fx))

/-- Keep the lower rank; an earlier entry wins a tie. -/
def lower (policy : CapacityPolicy) (minimum : Option (EvictionCandidate K))
    (c : EvictionCandidate K) : Option (EvictionCandidate K) :=
  match minimum with
  | none => some c
  | some old => if rank policy c < rank policy old then some c else some old

def minimumCandidate (policy : CapacityPolicy) (e : Engine K) : Option (EvictionCandidate K) :=
  if e.dirty then none else (e.entries.map (e.candidate fx)).foldl (lower policy) none

def candidatesForKeys (policy : CapacityPolicy) (keys : List K) (e : Engine K) :
    List (EvictionCandidate K) :=
  if e.dirty then []
  else ranked policy (keys.filterMap fun k => (e.find? fx k).map (e.candidate fx))

def validate (c : EvictionCandidate K) (e : Engine K) : Bool :=
  if e.dirty || c.epoch != e.epoch then false
  else (e.bucket fx c.hash).any fun x =>
    x.incarnation = c.incarnation ∧ x.weight = c.weight ∧ x.accessed = c.accessed ∧
      x.frequency = c.frequency

/-- `bucket.position` followed by `swap_remove`; the order of a bucket is immaterial. -/
def drop (hash : Nat) (p : Entry K → Bool) (e : Engine K) : Engine K :=
  match (e.bucket fx hash).find? p with
  | none => e
  | some x =>
    { e with
      entries := e.entries.eraseP fun y => decide (fx y.key = hash) && p y
      weight := e.weight - x.weight }

def recordEviction (c : EvictionCandidate K) (e : Engine K) : Engine K :=
  { e with metrics := e.metrics.count .evictions }.drop fx c.hash
    fun x => decide (x.incarnation = c.incarnation)

def recordRemove (k : K) (e : Engine K) : Engine K :=
  { e with metrics := e.metrics.count .removes }.drop fx (fx k) fun x => decide (x.key = k)

def refresh (stamp weight : Nat) (replaced : Bool) (x : Entry K) : Entry K :=
  if replaced then
    { x with weight := weight, incarnation := stamp, accessed := stamp,
             frequency := min (x.frequency + 1) (2 ^ 64 - 1) }
  else
    { x with weight := weight, incarnation := stamp, accessed := stamp, inserted := stamp,
             frequency := 1 }

def recordInsert (k : K) (weight : Nat) (replaced : Bool) (e : Engine K) : Engine K :=
  let stamp := e.sequence
  let e := { e with metrics := e.metrics.count .inserts, sequence := wrapping (e.sequence + 1) }
  match e.find? fx k with
  | some x =>
    { e with
      entries := e.entries.map fun y => if y.key = k then refresh stamp weight replaced y else y
      weight := e.weight - x.weight + weight }
  | none =>
    { e with
      entries := e.entries ++ [.fresh k stamp weight]
      weight := e.weight + weight }

def touch (stamp : Nat) (x : Entry K) : Entry K :=
  { x with accessed := max x.accessed stamp, frequency := min (x.frequency + 1) (2 ^ 64 - 1) }

def recordRead (k : K) (hit : Bool) (e : Engine K) : Engine K :=
  let e := { e with metrics := e.metrics.count .gets }
  if !hit then { e with metrics := e.metrics.count .misses }
  else
    let e := { e with metrics := e.metrics.count .hits }
    match e.find? fx k with
    | none => e
    | some _ =>
      { e with
        sequence := wrapping (e.sequence + 1)
        entries := e.entries.map fun y => if y.key = k then touch e.sequence y else y }

/-- A rebuilt entry keeps the stamps of the old one. -/
def rebuild (e : Engine K) (staged : List (Entry K) × Nat) (item : K × Nat) :
    List (Entry K) × Nat :=
  let stamp := staged.2
  let x := match e.find? fx item.1 with
    | none => .fresh item.1 stamp item.2
    | some old => ⟨item.1, stamp, old.inserted, old.accessed, old.frequency, item.2⟩
  (staged.1 ++ [x], wrapping (stamp + 1))

def reconcile (items : List (K × Nat)) (e : Engine K) : Engine K :=
  let staged := items.foldl (e.rebuild fx) ([], e.sequence)
  { e with
    entries := staged.1
    weight := (items.map Prod.snd).sum
    sequence := staged.2
    epoch := wrapping (e.epoch + 1)
    repairedEpoch := e.dirtyEpoch
    reconciliations := wrapping (e.reconciliations + 1) }

end Engine

end Starshard.Eviction
