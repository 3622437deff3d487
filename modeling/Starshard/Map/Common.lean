import Starshard.Map.State

/-! Steps that several methods of both maps share. -/
namespace Starshard

open Data Concurrent

variable {K V : Type} (env : Env K V)

/-- `hash_one(key) % shard_count()`. -/
def shardIndex (k : K) : Prog K V Nat := do
  act .user
  let count : Nat ← act .shardCount
  if count = 0 then crash else return env.hash k % count

def getOrInitShard (index : Nat) : Prog K V Nat := do
  act (.lock .active .shared)
  let slots : Slots ← act .shards
  match slots[index]? with
  | none => crash
  | some (some shard) =>
    act (.unlock .active)
    return shard
  | some none =>
    act (.unlock .active)
    act (.lock .active .excl)
    let shard : Nat ← act (.initSlot index)
    act (.unlock .active)
    return shard

/-- Both maps are write-locked in active-before-previous order by the caller. -/
def promoteEntry (active previous : Nat) (k : K) : Prog K V Unit := do
  -- key clone, staging and lookups precede the commit, destructors follow it
  act .user
  let _ ← act (.promote active previous k)
  act .user

namespace ShardMutation

def insert (id : Nat) (k : K) (v : V) : Prog K V (Option V) := do
  act (.mark id)
  let old ← act (.put id k v)
  act .user
  return old

def remove (id : Nat) (k : K) : Prog K V (Option V) := do
  act .user
  let old ← act (.take id k)
  act .user
  return old

end ShardMutation

namespace LifecycleState

def recordRead (k : K) (hit : Bool) : Prog K V Unit := do
  act (.count .gets)
  if hit then
    act (.count .hits)
    act (.life (.recordRead k))
  else
    act (.count .misses)

def recordInsert (k : K) (weight : Nat) (replaced : Bool) : Prog K V Unit := do
  act (.count .inserts)
  act (.life (.recordInsert k weight replaced))

def recordRemove (k : K) : Prog K V Unit := do
  act (.count .removes)
  act (.life (.recordRemove k))

def recordEviction (candidate : EvictionCandidate K) : Prog K V Unit := do
  act (.count .evictions)
  act (.life (.recordEviction candidate))

def mutation : Prog K V Unit := do
  act (.life .mutation)
  act (.push .ticket)

/-- `MutationTicket::finish`. -/
def finish : Prog K V Unit := act .pop

def prepareInsert (k : K) (v : V) : Prog K V Nat := do
  let weight : Nat ← act (.life (.prepareInsert k v))
  act (.push (.prepared k))
  return weight

def candidates (policy : CapacityPolicy) : Prog K V (List (EvictionCandidate K)) :=
  act (.life (.candidates policy))

def minimumCandidate (policy : CapacityPolicy) : Prog K V (List (EvictionCandidate K)) :=
  act (.life (.minimumCandidate policy))

/-- `record_insert` consumes the preparation. -/
def commitInsert (k : K) (weight : Nat) (replaced : Bool) : Prog K V Unit := do
  act .pop
  recordInsert k weight replaced

end LifecycleState

/-- Tag every item with its shard index. -/
def bucketize {α : Type} (key : α → K) : List α → Prog K V (List (Nat × α))
  | [] => return []
  | x :: xs => do
    let index ← shardIndex env (key x)
    let rest ← bucketize key xs
    return (index, x) :: rest

def bucket {α : Type} (items : List (Nat × α)) (index : Nat) : List α :=
  (items.filter (·.1 = index)).map Prod.snd

/-- The buckets in the order in which their hash table is iterated. -/
def bucketOrder {α : Type} (items : List (Nat × α)) : Prog K V (List Nat) :=
  act (.arrange (items.map Prod.fst).dedup)

def sortedIndices (indices : List Nat) : List Nat := (indices.mergeSort (· ≤ ·)).dedup

/-- `slice::binary_search` between two positions; `fuel` bounds the halvings. -/
def searchBetween (indices : List Nat) (index : Nat) : Nat → Nat → Nat → Option Nat
  | 0, _, _ => none
  | fuel + 1, lo, hi =>
    if lo < hi then
      let mid := (lo + hi) / 2
      match indices[mid]? with
      | none => none
      | some found =>
        if found = index then some mid
        else if found < index then searchBetween indices index fuel (mid + 1) hi
        else searchBetween indices index fuel lo mid
    else none

def binarySearch (indices : List Nat) (index : Nat) : Option Nat :=
  searchBetween indices index (indices.length + 1) 0 indices.length

/-- Read a whole directory under its lock. -/
def activeSlots : Prog K V Slots := do
  act (.lock .active .shared)
  let slots : Slots ← act .shards
  act (.unlock .active)
  return slots

def previousSlots : Prog K V (Option Slots) := do
  act (.lock .previous .shared)
  let slots : Option Slots ← act .previous
  act (.unlock .previous)
  return slots

/-- `slots.iter().flatten()`. -/
def allocatedShards (slots : Slots) : List Nat := slots.filterMap id

/-- `get(index)` of an optional directory. -/
def slotAt (slots : Option Slots) (index : Nat) : Option Nat :=
  (slots.bind (·[index]?)).join

end Starshard
