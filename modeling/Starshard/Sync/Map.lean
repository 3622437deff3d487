import Starshard.Sync.Eviction

/-! The operations of the synchronous map. Routing read guards pin directories;
operations on both generations hold routing exclusively. Shard locks are ordered
active first, then previous. -/
namespace Starshard.Sync

open Data Concurrent LifecycleState

variable {K V : Type} (env : Env K V)

/-- Active shard is locked first. Promotion is a physical move, not a new key. -/
def promotePrevious (k : K) (active : Nat) : Prog K V Unit := do
  match ← previousShard env k with
  | none => return
  | some shard =>
    act (.lock (.shard shard) .excl)
    act .user
    let found : Option V ← act (.get shard k)
    if found.isSome then
      promoteEntry active shard k
    act (.unlock (.shard shard))

/-- Returned and replaced values of a configured map retire after the locks. -/
def retireValue (value : Option V) : Prog K V Bool := do
  if env.eviction.isNone then
    act .user
  return value.isSome

def trackedInsert (shard : Nat) (k : K) (v : V) : Prog K V (Option V) := do
  mutation
  let weight ← prepareInsert k v
  let previous ← ShardMutation.insert shard k v
  commitInsert k weight previous.isSome
  finish
  return previous

def trackedRemove (shard : Nat) (k : K) : Prog K V (Option V) := do
  mutation
  let previous ← ShardMutation.remove shard k
  if previous.isSome then
    recordRemove k
  finish
  return previous

def trackedRead {R : Type} (k : K) (value : Option V) (read : V → R) : Prog K V (Option R) := do
  recordRead k value.isSome
  act .user
  return value.map read

def insertInner (k : K) (v : V) : Prog K V (Option V) := do
  let shard ← getOrInitShard (← shardIndex env k)
  act (.lock (.shard shard) .excl)
  promotePrevious env k shard
  -- a shared Cow shard is detached here
  act .user
  ShardMutation.new shard
  let previous ← trackedInsert shard k v
  ShardMutation.drop shard
  act (.unlock (.shard shard))
  return previous

/-- The tail of every operation that may have changed the map. -/
def leave {α : Type} (result : α) : Prog K V α := do
  act (.unlock .routing)
  enforceEvictionLimits env
  act .user
  act .pop
  return result

def insert (k : K) (v : V) : Prog K V (Option V) := do
  act (.push .operation)
  act (.lock .routing .shared)
  let previous ← insertInner env k v
  leave env previous

def readPrevious {R : Type} (k : K) (read : V → R) : Prog K V (Option R) := do
  match ← previousShard env k with
  | none => trackedRead k none read
  | some previous =>
    act (.lock (.shard previous) .shared)
    act .user
    let value : Option V ← act (.get previous k)
    let result ← trackedRead k value read
    act (.unlock (.shard previous))
    return result

def readInner {R : Type} (k : K) (read : V → R) : Prog K V (Option R) := do
  act (.lock .active .shared)
  let index ← shardIndex env k
  let slots : Slots ← act .shards
  match slots[index]? with
  | none => crash
  | some (some shard) =>
    act (.unlock .active)
    act (.lock (.shard shard) .shared)
    act .user
    let value : Option V ← act (.get shard k)
    match value with
    | some v =>
      let result ← trackedRead k (some v) read
      act (.unlock (.shard shard))
      return result
    | none =>
      -- active stays locked, so a concurrent promotion cannot move the entry
      -- behind this lookup
      let result ← readPrevious env k read
      act (.unlock (.shard shard))
      return result
  | some none =>
    -- the directory stays locked, so no writer can initialise the destination
    let result ← readPrevious env k read
    act (.unlock .active)
    return result

def readWith {R : Type} (k : K) (read : V → R) : Prog K V (Option R) := do
  act (.lock .routing .shared)
  let result ← readInner env k read
  act (.unlock .routing)
  return result

def get (k : K) : Prog K V (Option V) := readWith env k id

def contains (k : K) : Prog K V Bool := do
  let found ← readWith env k fun _ => ()
  return found.isSome

def removeFrom (shard : Nat) (k : K) : Prog K V (Option V) := do
  act (.lock (.shard shard) .excl)
  promotePrevious env k shard
  act .user
  let found : Option V ← act (.get shard k)
  if env.snapshotMode = .cow ∧ found.isNone then
    act (.unlock (.shard shard))
    return none
  else
    act .user
    ShardMutation.new shard
    let previous ← trackedRemove shard k
    ShardMutation.drop shard
    act (.unlock (.shard shard))
    return previous

/-- A missing active slot can still hold data in the previous generation. -/
def removeInner (k : K) : Prog K V (Option V) := do
  act (.lock .active .shared)
  let index ← shardIndex env k
  let slots : Slots ← act .shards
  match slots[index]? with
  | none => crash
  | some (some shard) =>
    act (.unlock .active)
    removeFrom env shard k
  | some none =>
    let count : Nat ← act .previousShardCount
    act (.unlock .active)
    if count = 0 then
      return none
    else
      let shard ← getOrInitShard (← shardIndex env k)
      removeFrom env shard k

def remove (k : K) : Prog K V (Option V) := do
  act (.push .operation)
  act (.lock .routing .shared)
  let previous ← removeInner env k
  leave env previous

def len : Prog K V Nat := act .totalLen

/-- Lock the active shard of a key and bring the key into it. -/
def lockKey (k : K) : Prog K V Nat := do
  let shard ← getOrInitShard (← shardIndex env k)
  act (.lock (.shard shard) .excl)
  promotePrevious env k shard
  return shard

/-- Leave without maintenance, as an early return does. -/
def leaveEarly {α : Type} (shard : Nat) (result : α) : Prog K V α := do
  act (.unlock (.shard shard))
  act (.unlock .routing)
  act .pop
  return result

def insertLocked (shard : Nat) (k : K) (v : V) : Prog K V Unit := do
  act .user
  ShardMutation.new shard
  let replaced ← trackedInsert shard k v
  let _ ← retireValue env replaced
  ShardMutation.drop shard

def removeLocked (shard : Nat) (k : K) : Prog K V Unit := do
  act .user
  ShardMutation.new shard
  let removed ← trackedRemove shard k
  let _ ← retireValue env removed
  ShardMutation.drop shard

/-- The flag tells whether the initializer ran. -/
def getOrInsertWith (k : K) (f : Unit → V) : Prog K V (V × Bool) := do
  act (.push .operation)
  act (.lock .routing .shared)
  let shard ← lockKey env k
  act .user
  let current : Option V ← act (.get shard k)
  let current ← trackedRead k current id
  match current with
  | some v => leaveEarly shard (v, false)
  | none =>
    act .user
    let value := f ()
    insertLocked env shard k value
    act (.unlock (.shard shard))
    leave env (value, true)

def computeIfPresent (k : K) (f : V → Option V) : Prog K V (Option V) := do
  act (.push .operation)
  act (.lock .routing .shared)
  let shard ← lockKey env k
  act .user
  let current : Option V ← act (.get shard k)
  match ← trackedRead k current f with
  | none => leaveEarly shard none
  | some (some value) =>
    insertLocked env shard k value
    act (.unlock (.shard shard))
    leave env (some value)
  | some none =>
    removeLocked env shard k
    act (.unlock (.shard shard))
    leave env none

def compareAndSwap (k : K) (expected new : V) : Prog K V (CasResult V) := do
  act (.push .operation)
  act (.lock .routing .shared)
  let shard ← lockKey env k
  act .user
  let current : Option V ← act (.get shard k)
  recordRead k current.isSome
  act .user
  match current with
  | some current =>
    if env.valueEq current expected then
      insertLocked env shard k new
      act (.unlock (.shard shard))
      leave env (.success new)
    else
      act (.unlock (.shard shard))
      leave env (.failure current)
  | none =>
    act (.unlock (.shard shard))
    leave env (.failure new)

def compareAndRemove (k : K) (expected : V) : Prog K V Bool := do
  act (.push .operation)
  act (.lock .routing .shared)
  let shard ← lockKey env k
  act .user
  let current : Option V ← act (.get shard k)
  recordRead k current.isSome
  act .user
  if current.any fun current => env.valueEq current expected then
    removeLocked env shard k
    act (.unlock (.shard shard))
    leave env true
  else
    act (.unlock (.shard shard))
    leave env false

def batchInsertBucket (items : List (Nat × (K × V))) (inserted index : Nat) : Prog K V Nat := do
  let shard ← getOrInitShard index
  act (.lock (.shard shard) .excl)
  act .user
  ShardMutation.new shard
  let inserted ← (bucket items index).foldlM (fun inserted e => do
    let replaced ← retireValue env (← trackedInsert shard e.1 e.2)
    return if replaced then inserted else inserted + 1) inserted
  ShardMutation.drop shard
  act (.unlock (.shard shard))
  return inserted

def batchInsert (entries : List (K × V)) : Prog K V Nat := do
  act (.push .operation)
  act .user
  act (.lock .routing .shared)
  let count : Nat ← act .previousShardCount
  if count ≠ 0 then
    let inserted ← entries.foldlM (fun inserted e => do
      let replaced ← retireValue env (← insertInner env e.1 e.2)
      return if replaced then inserted else inserted + 1) 0
    leave env inserted
  else
    let items ← bucketize env Prod.fst entries
    let inserted ← (← bucketOrder items).foldlM (batchInsertBucket env items) 0
    leave env inserted

/-- `keys.iter().any(|key| guard.contains_key(key))`. -/
def containsAny (shard : Nat) : List K → Prog K V Bool
  | [] => return false
  | k :: keys => do
    act .user
    let found : Option V ← act (.get shard k)
    if found.isSome then return true else containsAny shard keys

def batchRemoveBucket (items : List (Nat × K)) (removed index : Nat) : Prog K V Nat := do
  match (← activeSlots)[index]? with
  | none => crash
  | some none => return removed
  | some (some shard) =>
    act (.lock (.shard shard) .excl)
    let keys := bucket items index
    let found ← if env.snapshotMode = .cow then containsAny shard keys else pure true
    if found then
      act .user
      ShardMutation.new shard
      let removed ← keys.foldlM (fun removed k => do
        let gone ← retireValue env (← trackedRemove shard k)
        return if gone then removed + 1 else removed) removed
      ShardMutation.drop shard
      act (.unlock (.shard shard))
      return removed
    else
      act (.unlock (.shard shard))
      return removed

def batchRemove (keys : List K) : Prog K V Nat := do
  act (.push .operation)
  act .user
  act (.lock .routing .shared)
  let count : Nat ← act .previousShardCount
  if count ≠ 0 then
    let removed ← keys.foldlM (fun removed k => do
      let gone ← retireValue env (← removeInner env k)
      return if gone then removed + 1 else removed) 0
    leave env removed
  else
    let items ← bucketize env id keys
    let removed ← (← bucketOrder items).foldlM (batchRemoveBucket env items) 0
    leave env removed

/-- Positions of the result vector are written bucket by bucket. -/
def batchGetBucket (items : List (Nat × (Nat × K))) (result : List (Option V)) (index : Nat) :
    Prog K V (List (Option V)) := do
  match (← activeSlots)[index]? with
  | none => crash
  | some (some shard) =>
    act (.lock (.shard shard) .shared)
    let result ← (bucket items index).foldlM (fun result e => do
      act .user
      let value : Option V ← act (.get shard e.2)
      let value ← trackedRead e.2 value id
      return result.set e.1 value) result
    act (.unlock (.shard shard))
    return result
  | some none =>
    let _ ← (bucket items index).mapM fun e => recordRead (V := V) e.2 false
    return result

def batchGet (keys : List K) : Prog K V (List (Option V)) := do
  let result : List (Option V) := List.replicate keys.length none
  act (.lock .routing .shared)
  let count : Nat ← act .previousShardCount
  if count ≠ 0 then
    let result ← keys.zipIdx.foldlM (fun result e => do
      let value ← readInner env e.1 id
      return result.set e.2 value) result
    act (.unlock .routing)
    return result
  else
    let items ← bucketize env Prod.snd (keys.zipIdx.map Prod.swap)
    let result ← (← bucketOrder items).foldlM (batchGetBucket items) result
    act (.unlock .routing)
    return result

/-- `extract_if` visits the entries of a shard in table order. -/
def retainShard (predicate : K → V → Bool) (shard : Nat) : Prog K V Unit := do
  act (.lock (.shard shard) .excl)
  mutation
  act .user
  let entries : List (K × V) ← act (.entries shard)
  let _ ← entries.mapM fun e => do
    act .user
    if !predicate e.1 e.2 then
      let _ ← act (.take shard e.1)
      recordRemoval
      recordRemove e.1
      if env.eviction.isNone then
        act .user
  finish
  act (.unlock (.shard shard))

/-- Retired entries are destroyed before the maintenance. -/
def leaveRetiring : Prog K V Unit := do
  act (.unlock .routing)
  act .user
  enforceEvictionLimits env
  act .pop

def retain (predicate : K → V → Bool) : Prog K V Unit := do
  act (.push .operation)
  act (.lock .routing .excl)
  let _ ← (← allShards).mapM (retainShard env predicate)
  leaveRetiring env

/-- `record_write(0, count)` for a shard that was drained. -/
def recordDrained (count : Nat) : Prog K V Unit := do
  if count ≠ 0 then
    act (.subLen count)
    act .bump

/-- The loop body of `clear` and `drain`. -/
def drainShard (removed : List (K × V)) (shard : Nat) : Prog K V (List (K × V)) := do
  act (.lock (.shard shard) .excl)
  let count : Nat ← act (.len shard)
  mutation
  act .user
  let entries : List (K × V) ← act (.drain shard)
  recordDrained count
  let _ ← entries.mapM fun e => recordRemove (V := V) e.1
  finish
  act (.unlock (.shard shard))
  return removed ++ entries

/-- The topology reset that ends `clear` and `drain`. -/
def dropPrevious : Prog K V Unit := do
  act (.lock .previous .excl)
  let _ ← act (.setPrevious none)
  act (.unlock .previous)
  act (.setPreviousShardCount 0)
  let now : Nat ← act .clock
  let _ ← act (.tracker (Progress.finish now))

def clear : Prog K V Unit := do
  act (.push .operation)
  act (.lock .routing .excl)
  let _ ← (← allShards).foldlM drainShard []
  dropPrevious
  leaveRetiring env

def drain : Prog K V (List (K × V)) := do
  act (.push .operation)
  act (.lock .routing .excl)
  let items ← (← allShards).foldlM drainShard []
  dropPrevious
  leave env items

def transactionIndices (previousCount : Nat) :
    List (TxnOp K V) → Prog K V (List Nat × List Nat)
  | [] => return ([], [])
  | op :: ops => do
    let active ← shardIndex env op.key
    let (actives, previous) ← transactionIndices previousCount ops
    if previousCount ≠ 0 then
      return (active :: actives, env.hash op.key % previousCount :: previous)
    else
      return (active :: actives, previous)

/-- The previous shards that exist, with their indices. -/
def resolvePrevious (slots : Option Slots) : List Nat → Prog K V (List (Nat × Nat))
  | [] => return []
  | index :: indices => do
    match slots with
    | none => resolvePrevious slots indices
    | some directory =>
      match directory[index]? with
      | none => crash
      | some none => resolvePrevious slots indices
      | some (some shard) =>
        let rest ← resolvePrevious slots indices
        return (index, shard) :: rest

def lockAll (shards : List Nat) : Prog K V Unit := do
  let _ ← shards.mapM fun shard => act (.lock (.shard shard) .excl)

def unlockAll (shards : List Nat) : Prog K V Unit := do
  let _ ← shards.mapM fun shard => act (.unlock (.shard shard))

/-- The guard at the position of an index. -/
def guardAt (indices guards : List Nat) (index : Nat) : Option Nat :=
  (binarySearch indices index).bind (guards[·]?)

/-- Bring the key of an operation into its active shard. -/
def promoteLocked (previousCount : Nat) (previous : List (Nat × Nat)) (active : Nat) (k : K) :
    Prog K V Unit := do
  if previousCount ≠ 0 then
    act .user
    match previous.find? (·.1 = env.hash k % previousCount) with
    | none => return
    | some (_, shard) =>
      let found : Option V ← act (.get shard k)
      if found.isSome then
        promoteEntry active shard k

def transactionOp (active : Nat) : TxnOp K V → Prog K V Unit
  | .read k => do
    act .user
    let found : Option V ← act (.get active k)
    recordRead k found.isSome
  | .write k v => insertLocked env active k v
  | .remove k => do
    act .user
    let found : Option V ← act (.get active k)
    if env.snapshotMode = .cow ∧ found.isNone then
      return
    else
      removeLocked env active k

def executeOps (previousCount : Nat) (indices guards : List Nat) (previous : List (Nat × Nat)) :
    List (TxnOp K V) → Prog K V Unit
  | [] => return
  | op :: ops => do
    let index ← shardIndex env op.key
    match guardAt indices guards index with
    -- `expect("routing pins transaction indices")`
    | none => crash
    | some active =>
      promoteLocked env previousCount previous active op.key
      transactionOp env active op
      executeOps previousCount indices guards previous ops

def executeTransaction (ops : List (TxnOp K V)) : Prog K V TransactionResult := do
  act (.push .operation)
  act (.lock .routing .shared)
  let previousCount : Nat ← act .previousShardCount
  let (actives, previous) ← transactionIndices env previousCount ops
  let activeIndices := sortedIndices actives
  let previousIndices := sortedIndices previous
  let active ← activeIndices.mapM getOrInitShard
  act (.lock .previous .shared)
  let slots : Option Slots ← act .previous
  let previous ← resolvePrevious slots previousIndices
  act (.unlock .previous)
  lockAll active
  lockAll (previous.map Prod.snd)
  executeOps env previousCount activeIndices active previous ops
  unlockAll (previous.map Prod.snd)
  unlockAll active
  leave env .committed

end Starshard.Sync
