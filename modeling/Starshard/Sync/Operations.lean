import Starshard.Sync.Rebalance
import Starshard.Sync.Snapshot

/-! The statistics of the synchronous map, the start of a supervised rebalance, and
all public operations together. -/
namespace Starshard.Sync

open Data Concurrent

variable {K V : Type} (env : Env K V)

/-- `shard.len()` and `shard.capacity()` under the shard's lock. -/
def loadOf (shard : Nat) : Prog K V Nat := do
  act (.lock (.shard shard) .shared)
  let len : Nat ← act (.len shard)
  act (.unlock (.shard shard))
  return len

def initializedShards : Prog K V Nat := do
  act (.lock .routing .shared)
  let slots ← activeSlots
  act (.unlock .routing)
  return (allocatedShards slots).length

/-- The scan of `shard_stats` and `per_shard_load`: the directory stays locked. -/
def shardLoads : Prog K V (Nat × List Nat) := do
  act (.lock .routing .shared)
  act (.lock .active .shared)
  let slots : Slots ← act .shards
  let loads ← (allocatedShards slots).mapM loadOf
  act (.unlock .active)
  act (.unlock .routing)
  return (slots.length, loads)

/-- The scan of `memory_stats`: no directory stays locked. -/
def memoryLoads : Prog K V (List Nat) := do
  act (.lock .routing .shared)
  let loads ← (← allShards).mapM loadOf
  act (.unlock .routing)
  return loads

/-- `claim_worker`. -/
def claimWorker (generation : Nat) : Prog K V Bool := do
  let progress : Progress ← act (.tracker fun p => (p.claimWorker generation).getD p)
  return (progress.claimWorker generation).isSome

/-- The section of `spawn_rebalance` that starts and reserves a generation. -/
def spawnRebalance (newShardCount : Nat) : Prog K V (Except ShardCountError Bool) :=
  match strictShardCount newShardCount MAX_SHARDS with
  | .error e => return .error e
  | .ok target => do
    act (.lock .routing .excl)
    let progress ← readTracker
    if progress.hasWorker then
      act (.unlock .routing)
      return .ok false
    else
      let current : Nat ← act .shardCount
      if progress.migrating ∧ current ≠ target then
        act (.unlock .routing)
        return .ok false
      else
        if ¬ progress.migrating ∧ current ≠ target then
          act (.lock .active .excl)
          act (.lock .previous .excl)
          beginMigration current target
          act (.unlock .previous)
          act (.unlock .active)
        let telemetry := (← readTracker).telemetry
        let claimed ← claimWorker telemetry.generation
        act (.unlock .routing)
        return .ok claimed

/-- The public operations, with what they are called with. -/
inductive Op (K V : Type) where
  | insert (k : K) (v : V)
  | get (k : K)
  | readWith (k : K) (read : V → V)
  | contains (k : K)
  | remove (k : K)
  | len
  | getOrInsertWith (k : K) (f : Unit → V)
  | computeIfPresent (k : K) (f : V → Option V)
  | compareAndSwap (k : K) (expected new : V)
  | compareAndRemove (k : K) (expected : V)
  | batchInsert (entries : List (K × V))
  | batchRemove (keys : List K)
  | batchGet (keys : List K)
  | retain (predicate : K → V → Bool)
  | clear
  | drain
  | executeTransaction (ops : List (TxnOp K V))
  | snapshotView
  /-- `shared_snapshot`, `cow_snapshot` and `versioned_snapshot`. -/
  | captureSnapshot
  | iter
  /-- `keys` and `values`. -/
  | collect
  | snapshotAtVersion (version : Nat)
  /-- `evict`, `evict_lru` and `enforce_eviction_limits`. -/
  | runEviction (target : Option Nat) (policy : Option CapacityPolicy)
  | startRebalanceOnline (count : Nat)
  | pauseRebalance
  | resumeRebalance
  | advanceRebalance (fuel maxShards : Nat)
  | advanceRebalanceWithOptions (fuel : Nat) (options : RebalanceOptions)
  | rebalanceTo (fuel count : Nat) (options : RebalanceOptions)
  | spawnRebalance (count : Nat)
  /-- One batch of a supervised worker. -/
  | workerBatch (fuel : Nat) (budget : Budget)
  | releaseWorker (generation : Nat)
  | initializedShards
  /-- `shard_stats`, `shard_utilization` and `per_shard_load`. -/
  | shardLoads
  | memoryLoads

def discard {α : Type} (p : Prog K V α) : Prog K V Unit := p >>= fun _ => pure ()

def code [DecidableEq K] : Op K V → Prog K V Unit
  | .insert k v => discard (insert env k v)
  | .get k => discard (get env k)
  | .readWith k read => discard (readWith env k read)
  | .contains k => discard (contains env k)
  | .remove k => discard (remove env k)
  | .len => discard len
  | .getOrInsertWith k f => discard (getOrInsertWith env k f)
  | .computeIfPresent k f => discard (computeIfPresent env k f)
  | .compareAndSwap k expected new => discard (compareAndSwap env k expected new)
  | .compareAndRemove k expected => discard (compareAndRemove env k expected)
  | .batchInsert entries => discard (batchInsert env entries)
  | .batchRemove keys => discard (batchRemove env keys)
  | .batchGet keys => discard (batchGet env keys)
  | .retain predicate => retain env predicate
  | .clear => clear env
  | .drain => discard (drain env)
  | .executeTransaction ops => discard (executeTransaction env ops)
  | .snapshotView => discard snapshotView
  | .captureSnapshot => discard (captureSnapshot env)
  | .iter => discard (iter env)
  | .collect => discard collectWith
  | .snapshotAtVersion version => discard (snapshotAtVersion env version)
  | .runEviction target policy => discard (runEviction env target policy)
  | .startRebalanceOnline count => discard (startRebalanceOnline count)
  | .pauseRebalance => discard pauseRebalance
  | .resumeRebalance => discard resumeRebalance
  | .advanceRebalance fuel maxShards => discard (advanceRebalance env fuel maxShards)
  | .advanceRebalanceWithOptions fuel options =>
    discard (advanceRebalanceWithOptions env fuel options)
  | .rebalanceTo fuel count options => discard (rebalanceTo env fuel count options)
  | .spawnRebalance count => discard (spawnRebalance count)
  | .workerBatch fuel budget => discard (advanceRebalanceInner env fuel budget)
  | .releaseWorker generation => discard (act (.tracker (Progress.releaseWorker generation)))
  | .initializedShards => discard initializedShards
  | .shardLoads => discard shardLoads
  | .memoryLoads => discard memoryLoads

end Starshard.Sync
