import Starshard.Map.Common

/-! Configured policy maintenance of the synchronous map. -/
namespace Starshard.Sync

open Data Concurrent LifecycleState

variable {K V : Type} (env : Env K V)

def previousShard (k : K) : Prog K V (Option Nat) := do
  let count : Nat ← act .previousShardCount
  if count = 0 then
    return none
  else
    act .user
    match ← previousSlots with
    | none => return none
    | some slots =>
      match slots[env.hash k % count]? with
      | none => crash
      | some shard => return shard

def allShards : Prog K V (List Nat) := do
  let active ← activeSlots
  let previous ← previousSlots
  return allocatedShards active ++ allocatedShards (previous.getD [])

/-- `record_write(0, 1)`. -/
def recordRemoval : Prog K V Unit := do
  act (.subLen 1)
  act .bump

/-- The scan of `reconcile_eviction_metadata`. -/
def weighShard (shard : Nat) : Prog K V (List (K × Nat)) := do
  act (.lock (.shard shard) .shared)
  let entries : List (K × V) ← act (.entries shard)
  let weighed ← entries.mapM fun e => do
    let weight : Nat ← act (.life (.weight e.1 e.2))
    act .user
    return (e.1, weight)
  act (.unlock (.shard shard))
  return weighed

def reconcileEvictionMetadata : Prog K V Unit := do
  let dirty : Bool ← act (.life .dirty)
  if dirty then
    mutation
    let shards ← allShards
    let weighed ← shards.mapM weighShard
    act (.life (.reconcile weighed.flatten))
    finish
  else return

/-- Remove the entry of a candidate from a shard that is write-locked. -/
def evictFrom (shard : Nat) (candidate : EvictionCandidate K) : Prog K V (Option V) := do
  act .user
  let removed : Option V ← act (.take shard candidate.key)
  match removed with
  | none => return none
  | some v =>
    recordRemoval
    recordEviction candidate
    act (.retire candidate.key v)
    return some v

def trimShard (shard limit : Nat) :
    List (EvictionCandidate K) → List (K × V) → Prog K V (List (K × V))
  | [], evicted => return evicted
  | candidate :: candidates, evicted => do
    let len : Nat ← act (.len shard)
    if len ≤ limit then
      return evicted
    else
      let valid : Bool ← act (.life (.validate candidate))
      if valid then
        match ← evictFrom shard candidate with
        | none => trimShard shard limit candidates evicted
        | some v => trimShard shard limit candidates (evicted ++ [(candidate.key, v)])
      else
        trimShard shard limit candidates evicted

/-- One slot of the stable-layout path: the evicted entries so far, and whether
an exclusive retry is needed. -/
def limitShard (policy : CapacityPolicy) (limit : Nat) (state : List (K × V) × Bool)
    (shard : Nat) : Prog K V (List (K × V) × Bool) := do
  act (.lock (.shard shard) .shared)
  let len : Nat ← act (.len shard)
  act (.unlock (.shard shard))
  if len ≤ limit then
    return state
  else
    act (.lock (.shard shard) .excl)
    let entries : List (K × V) ← act (.entries shard)
    let candidates : List (EvictionCandidate K) ←
      act (.life (.candidatesForKeys policy (entries.map Prod.fst)))
    let evicted ← trimShard shard limit candidates state.1
    let len : Nat ← act (.len shard)
    act (.unlock (.shard shard))
    return (evicted, state.2 || decide (limit < len))

/-- The shared-routing part of `run_eviction`: the evicted entries, and whether
the pass is complete. -/
def evictStable (policy : CapacityPolicy) (limit : Nat) : Prog K V (List (K × V) × Bool) := do
  act (.lock .routing .shared)
  let count : Nat ← act .previousShardCount
  let dirty : Bool ← act (.life .dirty)
  if count = 0 ∧ !dirty then
    mutation
    let observed : Nat ← act (.life .maintenanceGeneration)
    let slots ← activeSlots
    let (evicted, retryExclusive) ←
      (allocatedShards slots).foldlM (limitShard policy limit) ([], false)
    finish
    let dirty : Bool ← act (.life .dirty)
    if !retryExclusive ∧ !dirty then
      act (.life (.markMaintained observed))
      act (.unlock .routing)
      return (evicted, true)
    else
      act (.unlock .routing)
      return (evicted, false)
  else
    act (.unlock .routing)
    return ([], false)

/-- `target_count.is_some_and(|target| self.len() > target)`. -/
def overCount : Option Nat → Prog K V Bool
  | none => return false
  | some target => do
    let len : Nat ← act .totalLen
    return decide (target < len)

/-- `target_count.is_some_and(|target| self.len().checked_sub(target) == Some(1))`. -/
def oneOver : Option Nat → Prog K V Bool
  | none => return false
  | some target => do
    let len : Nat ← act .totalLen
    return decide (len = target + 1)

def countShard (counts : Nat → Nat) (shard : Nat) : Prog K V (Nat → Nat) := do
  act (.lock (.shard shard) .shared)
  let entries : List (K × V) ← act (.entries shard)
  let counts ← entries.foldlM (fun counts e => do
    let index ← shardIndex env e.1
    return Function.update counts index (counts index + 1)) counts
  act (.unlock (.shard shard))
  return counts

/-- The loop state of the exclusive pass. -/
structure Sweep (K V : Type) where
  counts : Nat → Nat
  overWeight : Bool
  evicted : List (K × V)

/-- Look for the candidate in its active shard, then in its previous one. -/
def sweepShards (config : EvictionConfig) (index : Nat) (candidate : EvictionCandidate K) :
    List Nat → Sweep K V → Prog K V (Sweep K V)
  | [], state => return state
  | shard :: shards, state => do
    act (.lock (.shard shard) .excl)
    act .user
    let found : Option V ← act (.get shard candidate.key)
    match found with
    | none =>
      act (.unlock (.shard shard))
      sweepShards config index candidate shards state
    | some _ =>
      match ← evictFrom shard candidate with
      | none =>
        act (.unlock (.shard shard))
        sweepShards config index candidate shards state
      | some v =>
        let overWeight ← if state.overWeight then
          (act (.life .overMemoryBudget) : Prog K V Bool) else pure false
        act (.unlock (.shard shard))
        return ⟨if config.maxItemsPerShard.isSome
          then Function.update state.counts index (state.counts index - 1) else state.counts,
          overWeight, state.evicted ++ [(candidate.key, v)]⟩

def sweep (config : EvictionConfig) (target : Option Nat) :
    List (EvictionCandidate K) → Sweep K V → Prog K V (List (K × V))
  | [], state => return state.evicted
  | candidate :: candidates, state => do
    let overEntries ← overCount target
    if config.maxItemsPerShard.isNone ∧ !overEntries ∧ !state.overWeight then
      return state.evicted
    else
      let index ← shardIndex env candidate.key
      let overShard := config.maxItemsPerShard.any fun limit => decide (limit < state.counts index)
      if !overEntries ∧ !overShard ∧ !state.overWeight then
        sweep config target candidates state
      else
        let valid : Bool ← act (.life (.validate candidate))
        if valid then
          match (← activeSlots)[index]? with
          | none => crash
          | some active =>
            let previous ← previousShard env candidate.key
            let state ← sweepShards config index candidate (active.toList ++ previous.toList) state
            sweep config target candidates state
        else
          sweep config target candidates state

/-- How many keys of both generations each slot is responsible for. -/
def countShards (config : EvictionConfig) : Prog K V (Nat → Nat) := do
  if config.maxItemsPerShard.isSome then
    (← allShards).foldlM (countShard env) fun _ => 0
  else return fun _ => 0

def selectCandidates (config : EvictionConfig) (policy : CapacityPolicy) (target : Option Nat)
    (overEntries overWeight : Bool) : Prog K V (List (EvictionCandidate K)) := do
  if config.maxItemsPerShard.isSome ∨ overEntries ∨ overWeight then
    let one ← oneOver target
    if config.maxItemsPerShard.isNone ∧ config.memoryBudget.isNone ∧ one then
      minimumCandidate policy
    else
      candidates policy
  else return []

/-- The exclusive-routing part of `run_eviction`. -/
def evictGlobal (config : EvictionConfig) (policy : CapacityPolicy) (target : Option Nat)
    (evicted : List (K × V)) : Prog K V (List (K × V)) := do
  act (.lock .routing .excl)
  mutation
  reconcileEvictionMetadata
  let observed : Nat ← act (.life .maintenanceGeneration)
  let counts ← countShards env config
  let overWeight : Bool ← act (.life .overMemoryBudget)
  let overEntries ← overCount target
  let candidates ← selectCandidates config policy target overEntries overWeight
  let evicted ← sweep env config target candidates ⟨counts, overWeight, evicted⟩
  finish
  act (.life (.markMaintained observed))
  act (.unlock .routing)
  return evicted

/-- `EvictionBatch::dispatch`. -/
def dispatch (started : Nat) (evicted : List (K × V)) : Prog K V Nat := do
  let now : Nat ← act .clock
  act .pop
  act (.life (.recordEvictionDuration (now - started)))
  act (.life (.dispatchCallbacks evicted))
  return evicted.length

/-- The map is clean and within its global limits. -/
def withinLimits (config : EvictionConfig) (target : Option Nat) : Prog K V Bool := do
  let dirty : Bool ← act (.life .dirty)
  if dirty ∨ config.maxItemsPerShard.isSome then
    return false
  else
    let overEntries ← overCount target
    if overEntries then
      return false
    else
      let overWeight : Bool ← act (.life .overMemoryBudget)
      return !overWeight

def runEviction (requested : Option Nat) (policy : Option CapacityPolicy) : Prog K V Nat :=
  match env.eviction with
  | none => return 0
  | some config => do
    let policy := policy.getD config.policy
    let started : Nat ← act .clock
    let observed : Nat ← act (.life .maintenanceGeneration)
    let target := match requested, config.maxEntries with
      | some requested, some configured => some (min requested configured)
      | requested, configured => requested <|> configured
    let within ← withinLimits config target
    if within then
      act (.life (.markMaintained observed))
      act (.life (.dispatchCallbacks []))
      return 0
    else
      act (.push (.batch started []))
      let dirty : Bool ← act (.life .dirty)
      match target, config.memoryBudget, dirty, config.maxItemsPerShard with
      | none, none, false, some limit =>
        let (evicted, complete) ← evictStable policy limit
        if complete then
          dispatch started evicted
        else
          let evicted ← evictGlobal env config policy target evicted
          dispatch started evicted
      | _, _, _, _ =>
        let evicted ← evictGlobal env config policy target []
        dispatch started evicted

def enforceEvictionLimits : Prog K V Unit := do
  let _ ← runEviction env none none

end Starshard.Sync
