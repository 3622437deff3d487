import Starshard.Sync.Map

/-! Snapshots of the synchronous map. Builders are serialized; a builder holds
routing, both directories and every allocated shard while it reads the epoch and
the data. Cached data is validated by its epoch alone. -/
namespace Starshard.Sync

open Data Concurrent

variable {K V : Type} (env : Env K V)

def lockAllShared (shards : List Nat) : Prog K V Unit := do
  let _ ← shards.mapM fun shard => act (.lock (.shard shard) .shared)

/-- `guard.snapshot()`: a copy, or the shared storage in Cow mode. -/
def copyShard (shard : Nat) : Prog K V (List (K × V)) := do
  let entries : List (K × V) ← act (.entries shard)
  act .user
  return entries

/-- The captured epoch, the shard count and the data of every allocated shard.
`capture_view_data` and `collect_into` lock, read and release alike. -/
def captureViewData : Prog K V (Nat × Nat × List (List (K × V))) := do
  act (.lock .routing .shared)
  act (.lock .active .shared)
  act (.lock .previous .shared)
  let active : Slots ← act .shards
  let previous : Option Slots ← act .previous
  let shards := allocatedShards active ++ allocatedShards (previous.getD [])
  lockAllShared shards
  let epoch : Nat ← act .writeEpoch
  let contents ← shards.mapM copyShard
  unlockAll shards
  act (.unlock .previous)
  act (.unlock .active)
  act (.unlock .routing)
  return (epoch, active.length, contents)

structure SnapshotView (K V : Type) where
  shards : List (List (K × V))
  version : Nat
  shardCount : Nat

/-- `SnapshotView::iter`. -/
def SnapshotView.items (view : SnapshotView K V) : List (K × V) := view.shards.flatten

def snapshotView : Prog K V (SnapshotView K V) := do
  act (.lock .builder .excl)
  let (epoch, shardCount, shards) ← captureViewData
  act (.unlock .builder)
  return ⟨shards, epoch, shardCount⟩

def cachedSnapshot : Prog K V (Option (Nat × List (K × V))) := do
  if env.snapshotMode = .clone then
    return none
  else
    act (.lock .cache .excl)
    let cache : Option (Nat × List (K × V)) ← act .readCache
    match cache with
    | none =>
      act (.unlock .cache)
      return none
    | some (epoch, data) =>
      let current : Nat ← act .writeEpoch
      act (.unlock .cache)
      return if epoch = current then some (epoch, data) else none

/-- Replace the cache; the pair is labelled with the epoch it was captured at. -/
def storeSnapshot (epoch : Nat) (items : List (K × V)) : Prog K V Unit := do
  if env.snapshotMode ≠ .clone then
    act (.lock .cache .excl)
    act (.writeCache (some (epoch, items)))
    act (.unlock .cache)

def captureSnapshot : Prog K V (Nat × List (K × V)) := do
  match ← cachedSnapshot env with
  | some snapshot => return snapshot
  | none =>
    act (.lock .builder .excl)
    match ← cachedSnapshot env with
    | some snapshot =>
      act (.unlock .builder)
      return snapshot
    | none =>
      let (epoch, _, shards) ← captureViewData
      act .user
      storeSnapshot env epoch shards.flatten
      act (.unlock .builder)
      act .user
      return (epoch, shards.flatten)

/-- `collect_with`: the data without a version. -/
def collectWith : Prog K V (List (K × V)) := do
  act (.lock .builder .excl)
  let (_, _, shards) ← captureViewData
  act (.unlock .builder)
  act .user
  return shards.flatten

def iter : Prog K V (List (K × V)) := do
  if env.snapshotMode = .clone then
    collectWith
  else
    let (_, items) ← captureSnapshot env
    act .user
    return items

def snapshotAtVersion (version : Nat) : Prog K V (Option (List (K × V))) := do
  let current : Nat ← act .writeEpoch
  if version ≠ current then
    return none
  else
    let (captured, items) ← captureSnapshot env
    return if version = captured then some items else none

end Starshard.Sync
