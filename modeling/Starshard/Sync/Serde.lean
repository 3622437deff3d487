import Starshard.Sync.Session

/-! Serialization of the synchronous map. The serialized form is a shard count and a
sequence of entries; a deserialized map is built by insertion. -/
namespace Starshard.Sync

open Data Concurrent

variable {K V : Type} (env : Env K V)

/-- `SnapshotView::len`. -/
def SnapshotView.len (view : SnapshotView K V) : Nat := (view.shards.map List.length).sum

structure ShardedMapRepr (K V : Type) where
  shardCount : Nat
  entries : List (K × V)

/-- The representation, and the length announced before its entries. -/
def serialize : Prog K V (ShardedMapRepr K V × Nat) := do
  let view ← snapshotView
  return (⟨view.shardCount, view.items⟩, view.len)

/-- What callers of a map ask for: an operation, or the serialized form. -/
inductive Request (K V : Type) where
  | call (op : Op K V)
  | serialize

inductive Reply (K V : Type) where
  | answer (r : Answer K V)
  | form (repr : ShardedMapRepr K V) (length : Nat)

def serve [DecidableEq K] : Request K V → Prog K V (Reply K V)
  | .call op => return .answer (← answer env op)
  | .serialize => do
    let (repr, length) ← serialize
    return .form repr length

/-- The shard count `with_shards_and_hasher` builds the map with. -/
def ShardedMapRepr.count (repr : ShardedMapRepr K V) : Nat :=
  let sc := if repr.shardCount = 0 then DEFAULT_SHARDS else repr.shardCount
  cappedShardCount (normalizedShardCount sc) MAX_SHARDS

/-- The entries are inserted into a new map, in their order. -/
def insertEntries : List (K × V) → Prog K V Unit
  | [] => return
  | (k, v) :: entries => do
    let _ ← insert env k v
    insertEntries entries

/-- The map that is deserialized into, before its entries are inserted. -/
def ShardedMapRepr.empty {E : Type} (repr : ShardedMapRepr K V) (life : E) : State K V E :=
  State.new K V repr.count life

/-- `S::default()`, no capacity, and no snapshot cache. -/
def defaultEnv (hash : K → Nat) (valueEq : V → V → Bool) : Env K V :=
  ⟨hash, .clone, none, valueEq, false⟩

end Starshard.Sync
