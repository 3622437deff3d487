import Mathlib.Algebra.GroupWithZero.Nat
import Mathlib.Data.Option.Basic

/-! Configuration constants, options and results shared by both map types. -/
namespace Starshard

/-- A `u64` or a `usize` after an addition that wraps. -/
def wrapping (n : Nat) : Nat := n % 2 ^ 64

theorem wrapping_of_lt {n : Nat} (h : n < 2 ^ 64) : wrapping n = n := Nat.mod_eq_of_lt h

theorem wrapping_lt (n : Nat) : wrapping n < 2 ^ 64 := Nat.mod_lt n (Nat.two_pow_pos 64)

@[simp] theorem wrapping_zero : wrapping 0 = 0 := rfl

/-- Increments wrap one by one or all at once. -/
@[simp] theorem wrapping_wrapping_add (n m : Nat) :
    wrapping (wrapping n + m) = wrapping (n + m) := Nat.mod_add_mod n (2 ^ 64) m

/-- Default shard count; hashing is modulo the count. -/
def DEFAULT_SHARDS : Nat := 64

/-- The cap of the plain constructors and of rebalances; the `_capped` constructors take
their own. -/
def MAX_SHARDS : Nat := 262144

inductive SnapshotMode where
  | clone
  | cached
  | cow
  deriving DecidableEq, Repr

structure ShardCountError where
  requested : Nat
  maxAllowed : Nat
  deriving DecidableEq, Repr

def normalizedShardCount (shardCount : Nat) : Nat :=
  if shardCount = 0 then DEFAULT_SHARDS else shardCount

def strictShardCount (shardCount maxShards : Nat) : Except ShardCountError Nat :=
  let requested := normalizedShardCount shardCount
  if requested > maxShards then .error ⟨requested, maxShards⟩ else .ok requested

def cappedShardCount (shardCount maxShards : Nat) : Nat :=
  min (normalizedShardCount shardCount) maxShards

theorem normalizedShardCount_pos (n : Nat) : 0 < normalizedShardCount n := by
  unfold normalizedShardCount DEFAULT_SHARDS
  split <;> omega

theorem strictShardCount_ok {n m target : Nat} (h : strictShardCount n m = .ok target) :
    0 < target ∧ target ≤ m := by
  unfold strictShardCount at h
  dsimp only at h
  split at h
  · cases h
  · cases h
    exact ⟨normalizedShardCount_pos n, by omega⟩

structure RebalanceOptions where
  background : Bool
  batchSize : Nat
  maxPauseNs : Nat

structure RebalanceReport where
  fromShards : Nat
  toShards : Nat
  movedEntries : Nat
  elapsedMs : Nat

/-- Result of a bounded entry migration batch. -/
structure RebalanceBatchReport where
  movedEntries : Nat
  completedShards : Nat
  elapsedNs : Nat
  budgetExhausted : Bool
  complete : Bool

def RebalanceBatchReport.default : RebalanceBatchReport := ⟨0, 0, 0, false, false⟩

inductive CasResult (V : Type) where
  | success (v : V)
  | failure (v : V)
  deriving DecidableEq

inductive TxnOp (K V : Type) where
  | read (k : K)
  | write (k : K) (v : V)
  | remove (k : K)

def TxnOp.key {K V : Type} : TxnOp K V → K
  | .read k | .write k _ | .remove k => k

inductive TransactionResult where
  | committed
  | aborted
  deriving DecidableEq

inductive CapacityPolicy where
  | lru
  | lfu
  | fifo

/-- The limits of a configured map; the estimator itself belongs to the lifecycle. -/
structure EvictionConfig where
  policy : CapacityPolicy
  maxEntries : Option Nat
  maxItemsPerShard : Option Nat
  memoryBudget : Option Nat

structure EvictionCandidate (K : Type) where
  key : K
  weight : Nat
  hash : Nat
  epoch : Nat
  incarnation : Nat
  inserted : Nat
  accessed : Nat
  frequency : Nat

structure Metrics where
  inserts : UInt64
  removes : UInt64
  gets : UInt64
  hits : UInt64
  misses : UInt64
  evictions : UInt64
  deriving DecidableEq

inductive Metric where
  | inserts
  | removes
  | gets
  | hits
  | misses
  | evictions

def Metrics.count (m : Metrics) : Metric → Metrics
  | .inserts => { m with inserts := m.inserts + 1 }
  | .removes => { m with removes := m.removes + 1 }
  | .gets => { m with gets := m.gets + 1 }
  | .hits => { m with hits := m.hits + 1 }
  | .misses => { m with misses := m.misses + 1 }
  | .evictions => { m with evictions := m.evictions + 1 }

end Starshard
