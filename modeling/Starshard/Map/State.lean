import Starshard.Concurrent.Machine
import Starshard.Data.Assoc
import Starshard.Rebalance
import Starshard.Types

/-! The shared state of a sharded map and the atomic actions its methods perform.

A shard is named by an allocation number, as an `Arc` is named by its pointer.
The two directories hold such names, `heap` holds what the shard locks protect.
One action is one access that other threads cannot split: a lock operation, a
hash-table operation under its lock, or one access to an atomic counter. -/
namespace Starshard

open Data Concurrent

/-- Calls of the lifecycle state (policy metadata, tickets, callbacks). -/
inductive LifeCall (K V : Type) where
  | mutation
  | abandon
  | markDirty
  | markPending
  | markMaintained (observed : Nat)
  | prepareInsert (k : K) (v : V)
  | recordInsert (k : K) (weight : Nat) (replaced : Bool)
  | dropPrepared (k : K)
  | recordRead (k : K)
  | recordRemove (k : K)
  | dirty
  | maintenanceGeneration
  | weight (k : K) (v : V)
  | reconcile (entries : List (K × Nat))
  | overMemoryBudget
  | candidates (policy : CapacityPolicy)
  | candidatesForKeys (policy : CapacityPolicy) (keys : List K)
  | minimumCandidate (policy : CapacityPolicy)
  | validate (candidate : EvictionCandidate K)
  | recordEviction (candidate : EvictionCandidate K)
  | recordEvictionDuration (duration : Nat)
  | dispatchCallbacks (entries : List (K × V))

namespace LifeCall

variable {K V : Type}

def Reply : LifeCall K V → Type
  | .prepareInsert _ _ | .maintenanceGeneration | .weight _ _ => Nat
  | .dirty | .overMemoryBudget | .validate _ => Bool
  | .candidates _ | .candidatesForKeys _ _ | .minimumCandidate _ => List (EvictionCandidate K)
  | _ => Unit

/-- The call may enter the estimator, `Hash`, `Eq`, `Clone` or a destructor. -/
def runsUserCode : LifeCall K V → Bool
  | .prepareInsert _ _ | .recordInsert _ _ _ | .recordRead _ | .recordRemove _ | .weight _ _
  | .reconcile _ | .candidatesForKeys _ _ | .dispatchCallbacks _ => true
  | _ => false

end LifeCall

/-- A lifecycle implementation: what its calls answer and how they change it. -/
structure Lifecycle (K V : Type) where
  State : Type
  initial : State
  step : (c : LifeCall K V) → State → c.Reply → State → Prop
  total : ∀ c s, ∃ r s', step c s r s'

/-- What a map is constructed with. -/
structure Env (K V : Type) where
  hash : K → Nat
  snapshotMode : SnapshotMode
  eviction : Option EvictionConfig
  /-- `PartialEq` of values. -/
  valueEq : V → V → Bool
  /-- Locks of the asynchronous map are awaited, so a call can end there. -/
  awaits : Bool

inductive LockId where
  | builder
  | rebalance
  | routing
  | active
  | previous
  | shard (id : Nat)
  | cache
  deriving DecidableEq

inductive Mode where
  | shared
  | excl
  deriving DecidableEq

/-- What a call owns and what its scopes undo when they are left. -/
inductive Guard (K V : Type) where
  | lock (l : LockId) (m : Mode)
  | mutation (id : Nat) (initialLen : Nat) (changed : Bool)
  | ticket
  | operation
  | prepared (k : K)
  | timer (generation started budget : Nat)
  | batch (started : Nat) (entries : List (K × V))
  | dispatch (entries : List (K × V))

abbrev Slots := List (Option Nat)

structure State (K V E : Type) where
  shards : Slots
  previous : Option Slots
  heap : Nat → Assoc K V
  next : Nat
  shardCount : Nat
  previousShardCount : Nat
  totalLen : Nat
  /-- How often `write_epoch` was advanced. -/
  published : Nat
  tracker : Progress
  cache : Option (Nat × List (K × V))
  metrics : Metrics
  life : E

/-- `write_epoch`, a `u64` that wraps. -/
def State.writeEpoch {K V E : Type} (s : State K V E) : Nat := wrapping s.published

/-- `build_with_count`. -/
def State.new (K V : Type) {E : Type} (count : Nat) (life : E) : State K V E where
  shards := List.replicate count none
  previous := none
  heap _ := ∅
  next := 0
  shardCount := count
  previousShardCount := 0
  totalLen := 0
  published := 0
  tracker := .default
  cache := none
  metrics := ⟨0, 0, 0, 0, 0, 0⟩
  life := life

inductive Act (K V : Type) where
  | lock (l : LockId) (m : Mode)
  | unlock (l : LockId)
  /-- User code: `Hash`, `Eq`, `Clone`, a closure, a predicate, a destructor. -/
  | user
  /-- An await that takes no lock. -/
  | yield
  /-- A failed `expect` or an index out of bounds. -/
  | crash
  /-- A loop that is still running when its fuel is used up. -/
  | diverge
  | push (g : Guard K V)
  | pop
  /-- `ShardMutation::changed = true`. -/
  | mark (id : Nat)
  /-- Hand an evicted entry to the open batch. -/
  | retire (k : K) (v : V)
  /-- The fields of the open `ShardMutation` of a shard. -/
  | opened (id : Nat)
  | shards
  | previous
  /-- `get_or_insert_with` on a directory slot. -/
  | initSlot (i : Nat)
  /-- `mem::replace` of the active directory, allocating the given shards. -/
  | install (maps : List (Option (Assoc K V)))
  /-- `mem::replace` of the previous directory. -/
  | setPrevious (slots : Option Slots)
  | get (id : Nat) (k : K)
  | len (id : Nat)
  | entries (id : Nat)
  | put (id : Nat) (k : K) (v : V)
  | take (id : Nat) (k : K)
  | drain (id : Nat)
  /-- The commit of `promote_entry` and `move_one`. -/
  | promote (dst src : Nat) (k : K)
  | shardCount
  | setShardCount (n : Nat)
  | previousShardCount
  | setPreviousShardCount (n : Nat)
  | totalLen
  | addLen (n : Nat)
  | subLen (n : Nat)
  | setLen (n : Nat)
  | writeEpoch
  | bump
  | tracker (f : Progress → Progress)
  | readCache
  | writeCache (c : Option (Nat × List (K × V)))
  | count (m : Metric)
  | life (c : LifeCall K V)
  | clock
  | cancelled
  /-- The iteration order of a temporary hash table of shard indices. -/
  | arrange (indices : List Nat)

def Resp {K V : Type} : Act K V → Type
  | .crash | .diverge => Empty
  | .opened _ => Nat × Bool
  | .shards | .install _ => Slots
  | .previous | .setPrevious _ => Option Slots
  | .initSlot _ | .len _ | .shardCount | .previousShardCount | .totalLen | .writeEpoch
  | .clock => Nat
  | .get _ _ | .put _ _ _ | .take _ _ => Option V
  | .entries _ | .drain _ => List (K × V)
  | .promote _ _ _ | .cancelled => Bool
  | .tracker _ => Progress
  | .readCache => Option (Nat × List (K × V))
  | .life c => c.Reply
  | .arrange _ => List Nat
  | _ => Unit

abbrev Prog (K V α : Type) := Program (Act K V) Resp α

/-- Perform one action. -/
def act {K V : Type} (a : Act K V) : Prog K V (Resp a) := Program.perform a

def crash {K V α : Type} : Prog K V α := .step .crash fun r => nomatch r

def diverge {K V α : Type} : Prog K V α := .step .diverge fun r => nomatch r

namespace ShardMutation

variable {K V : Type}

def new (id : Nat) : Prog K V Unit := do
  let initialLen : Nat ← act (.len id)
  act (.push (.mutation id initialLen false))

/-- `Drop`: account for the change of length, then publish. -/
def drop (id : Nat) : Prog K V Unit := do
  let (initialLen, changed) ← act (.opened id)
  let finalLen : Nat ← act (.len id)
  if finalLen > initialLen then
    act (.addLen (finalLen - initialLen))
  else if finalLen < initialLen then
    act (.subLen (initialLen - finalLen))
  if changed ∨ finalLen ≠ initialLen then
    act .bump
  act .pop

end ShardMutation

namespace Guard

variable {K V : Type}

def holds (l : LockId) : Guard K V → Bool
  | .lock l' _ => l' = l
  | _ => false

/-- Another guard that owns the same lock excludes `l` in mode `m`. -/
def excludes (l : LockId) (m : Mode) : Guard K V → Bool
  | .lock l' m' => l' = l ∧ (m = .excl ∨ m' = .excl)
  | _ => false

def mark (id : Nat) : Guard K V → Guard K V
  | .mutation id' n c => .mutation id' n (c || decide (id' = id))
  | g => g

def retire (k : K) (v : V) : Guard K V → Guard K V
  | .batch started entries => .batch started (entries ++ [(k, v)])
  | .dispatch entries => .dispatch (entries ++ [(k, v)])
  | g => g

/-- The open mutation of a shard, if this is it. -/
def opened? (id : Nat) : Guard K V → Option (Nat × Bool)
  | .mutation id' n c => if id' = id then some (n, c) else none
  | _ => none

/-- `Drop` of a guard while its call ends early. -/
def drop : Guard K V → Prog K V Unit
  | .lock l _ => act (.unlock l)
  | .mutation id _ _ => ShardMutation.drop id
  | .ticket => do
    act (.life .abandon)
    act .pop
  | .operation => do
    act (.life .markDirty)
    act (.life (.dispatchCallbacks []))
    act .pop
  | .prepared k => do
    act (.life (.dropPrepared k))
    act .pop
  | .timer generation started budget => do
    let now : Nat ← act .clock
    let _ ← act (.tracker (Progress.recordBatch generation (now - started) budget))
    act .pop
  | .batch started entries => do
    let now : Nat ← act .clock
    act (.life (.recordEvictionDuration (now - started)))
    act (.life (.dispatchCallbacks entries))
    act .pop
  | .dispatch entries => do
    act (.life (.dispatchCallbacks entries))
    act .pop

/-- Scopes are left from the innermost outwards. -/
def unwind : List (Guard K V) → Prog K V Unit
  | [] => pure ()
  | g :: gs => do
    g.drop
    unwind gs

/-- The innermost open mutation of a shard. -/
def opened (gs : List (Guard K V)) (id : Nat) : Option (Nat × Bool) :=
  gs.findSome? (opened? id)

end Guard

/-- Shard storage for the slots of a staged directory, from allocation number `next` on. -/
def allocate {K V : Type} (next : Nat) : List (Option (Assoc K V)) → Slots
  | [] => []
  | none :: maps => none :: allocate (next + 1) maps
  | some _ :: maps => some next :: allocate (next + 1) maps

def allocated {K V : Type} (heap : Nat → Assoc K V) (next : Nat)
    (maps : List (Option (Assoc K V))) (id : Nat) : Assoc K V :=
  if id < next then heap id else (maps[id - next]?.join).getD ∅

/-- `promote_entry` and `move_one`: an entry already in `dst` wins. -/
def promoted {K V : Type} [DecidableEq K] (heap : Nat → Assoc K V) (dst src : Nat) (k : K) :
    Nat → Assoc K V :=
  match (heap src).lookup k with
  | none => heap
  | some v =>
    let detached := Function.update heap src ((heap src).erase k)
    Function.update detached dst
      (if ((heap dst).lookup k).isSome then heap dst else (heap dst).insert k v)

section Semantics

variable {K V : Type} [DecidableEq K] (env : Env K V) (L : Lifecycle K V)

/-- The effect of one action on the shared state; `gs` are the guards afterwards. -/
def exec (G : Nat → List (Guard K V)) (t : Nat) : (a : Act K V) → State K V L.State → Resp a →
    State K V L.State → List (Guard K V) → Prop
  | .lock l m, s, _, s', gs =>
      (∀ u, ∀ g ∈ G u, ¬ g.excludes l m) ∧ s' = s ∧ gs = .lock l m :: G t
  | .unlock l, s, _, s', gs => s' = s ∧ gs = (G t).eraseP (Guard.holds l)
  | .user, s, _, s', gs | .yield, s, _, s', gs => s' = s ∧ gs = G t
  | .crash, _, _, _, _ | .diverge, _, _, _, _ => False
  | .push g, s, _, s', gs => s' = s ∧ gs = g :: G t
  | .pop, s, _, s', gs => s' = s ∧ gs = (G t).tail
  | .mark id, s, _, s', gs => s' = s ∧ gs = (G t).map (Guard.mark id)
  | .retire k v, s, _, s', gs => s' = s ∧ gs = (G t).map (Guard.retire k v)
  | .opened id, s, r, s', gs => Guard.opened (G t) id = some r ∧ s' = s ∧ gs = G t
  | .shards, s, r, s', gs => r = s.shards ∧ s' = s ∧ gs = G t
  | .previous, s, r, s', gs => r = s.previous ∧ s' = s ∧ gs = G t
  | .initSlot i, s, r, s', gs => gs = G t ∧
      match s.shards[i]? with
      | none => False
      | some (some id) => r = id ∧ s' = s
      | some none => r = s.next ∧
          s' = { s with
            shards := s.shards.set i (some s.next)
            heap := Function.update s.heap s.next ∅
            next := s.next + 1 }
  | .install maps, s, r, s', gs => r = s.shards ∧ gs = G t ∧
      s' = { s with
        shards := allocate s.next maps
        heap := allocated s.heap s.next maps
        next := s.next + maps.length }
  | .setPrevious slots, s, r, s', gs => r = s.previous ∧ gs = G t ∧
      s' = { s with previous := slots }
  | .get id k, s, r, s', gs => r = (s.heap id).lookup k ∧ s' = s ∧ gs = G t
  | .len id, s, r, s', gs => r = (s.heap id).size ∧ s' = s ∧ gs = G t
  | .entries id, s, r, s', gs => List.Perm r (s.heap id).items ∧ s' = s ∧ gs = G t
  | .put id k v, s, r, s', gs => r = (s.heap id).lookup k ∧ gs = G t ∧
      s' = { s with heap := Function.update s.heap id ((s.heap id).insert k v) }
  | .take id k, s, r, s', gs => r = (s.heap id).lookup k ∧ gs = G t ∧
      s' = { s with heap := Function.update s.heap id ((s.heap id).erase k) }
  | .drain id, s, r, s', gs => List.Perm r (s.heap id).items ∧ gs = G t ∧
      s' = { s with heap := Function.update s.heap id ∅ }
  | .promote dst src k, s, r, s', gs => r = ((s.heap src).lookup k).isSome ∧ gs = G t ∧
      s' = { s with heap := promoted s.heap dst src k }
  | .shardCount, s, r, s', gs => r = s.shardCount ∧ s' = s ∧ gs = G t
  | .setShardCount n, s, _, s', gs => s' = { s with shardCount := n } ∧ gs = G t
  | .previousShardCount, s, r, s', gs => r = s.previousShardCount ∧ s' = s ∧ gs = G t
  | .setPreviousShardCount n, s, _, s', gs =>
      s' = { s with previousShardCount := n } ∧ gs = G t
  | .totalLen, s, r, s', gs => r = s.totalLen ∧ s' = s ∧ gs = G t
  | .addLen n, s, _, s', gs => s' = { s with totalLen := s.totalLen + n } ∧ gs = G t
  -- an underflow would wrap; it is excluded like a crash
  | .subLen n, s, _, s', gs => n ≤ s.totalLen ∧ s' = { s with totalLen := s.totalLen - n } ∧ gs = G t
  | .setLen n, s, _, s', gs => s' = { s with totalLen := n } ∧ gs = G t
  | .writeEpoch, s, r, s', gs => r = s.writeEpoch ∧ s' = s ∧ gs = G t
  | .bump, s, _, s', gs => s' = { s with published := s.published + 1 } ∧ gs = G t
  | .tracker f, s, r, s', gs => r = s.tracker ∧ s' = { s with tracker := f s.tracker } ∧ gs = G t
  | .readCache, s, r, s', gs => r = s.cache ∧ s' = s ∧ gs = G t
  | .writeCache c, s, _, s', gs => s' = { s with cache := c } ∧ gs = G t
  | .count m, s, _, s', gs => s' = { s with metrics := s.metrics.count m } ∧ gs = G t
  | .life c, s, r, s', gs => (∃ e, L.step c s.life r e ∧ s' = { s with life := e }) ∧ gs = G t
  | .clock, s, _, s', gs | .cancelled, s, _, s', gs => s' = s ∧ gs = G t
  | .arrange indices, s, r, s', gs => List.Perm r indices ∧ s' = s ∧ gs = G t

/-- Where a call can end early and what it leaves behind. A panic of `Hash` while
a table rehashes in place loses the entries that were not rehashed yet. -/
def cut : Act K V → State K V L.State → State K V L.State → Prop
  | .user, s, s' => s' = s
  | .lock l _, s, s' => env.awaits ∧ l ≠ .cache ∧ s' = s
  | .yield, s, s' => env.awaits ∧ s' = s
  | .put id _ _, s, s' =>
      ∃ m, Assoc.Sub m (s.heap id) ∧ s' = { s with heap := Function.update s.heap id m }
  | .life c, s, s' => env.eviction.isSome ∧ c.runsUserCode ∧ ∃ e, s' = { s with life := e }
  | _, _, _ => False

/-- The machine on which the methods of a map run. -/
def semantics : Semantics (Act K V) Resp where
  Shared := State K V L.State
  Guard := Guard K V
  exec := exec L
  blocks a := match a with
    | .lock _ _ | .diverge => True
    | _ => False
  cut := cut env L
  unwind := Guard.unwind

end Semantics
end Starshard
