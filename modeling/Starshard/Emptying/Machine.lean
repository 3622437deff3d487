import Starshard.Data.Failing
import Starshard.Migration.Machine

/-! `clear` and `drain` of an async map (`core/async_impl.rs`). Every `await` is a place
where the future may be dropped; user code is called where retained storage is copied and
where the metadata hooks follow the removal.

While a call waits for the routing lock other operations run; the program starts at the
state it finds when the lock is its own. -/
namespace Starshard.Emptying

open Data
open Worker (Tables Shards slot)

structure Shard where
  old : Bool
  index : Nat
  deriving DecidableEq

/-- `ShardData`: `Shared` storage is retained by `views` snapshots as well. -/
inductive Storage where
  | owned
  | shared (views : Nat)

structure Held (K V : Type) where
  map : Migration.State K V
  storage : Shard → Storage

inductive Await where
  | routing
  | shards
  | previous
  /-- The write guard that is collected as number `n`. -/
  | guard (n : Nat)
  /-- Inside `enforce_eviction_limits`. -/
  | maintenance (n : Nat)
  deriving DecidableEq

/-- How a call ends early. -/
inductive Cut where
  | dropped (place : Await)
  /-- User `Clone` unwinds while the storage of guard `n` is copied. -/
  | cloning (n : Nat)
  /-- User `Hash` or `Eq` unwinds in a metadata hook. -/
  | hook

/-- The cut comes before the removal. -/
def Cut.early : Cut → Bool
  | .dropped (.maintenance _) | .hook => false
  | _ => true

abbrev Program (K V α : Type) := Failing Cut (Held K V) α

variable {K V : Type}

def tableOf (g : Shard) (t : Tables K V) : Assoc K V :=
  if g.old then slot (t.previous.getD []) g.index else slot t.active g.index

/-- `slots.iter().flatten()`. -/
def initialized (old : Bool) (slots : Shards K V) : List Shard :=
  ((List.range slots.length).filter fun i => slots[i]?.join.isSome).map fun i => ⟨old, i⟩

/-- `map.drain()` behind a guard. -/
def emptyAt (g : Shard) (t : Tables K V) : Tables K V :=
  if g.old then
    { t with previous := t.previous.map fun p => p.modify g.index fun m => m.map fun _ => ∅ }
  else { t with active := t.active.modify g.index fun m => m.map fun _ => ∅ }

/-- What the program leaves open: the awaits at which the future is dropped, the user
calls that unwind, the views that come and go while a guard is collected, the clock and the
keys that maintenance selects. -/
structure Env (K : Type) where
  drops : Await → Bool
  /-- Call `j` of the copy of guard `n`. -/
  clonePanics : Nat → Nat → Bool
  hookPanics : Nat → Bool
  retained : Shard → Nat → Nat
  now : Nat
  selected : List K

section Program

variable (env : Env K)

def suspend (a : Await) : Program K V Unit := do
  if env.drops a then throw (.dropped a)

def user (panics : Nat → Bool) (c : Cut) : Nat → Program K V Unit
  | 0 => pure ()
  | n + 1 => do
    user panics c n
    if panics n then throw c

/-- `shard.clone().write_owned().await`. -/
def collect (g : Shard × Nat) : Program K V Unit := suspend env (.guard g.2)

/-- `&mut ***guard`: `Arc::make_mut` copies a map that views retain, with its hasher, its
keys and its values. -/
def detach (g : Shard × Nat) : Program K V Unit := do
  let s ← get
  match s.storage g.1 with
  | .owned => pure ()
  | .shared views =>
    if env.retained g.1 views ≠ 0 then
      user (env.clonePanics g.2) (.cloning g.2) (1 + 2 * (tableOf g.1 s.map.tables).size)
    set { s with storage := Function.update s.storage g.1 (.shared 0) }

/-- `removed.extend(map.drain())`. -/
def drainGuard (removed : List (K × V)) (g : Shard) : Program K V (List (K × V)) := do
  let s ← get
  set { s with map := { s.map with tables := emptyAt g s.map.tables } }
  return removed ++ (tableOf g s.map.tables).items

/-- From the first removal to the last store, without an await or user code. -/
def commit (guards : List Shard) : Program K V (List (K × V)) := do
  let removed ← guards.foldlM drainGuard []
  modify fun s => { s with map := { s.map with tables := { s.map.tables with previous := none } } }
  modify fun s => { s with
    map := { s.map with tables := { s.map.tables with previousShardCount := 0 } } }
  modify fun s => { s with map := { s.map with tracker := s.map.tracker.finish env.now } }
  modify fun s => { s with map := { s.map with totalLen := 0 } }
  if !removed.isEmpty then
    modify fun s => { s with map := { s.map with writeEpoch := (s.map.writeEpoch + 1) % 2 ^ 64 } }
  return removed

variable [DecidableEq K] (hash : K → Nat)

/-- Maintenance evicts a selected key that is stored. -/
def evict (k : K) (s : Migration.State K V) : Migration.State K V :=
  if (s.tables.lookup hash k).isSome then
    { s with
      tables := s.tables.remove hash k
      totalLen := s.totalLen - 1
      writeEpoch := (s.writeEpoch + 1) % 2 ^ 64 }
  else s

/-- `enforce_eviction_limits().await`. -/
def maintain (k : K × Nat) : Program K V Unit := do
  suspend env (.maintenance k.2)
  modify fun s => { s with map := evict hash k.1 s.map }

/-- Both calls, up to the order in which the guards are collected. -/
def removeAll (guards : Tables K V → List Shard) : Program K V (List (K × V)) := do
  suspend env .routing
  suspend env .shards
  suspend env .previous
  let s ← get
  let guards := guards s.map.tables
  guards.zipIdx.forM (collect env)
  guards.zipIdx.forM (detach env)
  let removed ← commit env guards
  user env.hookPanics .hook removed.length
  env.selected.zipIdx.forM (maintain env hash)
  suspend env (.maintenance env.selected.length)
  return removed

/-- The active generation first. -/
def clear : Program K V Unit := do
  let _ ← removeAll env hash fun t => initialized false t.active ++
    initialized true (t.previous.getD [])

/-- The previous generation first; the entries are those of the `DrainIterator`. -/
def drain : Program K V (List (K × V)) :=
  removeAll env hash fun t => initialized true (t.previous.getD []) ++
    initialized false t.active

end Program
end Starshard.Emptying
