import Mathlib.Logic.Relation
import Starshard.Foreground.Batches
import Starshard.Foreground.Bulk

/-! Runs of a map: foreground operations between the sections of its migrations and of
its supervised workers. -/
namespace Starshard.Foreground

open Data
open Worker (Tables Shards slot)
open Migration (Flavor)

/-- A foreground operation that may change the directories; `clear` and `drain` are
sections of the migration machine. -/
inductive Operation (K V : Type) where
  | insert (k : K) (v : V)
  | remove (k : K)
  | getOrInsertWith (k : K) (f : Unit → V)
  | computeIfPresent (k : K) (f : V → Option V)
  | compareAndSwap (eq : V → V → Bool) (k : K) (expected new : V)
  | compareAndRemove (eq : V → V → Bool) (k : K) (expected : V)
  | retain (predicate : K → V → Bool)
  | executeTransaction (ops : List (TxnOp K V))
  | batchInsert (order : List Nat) (entries : List (K × V))
  | batchRemove (order : List Nat) (keys : List K)

variable {K V : Type} [DecidableEq K] (hash : K → Nat)

/-- The buckets of a batch are visited once each. -/
def Operation.Ordered (s : Live K V) : Operation K V → Prop
  | .batchInsert order entries =>
    order.Perm (Data.bucketize (fun e => s.index hash e.1) entries).keys
  | .batchRemove order keys => order.Perm (Data.bucketize (fun k => s.index hash k) keys).keys
  | _ => True

def Operation.apply (flavor : Flavor) (mode : SnapshotMode) (s : Live K V) :
    Operation K V → Live K V
  | .insert k v => (Foreground.insert hash k v s).2
  | .remove k => (Foreground.remove hash flavor mode k s).2
  | .getOrInsertWith k f => (Foreground.getOrInsertWith hash k f s).2
  | .computeIfPresent k f => (Foreground.computeIfPresent hash k f s).2
  | .compareAndSwap eq k expected new => (Foreground.compareAndSwap hash eq k expected new s).2
  | .compareAndRemove eq k expected => (Foreground.compareAndRemove hash eq k expected s).2
  | .retain predicate => Foreground.retain predicate s
  | .executeTransaction ops => (Foreground.executeTransaction hash mode ops s).2
  | .batchInsert order entries => (Foreground.batchInsert hash flavor order entries s).2
  | .batchRemove order keys => (Foreground.batchRemove hash flavor mode order keys s).2

def put (m : Migration.Map K V) (s : Migration.State K V) : Migration.Map K V where
  owner := { m.owner with tables := s.tables, tracker := s.tracker }
  totalLen := s.totalLen
  writeEpoch := s.writeEpoch

inductive Step (flavor : Flavor) (mode : SnapshotMode) :
    Migration.Map K V → Migration.Map K V → Prop where
  | route {l : Worker.Label K V} {m m' : Migration.Map K V} :
      Migration.Step hash flavor l m m' → Step flavor mode m m'
  -- the routing lock is free
  | operation {m : Migration.Map K V} (op : Operation K V) (metrics : Metrics) :
      m.owner.batch = none → op.Ordered hash ⟨m.state, metrics⟩ →
      (op.apply hash flavor mode ⟨m.state, metrics⟩).map.tables.entries.length <
        Migration.usizeMax →
      Step flavor mode m (put m (op.apply hash flavor mode ⟨m.state, metrics⟩).map)

/-- A state between two operations. -/
def Reachable (flavor : Flavor) (mode : SnapshotMode) (s : Migration.State K V) : Prop :=
  ∃ count m, 0 < count ∧ count < Migration.usizeMax ∧
    Relation.ReflTransGen (Step hash flavor mode) (Migration.Map.new K V count) m ∧
    m.owner.batch = none ∧ m.state = s

variable {hash}

theorem Operation.edited {s : Live K V} (h : Held hash s) (flavor : Flavor) (mode : SnapshotMode)
    (op : Operation K V) (ho : op.Ordered hash s) :
    Edited hash s (op.apply hash flavor mode s) := by
  cases op with
  | insert k v => exact (h.insert k v).2.toEdited
  | remove k => exact (h.remove flavor mode k).2.toEdited
  | getOrInsertWith k f => exact (h.getOrInsertWith k f).2.toEdited
  | computeIfPresent k f => exact (h.computeIfPresent k f).2.toEdited
  | compareAndSwap eq k expected new => exact (h.compareAndSwap eq k expected new).2.toEdited
  | compareAndRemove eq k expected => exact (h.compareAndRemove eq k expected).2.toEdited
  | retain predicate => exact (h.retain predicate).1
  | executeTransaction ops => exact h.executeTransaction mode ops
  | batchInsert order entries =>
    obtain ⟨_, hi, _⟩ := h.batchInsert flavor ho
    exact hi.edited
  | batchRemove order keys =>
    obtain ⟨_, hr, _⟩ := h.batchRemove flavor mode ho
    exact hr.edited

theorem held_of_sound {m : Migration.Map K V} (h : Migration.Sound hash m) (metrics : Metrics) :
    Held hash ⟨m.state, metrics⟩ := ⟨h.laid.placed, h.len, h.laid.migrating⟩

theorem sound_put {m : Migration.Map K V} (h : Migration.Sound hash m)
    (hb : m.owner.batch = none) {metrics : Metrics} {s : Live K V}
    (he : Edited hash ⟨m.state, metrics⟩ s)
    (hroom : s.map.tables.entries.length < Migration.usizeMax) :
    Migration.Sound hash (put m s.map) := by
  have ht : s.map.tracker = m.owner.tracker := he.tracker
  have hput : put m s.map =
      ⟨{ m.owner with tables := s.map.tables }, s.map.totalLen, s.map.writeEpoch⟩ := by
    unfold put
    rw [ht]
  rw [hput]
  exact {
    laid := h.laid.edit hb he.held.placed he.previous he.generations
    len := he.held.len
    room := hroom
    count := he.count.trans_lt h.count
    sources := fun p hp => by
      obtain ⟨q, hq, hlen, _⟩ := he.previous p hp
      rw [hlen]
      exact h.sources q hq
    completed := h.completed
    strict := fun hm _ => h.strict hm (Migration.not_swept_of_none hb)
    ends := fun hm => (h.ends hm).imp id fun hto => hto.trans he.count.symm }

theorem Step.sound {flavor : Flavor} {mode : SnapshotMode} {m m' : Migration.Map K V}
    (hs : Step hash flavor mode m m') (h : Migration.Sound hash m) : Migration.Sound hash m' := by
  cases hs with
  | route hs => exact h.step hs
  | operation op metrics hb ho hroom =>
    exact sound_put h hb (op.edited (held_of_sound h metrics) flavor mode ho) hroom

namespace Reachable

variable {flavor : Flavor} {mode : SnapshotMode} {s : Migration.State K V}

theorem run (h : Reachable hash flavor mode s) :
    ∃ m : Migration.Map K V, Migration.Sound hash m ∧ m.owner.batch = none ∧ m.state = s := by
  obtain ⟨count, m, hpos, hcap, hr, hb, hs⟩ := h
  refine ⟨m, ?_, hb, hs⟩
  clear hb hs
  induction hr with
  | refl => exact .new hpos hcap
  | tail _ hs ih => exact hs.sound ih

theorem sound (h : Reachable hash flavor mode s) : s.Sound hash := by
  obtain ⟨m, hm, hb, rfl⟩ := h.run
  exact hm.state hb

theorem held (h : Reachable hash flavor mode s) (metrics : Metrics) : Held hash ⟨s, metrics⟩ := by
  obtain ⟨m, hm, _, rfl⟩ := h.run
  exact held_of_sound hm metrics

end Reachable

theorem runs_of_replay {flavor : Flavor} (mode : SnapshotMode) {ls : List (Worker.Label K V)}
    {m m' : Migration.Map K V} (hr : Concurrent.Replay (Migration.Step hash flavor) m ls m') :
    Relation.ReflTransGen (Step hash flavor mode) m m' := by
  induction hr with
  | nil => exact .refl
  | cons hs _ ih => exact .head (.route hs) ih

/-- The runs of the migration machine are runs with no other operation. -/
theorem Reachable.of_migration {flavor : Flavor} {s : Migration.State K V}
    (h : Migration.Reachable hash flavor s) (mode : SnapshotMode) :
    Reachable hash flavor mode s := by
  obtain ⟨count, ls, m, ⟨hpos, hcap, hr⟩, hb, hs⟩ := h
  exact ⟨count, m, hpos, hcap, runs_of_replay mode hr, hb, hs⟩

end Starshard.Foreground
