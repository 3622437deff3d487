import Starshard.Worker.Supervision

/-! A map under migration, with its length and its write version beside the
directories and the tracker. The runs are those of the worker machine; this module
adds what each step does to the two counters. -/
namespace Starshard.Migration

open Data Worker
open Concurrent (Replay)

/-- `usize::MAX` and `u64::MAX`. -/
def usizeMax : Nat := 2 ^ 64 - 1

theorem strictShardCount_lt {n target : Nat} (h : strictShardCount n MAX_SHARDS = .ok target) :
    target < usizeMax :=
  Nat.lt_of_le_of_lt (strictShardCount_ok h).2 (by decide)

/-- What the sections under exclusive routing read and write. -/
structure State (K V : Type) where
  tables : Tables K V
  totalLen : Nat
  writeEpoch : Nat
  tracker : Progress

inductive Flavor where
  | sync
  | async
  deriving DecidableEq

section Staging

variable {K V : Type} [DecidableEq K] (hash : K → Nat)

/-- The sources of the async staging: the previous generation, then the active one. -/
def asyncEntries (t : Tables K V) : List (K × V) :=
  (t.previous.getD [] ++ t.active).flatMap fun m => (m.getD ∅).items

/-- Stage a copy of an entry; the last copy of a key wins. -/
def overwriteEntry (target : Nat) (maps : Shards K V) (e : K × V) : Shards K V :=
  insertAt (hash e.1 % target) e.1 e.2 maps

/-- The async `rebalance_to` with `background = false`. -/
def asyncStage (target : Nat) (t : Tables K V) : Tables K V where
  active := (asyncEntries t).foldl (overwriteEntry hash target) (List.replicate target none)
  previous := none
  shardCount := target
  previousShardCount := 0

/-- `destinations.iter().flatten().map(HashMap::len).sum()`. -/
def stagedLen (t : Tables K V) : Nat := (t.active.map fun m => (m.getD ∅).size).sum

/-- The replacement generation each map type stages. -/
def staged (flavor : Flavor) (target : Nat) (t : Tables K V) : Tables K V :=
  match flavor with
  | .sync => t.stage hash target
  | .async => asyncStage hash target t

end Staging

/-- A map in a run, possibly in the middle of a batch. -/
structure Map (K V : Type) where
  owner : Worker.State K V
  totalLen : Nat
  writeEpoch : Nat

variable {K V : Type}

def Map.state (m : Map K V) : State K V :=
  ⟨m.owner.tables, m.totalLen, m.writeEpoch, m.owner.tracker⟩

def Map.new (K V : Type) (count : Nat) : Map K V := ⟨.new K V count, 0, 0⟩

variable [DecidableEq K] (hash : K → Nat)

def lenAfter (l : Label K V) (t t' : Tables K V) (len : Nat) : Nat :=
  match l with
  | .insert k _ => if (t.lookup hash k).isSome then len else len + 1
  | .remove k => if (t.lookup hash k).isSome then len - 1 else len
  | .wipe | .clear _ => len - (t.entries.length - t'.entries.length)
  | _ => len

/-- One step of a run. `room` is the memory of the machine: every entry takes a byte. -/
inductive Step (flavor : Flavor) : Label K V → Map K V → Map K V → Prop where
  | step {l : Label K V} {m : Map K V} {owner : Worker.State K V} {epoch : Nat} :
      Worker.Step hash l m.owner owner → (l = .staged true → flavor = .sync) →
      (l.begins = true → owner.tracker.migrating = true →
        owner.tracker.telemetry.initialEntries = m.totalLen) →
      (if l.writes then ∃ n, epoch = (m.writeEpoch + n) % 2 ^ 64 else epoch = m.writeEpoch) →
      owner.tables.entries.length < usizeMax →
      Step flavor l m
        ⟨owner, lenAfter hash l m.owner.tables owner.tables m.totalLen, epoch⟩
  -- `clear` and `drain` of an async map hold all shards and store the length once
  | drain {m : Map K V} (now : Nat) : flavor = .async → m.owner.batch = none →
      Step flavor
        (.clear (if m.owner.tracker.migrating then some m.owner.tracker.telemetry.generation
          else none)) m
        ⟨{ m.owner with
            tables := m.owner.tables.clear
            tracker := m.owner.tracker.finish now }, 0, (m.writeEpoch + 1) % 2 ^ 64⟩
  | staged {m : Map K V} {target : Nat} (n elapsed : Nat) : flavor = .async →
      m.owner.batch = none → strictShardCount n MAX_SHARDS = .ok target →
      ¬ (target = m.owner.tables.shardCount ∧ m.owner.tracker.migrating = false) →
      Step flavor (.staged true) m
        ⟨{ m.owner with
            tables := asyncStage hash target m.owner.tables
            tracker := m.owner.tracker.finishStaged m.owner.tables.shardCount target
              (stagedLen (asyncStage hash target m.owner.tables)) elapsed },
          stagedLen (asyncStage hash target m.owner.tables), m.writeEpoch⟩

/-- A run of a new map with `count` shards, whatever the cap its constructor was given. -/
def Run (flavor : Flavor) (count : Nat) (ls : List (Label K V)) (m : Map K V) : Prop :=
  0 < count ∧ count < usizeMax ∧ Replay (Step hash flavor) (Map.new K V count) ls m

/-- A state in which no batch holds the routing lock. -/
def Reachable (flavor : Flavor) (s : State K V) : Prop :=
  ∃ count ls m, Run hash flavor count ls m ∧ m.owner.batch = none ∧ m.state = s

namespace Reachable

variable {hash} {flavor : Flavor}

theorem new {count : Nat} (hpos : 0 < count) (hcap : count < usizeMax) :
    Reachable hash flavor (Map.new K V count).state :=
  ⟨count, [], _, ⟨hpos, hcap, .nil⟩, rfl, rfl⟩

theorem snoc {s s' : State K V} (h : Reachable hash flavor s)
    (hs : ∀ m : Map K V, m.owner.batch = none → m.state = s →
      ∃ l m', Step hash flavor l m m' ∧ m'.owner.batch = none ∧ m'.state = s') :
    Reachable hash flavor s' := by
  obtain ⟨count, ls, m, hr, hb, hm⟩ := h
  obtain ⟨l, m', hs, hb', hm'⟩ := hs m hb hm
  exact ⟨count, ls ++ [l], m', ⟨hr.1, hr.2.1, hr.2.2.append (.single hs)⟩, hb', hm'⟩

theorem insert {s : State K V} (h : Reachable hash flavor s) (k : K) (v : V)
    (hroom : (s.tables.insert hash k v).entries.length < usizeMax) :
    Reachable hash flavor ⟨s.tables.insert hash k v,
      if (s.tables.lookup hash k).isSome then s.totalLen else s.totalLen + 1,
      (s.writeEpoch + 1) % 2 ^ 64, s.tracker⟩ := by
  refine h.snoc fun m hb hm => ?_
  subst hm
  exact ⟨_, _, .step (.insert k v hb) nofun (fun hl => by cases hl) ((if_pos rfl).mpr ⟨1, rfl⟩)
    hroom, hb, rfl⟩

theorem start {s : State K V} (h : Reachable hash flavor s) {target : Nat} (n now : Nat)
    (ht : strictShardCount n MAX_SHARDS = .ok target) (hm : s.tracker.migrating = false)
    (hne : target ≠ s.tables.shardCount)
    (hroom : (s.tables.begin target).entries.length < usizeMax) :
    Reachable hash flavor ⟨s.tables.begin target, s.totalLen, s.writeEpoch,
      s.tracker.beginWithCounts s.tables.shardCount target s.totalLen now⟩ := by
  refine h.snoc fun m hb hs => ?_
  subst hs
  exact ⟨_, _, .step (.start n m.totalLen now hb ht hm hne) nofun (fun _ _ => rfl)
    ((if_neg Bool.false_ne_true).mpr rfl) hroom, hb, rfl⟩

end Reachable

end Starshard.Migration
