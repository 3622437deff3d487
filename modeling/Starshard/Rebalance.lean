import Starshard.Types

/-! The rebalance tracker: generation, pause and progress metadata of migrations.
Every tracker method runs under the tracker's own mutex, so each one is a single
function on `Progress`. Times are readings of a monotone clock in nanoseconds. The `usize`
counters of the batches wrap, as in a release build; those of the shards and of the entries
stay below the counts they are compared with. -/
namespace Starshard

structure RebalanceTelemetry where
  generation : Nat
  fromShards : Nat
  toShards : Nat
  initialEntries : Nat
  movedEntries : Nat
  completedShards : Nat
  totalShards : Nat
  batches : Nat
  lastPauseNs : Nat
  maxPauseNs : Nat
  budgetOverruns : Nat
  elapsedNs : Nat
  paused : Bool
  workerRunning : Bool
  complete : Bool
  deriving DecidableEq

def RebalanceTelemetry.default : RebalanceTelemetry :=
  ⟨0, 0, 0, 0, 0, 0, 0, 0, 0, 0, 0, 0, false, false, false⟩

structure Progress where
  migrating : Bool
  started : Option Nat
  workerGeneration : Option Nat
  telemetry : RebalanceTelemetry
  deriving DecidableEq

structure RebalanceStatus where
  migrating : Bool
  movedShards : Nat
  totalShards : Nat
  deriving DecidableEq

namespace Progress

def default : Progress := ⟨false, none, none, .default⟩

/-- `u64::wrapping_add(1)`. -/
def nextGeneration (generation : Nat) : Nat := (generation + 1) % 2 ^ 64

def beginWithCounts (fromShards toShards initialEntries now : Nat) (p : Progress) : Progress :=
  { p with
    migrating := true
    started := some now
    telemetry := { RebalanceTelemetry.default with
      generation := nextGeneration p.telemetry.generation
      fromShards := fromShards
      toShards := toShards
      initialEntries := initialEntries
      totalShards := fromShards } }

def step (p : Progress) : Progress :=
  { p with telemetry := { p.telemetry with completedShards := p.telemetry.completedShards + 1 } }

def moved (p : Progress) : Progress :=
  { p with telemetry := { p.telemetry with movedEntries := p.telemetry.movedEntries + 1 } }

/-- Publish a successfully staged stop-the-world generation in one update. -/
def finishStaged (fromShards toShards movedEntries elapsed : Nat) (p : Progress) : Progress :=
  { p with
    migrating := false
    started := none
    telemetry := { RebalanceTelemetry.default with
      generation := nextGeneration p.telemetry.generation
      fromShards := fromShards
      toShards := toShards
      initialEntries := movedEntries
      movedEntries := movedEntries
      completedShards := fromShards
      totalShards := fromShards
      batches := 1
      lastPauseNs := elapsed
      maxPauseNs := elapsed
      elapsedNs := elapsed
      complete := true } }

def recordBatch (generation elapsed budget : Nat) (p : Progress) : Progress :=
  if p.telemetry.generation ≠ generation then p
  else
    { p with telemetry := { p.telemetry with
      batches := wrapping (p.telemetry.batches + 1)
      lastPauseNs := elapsed
      maxPauseNs := max p.telemetry.maxPauseNs elapsed
      budgetOverruns := wrapping (p.telemetry.budgetOverruns +
        if budget ≠ 0 ∧ elapsed > budget then 1 else 0) } }

def finish (now : Nat) (p : Progress) : Progress :=
  { p with
    migrating := false
    started := none
    telemetry := { p.telemetry with
      paused := false
      complete := true
      elapsedNs := match p.started with
        | some started => now - started
        | none => p.telemetry.elapsedNs } }

/-- `state` and `progress` of the source are functions of these three fields. -/
def snapshot (p : Progress) : RebalanceStatus :=
  if p.migrating then ⟨true, p.telemetry.completedShards, p.telemetry.totalShards⟩
  else ⟨false, 0, 0⟩

def readTelemetry (now : Nat) (p : Progress) : RebalanceTelemetry :=
  { p.telemetry with
    elapsedNs := match p.started with
      | some started => now - started
      | none => p.telemetry.elapsedNs
    workerRunning := p.workerGeneration = some p.telemetry.generation }

/-- The caller is told whether a migration was active. -/
def pause (paused : Bool) (p : Progress) : Progress :=
  if p.migrating then { p with telemetry := { p.telemetry with paused := paused } } else p

def hasWorker (p : Progress) : Bool := p.workerGeneration.isSome

/-- `none` when the claim is rejected. -/
def claimWorker (generation : Nat) (p : Progress) : Option Progress :=
  if p.workerGeneration.isSome ∨ p.telemetry.generation ≠ generation then none
  else some { p with workerGeneration := some generation }

def releaseWorker (generation : Nat) (p : Progress) : Progress :=
  if p.workerGeneration = some generation then { p with workerGeneration := none } else p

/-- What only the owner of exclusive routing may change. -/
structure Layout where
  migrating : Bool
  toShards : Nat
  completedShards : Nat
  totalShards : Nat

def layout (p : Progress) : Layout :=
  ⟨p.migrating, p.telemetry.toShards, p.telemetry.completedShards, p.telemetry.totalShards⟩

@[simp] theorem layout_pause (b : Bool) (p : Progress) : (p.pause b).layout = p.layout := by
  unfold pause
  split <;> rfl

@[simp] theorem layout_recordBatch (n e b : Nat) (p : Progress) :
    (p.recordBatch n e b).layout = p.layout := by
  unfold recordBatch
  split <;> rfl

@[simp] theorem layout_moved (p : Progress) : p.moved.layout = p.layout := rfl

end Progress
end Starshard
