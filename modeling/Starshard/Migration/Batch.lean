import Starshard.Migration.Sound

/-! `advance_rebalance_inner`: one migration batch under exclusive routing.

The sync and the async batch differ in the locks around the loop only. The caller is
`advance_rebalance` or `advance_rebalance_with_options`, so no generation is expected
and no handle can cancel. -/
namespace Starshard.Migration

open Data Worker

variable {K V : Type}

/-- What a batch does not determine: the readings of the clock, and the iteration order
of a source map at each moment it is copied. -/
structure Env (K V : Type) where
  now : Nat → Nat
  keys : Nat → Assoc K V → List K
  perm : ∀ n m, (keys n m).Perm m.keys

/-- `expect` is the panic of `move_one` when its source lost the selected key; `fuel` is
not an outcome of the source. -/
inductive Fault where
  | expect
  | fuel
  deriving DecidableEq

structure Budget where
  maxShards : Nat
  maxEntries : Nat
  pauseNs : Nat

/-- The variables of the loop, with the number of clock readings so far. The keys are
popped from the front. -/
structure Batch (K V : Type) where
  state : State K V
  workKeys : List K
  loadedIndex : Option Nat
  report : RebalanceBatchReport
  readings : Nat

def Batch.start (s : State K V) (readings : Nat) : Batch K V := ⟨s, [], none, .default, readings⟩

section Loop

variable (env : Env K V) (budget : Budget) (started : Nat)

/-- `work_keys.push`, until the pause budget is used up. -/
def pushKeys : List K → List K → Nat → List K × Nat
  | [], work, n => (work, n)
  | key :: keys, work, n =>
    if budget.pauseNs ≠ 0 ∧ budget.pauseNs ≤ env.now n - started then (key :: work, n + 1)
    else pushKeys keys (key :: work) (n + 1)

/-- Prepare the keys of a source slot, once. -/
def Batch.load (index : Nat) (source : Option (Assoc K V)) (b : Batch K V) : Batch K V :=
  if b.loadedIndex = some index then b
  else match source with
    | none => { b with loadedIndex := some index }
    | some m =>
      let keys := (env.keys b.readings m).take (budget.maxEntries - b.report.movedEntries)
      let work := pushKeys env budget started keys b.workKeys b.readings
      { b with workKeys := work.1, loadedIndex := some index, readings := work.2 }

variable [DecidableEq K] (hash : K → Nat)

/-- Pop a key and let `move_one` transfer its entry. -/
def Batch.moveKey (index : Nat) (source : Option (Assoc K V)) (b : Batch K V) :
    Except Fault (Batch K V) :=
  match source, b.workKeys with
  | some m, key :: rest =>
    match m.lookup key with
    | none => .error .expect
    | some _ => .ok { b with
        state := { b.state with
          tables := b.state.tables.move hash index key
          tracker := b.state.tracker.moved }
        workKeys := rest
        report := { b.report with movedEntries := b.report.movedEntries + 1 } }
  | _, keys => .ok { b with workKeys := keys.tail }

/-- `is_none_or(|source| source.is_empty())`. -/
def drainedSource (source : Option (Assoc K V)) : Bool := source.all fun m => decide (m.size = 0)

/-- Retire an empty source and count its slot. -/
def Batch.sweep (index : Nat) (b : Batch K V) : Batch K V :=
  { b with
    state := { b.state with
      tables := b.state.tables.retire index
      tracker := b.state.tracker.step }
    report := { b.report with completedShards := b.report.completedShards + 1 } }

/-- The end of an iteration, and whether the loop goes on. -/
def Batch.close (empty : Bool) (b : Batch K V) : Batch K V × Bool :=
  let status := b.state.tracker.snapshot
  if status.movedShards = status.totalShards then
    ({ b with
      state := { b.state with
        tables := b.state.tables.finish
        tracker := b.state.tracker.finish (env.now b.readings) }
      report := { b.report with complete := true }
      readings := b.readings + 1 }, false)
  else if (!empty && b.workKeys.isEmpty) = true ∨
      (budget.pauseNs ≠ 0 ∧ budget.pauseNs ≤ env.now b.readings - started) then
    ({ b with
      report := { b.report with budgetExhausted := true }
      readings := b.readings + 1 }, false)
  else ({ b with readings := b.readings + 1 }, true)

/-- One iteration. -/
def Batch.turn (b : Batch K V) : Except Fault (Batch K V × Bool) :=
  let index := b.state.tracker.snapshot.movedShards
  let source := b.state.tables.source index
  match (b.load env budget started index source).moveKey hash index source with
  | .error e => .error e
  | .ok b =>
    let empty := drainedSource (b.state.tables.source index)
    .ok ((if empty then b.sweep index else b).close env budget started empty)

def batchLoop : Nat → Batch K V → Except Fault (Batch K V)
  | 0, _ => .error .fuel
  | fuel + 1, b =>
    if b.report.completedShards < budget.maxShards ∧ b.report.movedEntries < budget.maxEntries then
      match b.turn env budget started hash with
      | .error e => .error e
      | .ok (b, true) => batchLoop fuel b
      | .ok (b, false) => .ok b
    else .ok b

/-- The report is completed and the timer dropped. -/
def Batch.finish (generation : Nat) (b : Batch K V) : Batch K V :=
  let elapsed := env.now b.readings - started
  { b with
    state := { b.state with
      tracker := b.state.tracker.recordBatch generation elapsed budget.pauseNs }
    report := { b.report with
      elapsedNs := elapsed
      budgetExhausted := b.report.budgetExhausted ||
        (!b.report.complete && decide (budget.maxEntries ≤ b.report.movedEntries)) }
    readings := b.readings + 1 }

end Loop

section Advance

variable [DecidableEq K] (env : Env K V) (hash : K → Nat)

def advanceRebalanceInner (budget : Budget) (fuel : Nat) (b : Batch K V) :
    Except Fault (Batch K V) :=
  if b.state.tracker.telemetry.paused ∨ budget.maxShards = 0 then
    .ok { b with report := .default }
  else if b.state.tracker.migrating = false then
    .ok { b with report := { RebalanceBatchReport.default with complete := true } }
  else
    let started := env.now b.readings
    match batchLoop env budget started hash fuel (.start b.state (b.readings + 1)) with
    | .error e => .error e
    | .ok done => .ok (done.finish env budget started b.state.tracker.telemetry.generation)

/-- `advance_rebalance(max_shards)`. -/
def advanceRebalance (maxShards fuel : Nat) (b : Batch K V) : Except Fault (Batch K V) :=
  advanceRebalanceInner env hash ⟨maxShards, usizeMax, 0⟩ fuel b

def advanceRebalanceWithOptions (options : RebalanceOptions) (fuel : Nat) (b : Batch K V) :
    Except Fault (Batch K V) :=
  advanceRebalanceInner env hash ⟨usizeMax, max options.batchSize 1, options.maxPauseNs⟩ fuel b

end Advance
end Starshard.Migration
