import Starshard.Sync.Map

/-! Bounded migration of the synchronous map. -/
namespace Starshard.Sync

open Data Concurrent

variable {K V : Type} (env : Env K V)

def usizeMax : Nat := 2 ^ 64 - 1

/-- Set the previous generation aside; routing and both directories are held. -/
def beginMigration (current target : Nat) : Prog K V Unit := do
  let old : Slots ← act (.install (List.replicate target none))
  let _ ← act (.setPrevious (some old))
  act (.setPreviousShardCount current)
  act (.setShardCount target)
  act (.life .markPending)
  let len : Nat ← act .totalLen
  let now : Nat ← act .clock
  let _ ← act (.tracker (Progress.beginWithCounts current target len now))

def readTracker : Prog K V Progress := act (.tracker id)

def startRebalanceOnline (newShardCount : Nat) : Prog K V (Except ShardCountError Unit) :=
  match strictShardCount newShardCount MAX_SHARDS with
  | .error e => return .error e
  | .ok target => do
    act (.lock .routing .excl)
    let progress ← readTracker
    let count : Nat ← act .shardCount
    if progress.migrating ∨ target = count then
      act (.unlock .routing)
      return .ok ()
    else
      act (.lock .active .excl)
      act (.lock .previous .excl)
      let slots : Slots ← act .shards
      beginMigration slots.length target
      act (.unlock .previous)
      act (.unlock .active)
      act (.unlock .routing)
      return .ok ()

def pauseRebalance : Prog K V Bool := do
  act (.lock .routing .excl)
  let progress : Progress ← act (.tracker (Progress.pause true))
  act (.unlock .routing)
  return progress.migrating

def resumeRebalance : Prog K V Bool := do
  let progress : Progress ← act (.tracker (Progress.pause false))
  return progress.migrating

/-- What one call of `advance_rebalance_inner` is limited by. -/
structure Budget where
  maxShards : Nat
  maxEntries : Nat
  pauseNs : Nat
  expected : Option Nat
  /-- A supervised worker can be cancelled. -/
  supervised : Bool

structure Batch (K : Type) where
  workKeys : List K
  loaded : Option Nat
  report : RebalanceBatchReport

def cancelled (budget : Budget) : Prog K V Bool :=
  if budget.supervised then act .cancelled else return false

/-- `pause_ns != 0 && elapsed_ns(timer.started) >= pause_ns`. -/
def pauseElapsed (budget : Budget) (started : Nat) : Prog K V Bool := do
  if budget.pauseNs = 0 then
    return false
  else
    let now : Nat ← act .clock
    return decide (budget.pauseNs ≤ now - started)

/-- Copy keys until the pause budget is used up. -/
def loadKeys (budget : Budget) (started : Nat) : List K → Prog K V (List K)
  | [] => return []
  | k :: keys => do
    act .user
    if ← pauseElapsed budget started then
      return [k]
    else
      let rest ← loadKeys budget started keys
      return k :: rest

def loadWork (budget : Budget) (started index : Nat) (source : Option Nat) (batch : Batch K) :
    Prog K V (List K) :=
  if batch.loaded = some index then return batch.workKeys
  else match source with
    | none => return batch.workKeys
    | some source => do
      act (.lock (.shard source) .shared)
      let entries : List (K × V) ← act (.entries source)
      let keys ← loadKeys budget started
        ((entries.map Prod.fst).take (budget.maxEntries - batch.report.movedEntries))
      act (.unlock (.shard source))
      return batch.workKeys ++ keys

/-- `move_one`; its `expect` names the selected source key. -/
def moveOne (target source : Nat) (k : K) : Prog K V Unit := do
  act .user
  let found : Bool ← act (.promote target source k)
  if found then return else crash

/-- Move one entry under both shard locks. -/
def moveEntry (toShards source : Nat) (k : K) : Prog K V Unit := do
  let target ← getOrInitShard (← shardIndex env k)
  act (.lock (.shard target) .excl)
  act (.lock (.shard source) .excl)
  act .user
  -- `initial_entries.div_ceil(to_shards)` sizes an empty target
  if toShards = 0 then crash else moveOne target source k
  let _ ← act (.tracker Progress.moved)
  act (.unlock (.shard source))
  act (.unlock (.shard target))

def sourceEmpty (index : Nat) : Prog K V Bool := do
  act (.lock .previous .shared)
  let slots : Option Slots ← act .previous
  match slotAt slots index with
  | none =>
    act (.unlock .previous)
    return true
  | some source =>
    act (.lock (.shard source) .shared)
    let len : Nat ← act (.len source)
    act (.unlock (.shard source))
    act (.unlock .previous)
    return decide (len = 0)

/-- Retire a drained source slot. -/
def retireSource (index : Nat) : Prog K V Unit := do
  act (.lock .previous .excl)
  let slots : Option Slots ← act .previous
  let _ ← act (.setPrevious (slots.map fun slots => slots.set index none))
  act (.unlock .previous)
  let _ ← act (.tracker Progress.step)

/-- Both generations are one again. -/
def finishMigration : Prog K V Unit := do
  act (.lock .previous .excl)
  let _ ← act (.setPrevious none)
  act (.unlock .previous)
  act (.setPreviousShardCount 0)
  let now : Nat ← act .clock
  let _ ← act (.tracker (Progress.finish now))

/-- Pop a prepared key and move its entry; the keys that remain, and whether one moved. -/
def moveWork (toShards : Nat) (source : Option Nat) (workKeys : List K) :
    Prog K V (List K × Bool) :=
  match source, workKeys.getLast? with
  | some source, some k => do
    moveEntry env toShards source k
    return (workKeys.dropLast, true)
  | _, _ => return (workKeys.dropLast, false)

def batchLoop (budget : Budget) (toShards started : Nat) :
    Nat → Batch K → Prog K V RebalanceBatchReport
  | 0, _ => diverge
  | fuel + 1, batch => do
    let report := batch.report
    if ¬ (report.completedShards < budget.maxShards ∧
        report.movedEntries < budget.maxEntries) then
      return report
    else if ← cancelled budget then
      return report
    else
      let index := (← readTracker).snapshot.movedShards
      let source := slotAt (← previousSlots) index
      let workKeys ← loadWork budget started index source batch
      let (workKeys, moved) ← moveWork env toShards source workKeys
      let report := if moved then { report with movedEntries := report.movedEntries + 1 }
        else report
      let empty ← sourceEmpty index
      if empty then
        retireSource index
      let report := if empty then { report with completedShards := report.completedShards + 1 }
        else report
      let status := (← readTracker).snapshot
      if status.movedShards = status.totalShards then
        finishMigration
        return { report with complete := true }
      else
        let elapsed ← pauseElapsed budget started
        if (!empty ∧ workKeys.isEmpty) ∨ elapsed then
          return { report with budgetExhausted := true }
        else
          batchLoop budget toShards started fuel ⟨workKeys, some index, report⟩

def advanceRebalanceInner (fuel : Nat) (budget : Budget) : Prog K V RebalanceBatchReport := do
  act (.lock .routing .excl)
  let now : Nat ← act .clock
  let telemetry := (← readTracker).readTelemetry now
  let stopped ← cancelled budget
  if (budget.expected.any fun generation => decide (generation ≠ telemetry.generation)) ∨
      telemetry.paused ∨ stopped ∨ budget.maxShards = 0 then
    act (.unlock .routing)
    return .default
  else if !(← readTracker).migrating then
    act (.unlock .routing)
    return { RebalanceBatchReport.default with complete := true }
  else
    let started : Nat ← act .clock
    act (.push (.timer telemetry.generation started budget.pauseNs))
    let report ← batchLoop env budget telemetry.toShards started fuel ⟨[], none, .default⟩
    let now : Nat ← act .clock
    (Guard.timer telemetry.generation started budget.pauseNs).drop
    act (.unlock .routing)
    act .user
    return { report with
      elapsedNs := now - started
      budgetExhausted := report.budgetExhausted ||
        (!report.complete && decide (budget.maxEntries ≤ report.movedEntries)) }

def advanceRebalance (fuel maxShards : Nat) : Prog K V Nat := do
  let report ← advanceRebalanceInner env fuel ⟨maxShards, usizeMax, 0, none, false⟩
  return report.completedShards

def advanceRebalanceWithOptions (fuel : Nat) (options : RebalanceOptions) :
    Prog K V RebalanceBatchReport :=
  advanceRebalanceInner env fuel
    ⟨usizeMax, max options.batchSize 1, options.maxPauseNs, none, false⟩

/-- One entry check of the cooperative loop: whether the target layout is reached. -/
def cooperate (target : Nat) : Prog K V Bool := do
  act (.lock .routing .excl)
  let current : Nat ← act .shardCount
  let progress ← readTracker
  if progress.migrating then
    act (.unlock .routing)
    return false
  else if current = target then
    act (.unlock .routing)
    return true
  else
    act (.lock .active .excl)
    act (.lock .previous .excl)
    beginMigration current target
    act (.unlock .previous)
    act (.unlock .active)
    act (.unlock .routing)
    return false

def cooperativeLoop (target : Nat) (options : RebalanceOptions) (inner : Nat) :
    Nat → Nat → Prog K V Nat
  | 0, _ => diverge
  | fuel + 1, moved => do
    if ← cooperate target then
      return moved
    else
      let _ ← resumeRebalance
      let report ← advanceRebalanceWithOptions env inner options
      cooperativeLoop target options inner fuel (moved + report.movedEntries)

/-- Stage a copy of one shard in the new generation; the first copy of a key wins. -/
def stageShard [DecidableEq K] (target : Nat) (staged : List (Option (Assoc K V)) × Nat)
    (shard : Nat) : Prog K V (List (Option (Assoc K V)) × Nat) := do
  act (.lock (.shard shard) .shared)
  let entries : List (K × V) ← act (.entries shard)
  let staged ← entries.foldlM (fun staged e => do
    act .user
    let index := env.hash e.1 % target
    let map := (staged.1[index]?.join).getD ∅
    return if (map.lookup e.1).isSome then (staged.1.set index (some map), staged.2)
      else (staged.1.set index (some (map.insert e.1 e.2)), staged.2 + 1)) staged
  act (.unlock (.shard shard))
  return staged

/-- `rebalance_to` with `background = false`. -/
def rebalanceStaged [DecidableEq K] (target : Nat) : Prog K V RebalanceReport := do
  act (.lock .routing .excl)
  let current : Nat ← act .shardCount
  let started : Nat ← act .clock
  let progress ← readTracker
  if target = current ∧ !progress.migrating then
    act (.unlock .routing)
    return ⟨current, target, 0, 0⟩
  else
    let (maps, moved) ←
      (← allShards).foldlM (stageShard env target) (List.replicate target none, 0)
    act (.lock .active .excl)
    let _ ← act (.install maps)
    act (.unlock .active)
    act (.lock .previous .excl)
    let _ ← act (.setPrevious none)
    act (.unlock .previous)
    act (.setPreviousShardCount 0)
    act (.setShardCount target)
    act (.life .markPending)
    let now : Nat ← act .clock
    let _ ← act (.tracker (Progress.finishStaged current target moved (now - started)))
    act (.unlock .routing)
    act .user
    let now : Nat ← act .clock
    return ⟨current, target, moved, (now - started) / 1000000⟩

def rebalanceTo [DecidableEq K] (fuel newShardCount : Nat) (options : RebalanceOptions) :
    Prog K V (Except ShardCountError RebalanceReport) :=
  match strictShardCount newShardCount MAX_SHARDS with
  | .error e => return .error e
  | .ok target => do
    if options.background then
      let current : Nat ← act .shardCount
      let started : Nat ← act .clock
      let moved ← cooperativeLoop env target options fuel fuel 0
      let now : Nat ← act .clock
      return .ok ⟨current, target, moved, (now - started) / 1000000⟩
    else
      let report ← rebalanceStaged env target
      return .ok report

end Starshard.Sync
