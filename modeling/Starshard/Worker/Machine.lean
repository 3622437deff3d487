import Starshard.Concurrent.History
import Starshard.Rebalance
import Starshard.Types
import Starshard.Worker.Tables

/-! Supervised rebalance workers beside every other user of the routing lock.

A step is one section under the tracker's mutex or one access to a cancellation
flag. A batch owns the routing lock exclusively and advances in several steps;
the other sections under exclusive routing touch the tracker once, so each of
them is one step. `resume_rebalance`, cancellation, `wait_ready` and the release
of a lease take no routing lock and fall between any two steps. -/
namespace Starshard.Worker

open Data

/-- What a spawned closure captures. -/
structure Job where
  generation : Nat
  alreadyComplete : Bool
  fromShards : Nat
  target : Nat
  options : RebalanceOptions

/-- The variables of the worker's loop. -/
structure Locals where
  moved : Nat
  completed : Bool
  effective : Nat

/-- Result of a supervised worker. -/
structure RebalanceOutcome where
  completed : Bool
  report : RebalanceReport

/-- One call of `spawn_rebalance` and the worker it spawned. -/
inductive Phase where
  | idle
  /-- An error before the claim. -/
  | rejected
  /-- The lease is still with the calling thread. -/
  | claimed (job : Job)
  /-- `Builder::spawn` failed and dropped its closure; the error path is still to run. -/
  | refused (job : Job)
  | failed (job : Job)
  | waiting (job : Job) (l : Locals)
  /-- `wait_ready` returned `true`. -/
  | ready (job : Job) (l : Locals)
  | batching (job : Job) (l : Locals)
  /-- The batch returned and released routing. -/
  | returned (job : Job) (l : Locals) (report : RebalanceBatchReport)
  /-- The loop was left. -/
  | reporting (job : Job) (l : Locals)
  /-- The outcome is computed, the lease is still held. -/
  | reported (job : Job) (outcome : RebalanceOutcome)
  | panicking (job : Job)
  /-- The lease is dropped; `none` after a panic. -/
  | ended (job : Job) (outcome : Option RebalanceOutcome)

/-- Where a batch is inside its loop. -/
inductive Stage where
  | head
  | loaded (index : Nat)
  | moved (index : Nat)
  | swept (empty : Bool)
  | done

/-- The variables of `advance_rebalance_inner` after its checks. -/
structure Batch (K : Type) where
  /-- The supervised worker it belongs to, if any. -/
  owner : Option Nat
  maxShards : Nat
  maxEntries : Nat
  pauseNs : Nat
  telemetry : RebalanceTelemetry
  workKeys : List K
  loaded : Option Nat
  report : RebalanceBatchReport
  stage : Stage

structure State (K V : Type) where
  tables : Tables K V
  tracker : Progress
  /-- The batch that owns the routing lock. -/
  batch : Option (Batch K)
  calls : Nat → Phase
  cancelled : Nat → Bool

/-- A map with `count` unused slots. -/
def State.new (K V : Type) (count : Nat) : State K V where
  tables := ⟨List.replicate count none, none, count, 0⟩
  tracker := .default
  batch := none
  calls _ := .idle
  cancelled _ := false

/-- What a step does, seen from outside. -/
inductive Label (K V : Type) where
  /-- `spawn_rebalance` claims the worker slot, starting a generation if `fresh`. -/
  | claim (w : Nat) (fresh : Bool)
  | reject (w : Nat)
  | spawned (w : Nat)
  /-- Thread creation fails, which drops the captured lease. -/
  | refuse (w : Nat)
  /-- The error path of `spawn_rebalance`. -/
  | release (w : Nat)
  | proceed (w : Nat)
  | stop (w : Nat)
  | absorb (w : Nat)
  | crash (w : Nat)
  | report (w : Nat) (outcome : RebalanceOutcome)
  | ended (w : Nat)
  /-- `advance_rebalance_inner` takes routing and checks whether it may run. -/
  | enter (owner : Option Nat)
  | select (owner : Option Nat)
  | move (owner : Option Nat) (k : K)
  | skip (owner : Option Nat)
  | sweep (owner : Option Nat) (empty : Bool)
  /-- The last source is drained: `finish` ends the generation. -/
  | drained (owner : Option Nat) (generation : Nat)
  | judge (owner : Option Nat)
  | leave (owner : Option Nat)
  | unwind (owner : Option Nat)
  | start (fresh : Bool)
  | staged (fresh : Bool)
  | pause (answer : Bool)
  | resume
  /-- `cancel`, or the handle is dropped. -/
  | cancel (w : Nat)
  /-- `clear` or `drain`, with the generation it ends. -/
  | clear (generation : Option Nat)
  /-- `clear` or `drain` unwinds between two shards. -/
  | wipe
  | insert (k : K) (v : V)
  | remove (k : K)

namespace Label

variable {K V : Type}

/-- A new generation begins. -/
def begins : Label K V → Bool
  | .claim _ fresh | .start fresh | .staged fresh => fresh
  | _ => false

/-- A batch of this owner changes the directories or the tracker's progress. -/
def commits : Label K V → Option (Option Nat)
  | .move owner _ | .sweep owner true | .drained owner _ => some owner
  | _ => none

/-- Generation `g` finished, by draining its sources or by `clear` or `drain`. -/
def finishes (g : Nat) : Label K V → Prop
  | .drained _ generation => generation = g
  | .clear generation => generation = some g
  | _ => False

def writes : Label K V → Bool
  | .clear _ | .wipe | .insert _ _ | .remove _ => true
  | _ => false

end Label

/-- The checks at the start of a batch; the batch does nothing when they refuse it. -/
def refuses (expected : Option Nat) (cancelled : Bool) (maxShards : Nat) (p : Progress) : Bool :=
  (expected.any fun generation => decide (generation ≠ p.telemetry.generation)) ||
    p.telemetry.paused || cancelled || decide (maxShards = 0)

/-- The next entry budget of a supervised worker. -/
def nextEffective (options : RebalanceOptions) (elapsed effective : Nat) : Nat :=
  if options.maxPauseNs ≠ 0 ∧ elapsed > options.maxPauseNs then max (effective / 2) 1
  else min (min (effective + 1) (2 ^ 64 - 1)) (max options.batchSize 1)

/-- The budget of a batch: owner, shards, entries, pause. -/
def Batch.open (owner : Option Nat) (maxShards maxEntries pauseNs : Nat)
    (telemetry : RebalanceTelemetry) {K : Type} : Batch K :=
  ⟨owner, maxShards, maxEntries, pauseNs, telemetry, [], none, .default, .head⟩

/-- The end of an iteration that did not drain the last source. -/
def Batch.judge {K : Type} (empty elapsed : Bool) (b : Batch K) : Batch K :=
  if (!empty && b.workKeys.isEmpty) || elapsed then
    { b with report := { b.report with budgetExhausted := true }, stage := .done }
  else { b with stage := .head }

/-- The report a batch returns. -/
def Batch.reported {K : Type} (elapsed : Nat) (b : Batch K) : RebalanceBatchReport :=
  { b.report with
    elapsedNs := elapsed
    budgetExhausted := b.report.budgetExhausted ||
      (!b.report.complete && decide (b.maxEntries ≤ b.report.movedEntries)) }

/-- The source slot a batch works on. -/
def Tables.source {K V : Type} (t : Tables K V) (index : Nat) : Option (Assoc K V) :=
  (t.previous.bind fun p => p[index]?).join

/-- The keys copied from a source, in its iteration order, up to the entry budget
or until the pause budget is used up. -/
def Loads {K V : Type} (b : Batch K) (index : Nat) (source : Option (Assoc K V))
    (workKeys : List K) : Prop :=
  if b.loaded = some index then workKeys = b.workKeys
  else match source with
    | none => workKeys = b.workKeys
    | some m => ∃ order n, List.Perm order m.keys ∧ n ≤ b.maxEntries - b.report.movedEntries ∧
        (n < b.maxEntries - b.report.movedEntries → b.pauseNs ≠ 0 ∧ 0 < n) ∧
        workKeys = b.workKeys ++ order.take n

section Step

variable {K V : Type} [DecidableEq K] (hash : K → Nat)

/-- Start a generation; routing and both directories are held. -/
def State.begin (target len now : Nat) (s : State K V) : State K V :=
  { s with
    tables := s.tables.begin target
    tracker := s.tracker.beginWithCounts s.tables.shardCount target len now }

/-- `claim_worker` for the current generation. -/
def State.claim (alreadyComplete : Bool) (current target : Nat) (options : RebalanceOptions)
    (s : State K V) : Option (State K V × Job) :=
  (s.tracker.claimWorker s.tracker.telemetry.generation).map fun tracker =>
    ({ s with tracker := tracker },
      { generation := s.tracker.telemetry.generation
        alreadyComplete := alreadyComplete
        fromShards := if alreadyComplete then current else s.tracker.telemetry.fromShards
        target := target
        options := options })

/-- The section of `spawn_rebalance` under exclusive routing: the claim, and whether
it started a generation. `none` when the call is refused. -/
def reserve (target len now : Nat) (options : RebalanceOptions) (s : State K V) :
    Option (State K V × Job × Bool) :=
  if s.tracker.hasWorker then none
  else if s.tracker.migrating ∧ s.tables.shardCount ≠ target then none
  else
    let current := s.tables.shardCount
    let alreadyComplete := decide (¬ s.tracker.migrating ∧ current = target)
    let fresh := decide (¬ s.tracker.migrating) && !alreadyComplete
    ((if fresh then s.begin target len now else s).claim alreadyComplete current target options).map
      fun (s, job) => (s, job, fresh)

/-- The batch of worker `w` ends and leaves it in the given phase. -/
def State.back (s : State K V) (owner : Option Nat) (phase : Job → Locals → Phase) : State K V :=
  match owner with
  | none => s
  | some w => match s.calls w with
    | .batching job l => { s with calls := Function.update s.calls w (phase job l) }
    | _ => s

def State.goto (s : State K V) (w : Nat) (phase : Phase) : State K V :=
  { s with calls := Function.update s.calls w phase }

omit [DecidableEq K] in
theorem State.back_eq (s : State K V) (owner : Option Nat) (phase : Job → Locals → Phase) :
    s.back owner phase = { s with calls := (s.back owner phase).calls } := by
  cases owner with
  | none => rfl
  | some w =>
    unfold State.back
    dsimp only
    split <;> rfl

omit [DecidableEq K] in
@[simp] theorem State.back_tables (s : State K V) (owner : Option Nat)
    (phase : Job → Locals → Phase) : (s.back owner phase).tables = s.tables := by
  rw [State.back_eq]

omit [DecidableEq K] in
@[simp] theorem State.back_tracker (s : State K V) (owner : Option Nat)
    (phase : Job → Locals → Phase) : (s.back owner phase).tracker = s.tracker := by
  rw [State.back_eq]

omit [DecidableEq K] in
@[simp] theorem State.back_batch (s : State K V) (owner : Option Nat)
    (phase : Job → Locals → Phase) : (s.back owner phase).batch = s.batch := by
  rw [State.back_eq]

omit [DecidableEq K] in
@[simp] theorem State.back_cancelled (s : State K V) (owner : Option Nat)
    (phase : Job → Locals → Phase) : (s.back owner phase).cancelled = s.cancelled := by
  rw [State.back_eq]

inductive Step : Label K V → State K V → State K V → Prop where
  | claim {s s' job fresh} (w target : Nat) (options : RebalanceOptions) (n len now : Nat) : s.calls w = .idle →
      s.batch = none → strictShardCount n MAX_SHARDS = .ok target →
      reserve target len now options s = some (s', job, fresh) →
      Step (.claim w fresh) s (s'.goto w (.claimed job))
  | reject {s w target} (options : RebalanceOptions) (n len now : Nat) : s.calls w = .idle →
      s.batch = none → strictShardCount n MAX_SHARDS = .ok target →
      reserve target len now options s = none →
      Step (.reject w) s (s.goto w .rejected)
  | spawned {s w job} : s.calls w = .claimed job →
      Step (.spawned w) s
        (s.goto w (.waiting job ⟨0, job.alreadyComplete, max job.options.batchSize 1⟩))
  | refuse {s w job} : s.calls w = .claimed job →
      Step (.refuse w) s { s.goto w (.refused job) with
        tracker := s.tracker.releaseWorker job.generation }
  | release {s w job} : s.calls w = .refused job →
      Step (.release w) s { s.goto w (.failed job) with
        tracker := s.tracker.releaseWorker job.generation }
  | proceed {s w job l} : s.calls w = .waiting job l → s.tracker.migrating →
      s.tracker.telemetry.generation = job.generation → s.tracker.telemetry.paused = false →
      s.cancelled w = false → Step (.proceed w) s (s.goto w (.ready job l))
  | stop {s w job l} : s.calls w = .waiting job l →
      s.tracker.migrating = false ∨ s.tracker.telemetry.generation ≠ job.generation ∨
        s.cancelled w → Step (.stop w) s (s.goto w (.reporting job l))
  | absorb {s w job l report} : s.calls w = .returned job l report →
      Step (.absorb w) s (s.goto w
        (if report.complete then .reporting job ⟨l.moved + report.movedEntries, true, l.effective⟩
        else .waiting job ⟨l.moved + report.movedEntries, l.completed,
          nextEffective job.options report.elapsedNs l.effective⟩))
  -- a destructor of the entries a batch retired unwinds
  | crash {s w job l report} : s.calls w = .returned job l report →
      Step (.crash w) s (s.goto w (.panicking job))
  | report {s w job l} (elapsedMs : Nat) {outcome : RebalanceOutcome} :
      s.calls w = .reporting job l →
      outcome = ⟨l.completed || (decide (s.tracker.telemetry.generation = job.generation) &&
        s.tracker.telemetry.complete), ⟨job.fromShards, job.target, l.moved, elapsedMs⟩⟩ →
      Step (.report w outcome) s (s.goto w (.reported job outcome))
  | ended {s w job outcome} : s.calls w = .reported job outcome →
      Step (.ended w) s { s.goto w (.ended job (some outcome)) with
        tracker := s.tracker.releaseWorker job.generation }
  | dropped {s w job} : s.calls w = .panicking job →
      Step (.ended w) s { s.goto w (.ended job none) with
        tracker := s.tracker.releaseWorker job.generation }
  | enterWorker {s w l} (job : Job) : s.calls w = .ready job l → s.batch = none →
      Step (.enter (some w)) s
        (if refuses (some job.generation) (s.cancelled w) (2 ^ 64 - 1) s.tracker then
          s.goto w (.returned job l .default)
        else if s.tracker.migrating = false then
          s.goto w (.returned job l { RebalanceBatchReport.default with complete := true })
        else
          { s.goto w (.batching job l) with
            batch := some (.open (some w) (2 ^ 64 - 1) l.effective job.options.maxPauseNs
              s.tracker.telemetry) })
  | enterManual {s} (maxShards maxEntries pauseNs : Nat) : s.batch = none →
      Step (.enter none) s
        (if refuses none false maxShards s.tracker ∨ s.tracker.migrating = false then s
        else { s with
          batch := some (.open none maxShards maxEntries pauseNs s.tracker.telemetry) })
  -- the loop condition or a cancellation ends the batch
  | exit {s b} : s.batch = some b → b.stage = .head →
      ¬ (b.report.completedShards < b.maxShards ∧ b.report.movedEntries < b.maxEntries) ∨
        b.owner.any s.cancelled → Step (.judge b.owner) s
          { s with batch := some { b with stage := .done } }
  | select {s b} (workKeys : List K) : s.batch = some b → b.stage = .head →
      b.report.completedShards < b.maxShards → b.report.movedEntries < b.maxEntries →
      b.owner.any s.cancelled = false →
      Loads b s.tracker.snapshot.movedShards (s.tables.source s.tracker.snapshot.movedShards)
        workKeys →
      Step (.select b.owner) s { s with batch := some { b with
        workKeys := workKeys
        loaded := some s.tracker.snapshot.movedShards
        stage := .loaded s.tracker.snapshot.movedShards } }
  | move {s b index source k v} : s.batch = some b → b.stage = .loaded index →
      s.tables.source index = some source → b.workKeys.getLast? = some k →
      source.lookup k = some v →
      Step (.move b.owner k) s { s with
        tables := s.tables.move hash index k
        tracker := s.tracker.moved
        batch := some { b with
          workKeys := b.workKeys.dropLast
          report := { b.report with movedEntries := b.report.movedEntries + 1 }
          stage := .moved index } }
  | skip {s b index} : s.batch = some b → b.stage = .loaded index →
      s.tables.source index = none ∨ b.workKeys = [] →
      Step (.skip b.owner) s { s with batch := some { b with
        workKeys := b.workKeys.dropLast
        stage := .moved index } }
  | retire {s b index} : s.batch = some b → b.stage = .moved index →
      (∀ m, s.tables.source index = some m → m.size = 0) →
      Step (.sweep b.owner true) s { s with
        tables := s.tables.retire index
        tracker := s.tracker.step
        batch := some { b with
          report := { b.report with completedShards := b.report.completedShards + 1 }
          stage := .swept true } }
  | keep {s b index m} : s.batch = some b → b.stage = .moved index →
      s.tables.source index = some m → m.size ≠ 0 →
      Step (.sweep b.owner false) s { s with batch := some { b with stage := .swept false } }
  | drained {s b empty} (now : Nat) : s.batch = some b → b.stage = .swept empty →
      s.tracker.snapshot.movedShards = s.tracker.snapshot.totalShards →
      Step (.drained b.owner s.tracker.telemetry.generation) s { s with
        tables := s.tables.finish
        tracker := s.tracker.finish now
        batch := some { b with report := { b.report with complete := true }, stage := .done } }
  | judge {s b empty} (elapsed : Bool) : s.batch = some b → b.stage = .swept empty →
      s.tracker.snapshot.movedShards ≠ s.tracker.snapshot.totalShards →
      (elapsed → b.pauseNs ≠ 0) →
      Step (.judge b.owner) s { s with batch := some (b.judge empty elapsed) }
  | leave {s b} (elapsed : Nat) : s.batch = some b → b.stage = .done →
      Step (.leave b.owner) s
        ({ s with
          batch := none
          tracker := s.tracker.recordBatch b.telemetry.generation elapsed b.pauseNs }.back b.owner
            fun job l => .returned job l (b.reported elapsed))
  -- user code of a batch unwinds; its timer is dropped before routing is released
  | unwind {s b} (elapsed : Nat) : s.batch = some b →
      (b.stage = .head ∨ ∃ index, b.stage = .loaded index) →
      Step (.unwind b.owner) s
        ({ s with
          batch := none
          tracker := s.tracker.recordBatch b.telemetry.generation elapsed b.pauseNs }.back b.owner
            fun job _ => .panicking job)
  | start {s target} (n len now : Nat) : s.batch = none →
      strictShardCount n MAX_SHARDS = .ok target → s.tracker.migrating = false →
      target ≠ s.tables.shardCount →
      Step (.start true) s (s.begin target len now)
  | started {s target} (n : Nat) : s.batch = none →
      strictShardCount n MAX_SHARDS = .ok target →
      s.tracker.migrating ∨ target = s.tables.shardCount → Step (.start false) s s
  | staged {s target} (n elapsed : Nat) : s.batch = none →
      strictShardCount n MAX_SHARDS = .ok target →
      ¬ (target = s.tables.shardCount ∧ s.tracker.migrating = false) →
      Step (.staged true) s { s with
        tables := s.tables.stage hash target
        tracker := s.tracker.finishStaged s.tables.shardCount target s.tables.entries.length
          elapsed }
  | inPlace {s target} (n : Nat) : s.batch = none →
      strictShardCount n MAX_SHARDS = .ok target →
      target = s.tables.shardCount → s.tracker.migrating = false → Step (.staged false) s s
  | pause {s} : s.batch = none →
      Step (.pause s.tracker.migrating) s { s with tracker := s.tracker.pause true }
  | resume {s} : Step .resume s { s with tracker := s.tracker.pause false }
  | cancel {s} (w : Nat) :
      Step (.cancel w) s { s with cancelled := Function.update s.cancelled w true }
  | clear {s} (now : Nat) : s.batch = none →
      Step (.clear (if s.tracker.migrating then some s.tracker.telemetry.generation else none)) s
        { s with
          tables := s.tables.clear
          tracker := s.tracker.finish now }
  | wipe {s} (n : Nat) : s.batch = none → Step .wipe s { s with tables := s.tables.wipe n }
  | insert {s} (k : K) (v : V) : s.batch = none →
      Step (.insert k v) s { s with tables := s.tables.insert hash k v }
  | remove {s} (k : K) : s.batch = none →
      Step (.remove k) s { s with tables := s.tables.remove hash k }

end Step
end Starshard.Worker
