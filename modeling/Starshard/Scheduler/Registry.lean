import Mathlib.Logic.Function.Basic
import Starshard.Concurrent.History
import Starshard.Rebalance

/-! Registration of periodic eviction workers.

The registry and every control have a mutex of their own; a step is one section
under one of them, or the worker's own move between two. A control is named by
the number of its claim, as an `Arc` is named by its pointer. -/
namespace Starshard.Scheduler

inductive EvictionSchedulerError where
  | invalidInterval
  | workerAlreadyRunning
  | runtimeUnavailable
  | timeDriverUnavailable
  deriving DecidableEq

/-- Why a worker was asked to stop, or why it terminated unexpectedly. -/
inductive EvictionWorkerStop where
  | cancelled
  | ownersDropped
  | panicked
  | runtimeStopped
  | spawnFailed
  deriving DecidableEq

@[ext] structure EvictionWorkerStatus where
  generation : Nat
  running : Bool
  ticks : Nat
  evicted : Nat
  stopReason : Option EvictionWorkerStop
  deriving DecidableEq

def EvictionWorkerStatus.default : EvictionWorkerStatus := ⟨0, false, 0, 0, none⟩

/-- `u64::saturating_add`, and `usize::saturating_add` on 64-bit targets. -/
def saturatingAdd (m n : Nat) : Nat := min (m + n) (2 ^ 64 - 1)

namespace EvictionWorkerStatus

/-- `Control::new`. -/
def new (generation : Nat) : EvictionWorkerStatus :=
  { EvictionWorkerStatus.default with generation := generation, running := true }

/-- `Control::cancel`. -/
def cancel (reason : EvictionWorkerStop) (p : EvictionWorkerStatus) : EvictionWorkerStatus :=
  if p.running ∧ p.stopReason = none then { p with stopReason := some reason } else p

def recordTick (evicted : Nat) (p : EvictionWorkerStatus) : EvictionWorkerStatus :=
  { p with ticks := saturatingAdd p.ticks 1, evicted := saturatingAdd p.evicted evicted }

/-- What `WorkerLease::finish` does to the progress. -/
def finish (panicking : Bool) (unexpectedStop : EvictionWorkerStop) (p : EvictionWorkerStatus) :
    EvictionWorkerStatus :=
  { p with
    running := false
    stopReason := if panicking then some .panicked
      else if p.stopReason = none then some unexpectedStop else p.stopReason }

end EvictionWorkerStatus

structure WorkerLease where
  active : Bool
  unexpectedStop : EvictionWorkerStop

/-- Where a worker and its lease are. -/
inductive Phase where
  | absent
  /-- Claimed; the closure or task that captures the lease is not spawned yet. -/
  | claimed
  /-- Waiting for the interval, also before the first poll. -/
  | waiting
  | ticking
  /-- The tick returned; `record_tick` is next. -/
  | recording (evicted : Nat)
  /-- The loop was left; `complete` is next. -/
  | leaving
  /-- The lease is dropped, perhaps by a panicking thread. -/
  | dropping (panicking : Bool)
  /-- Inside `finish`, between the progress and the registry. -/
  | publishing (status : EvictionWorkerStatus) (completing : Bool)
  /-- `complete` finished the lease and still owns it. -/
  | completed
  | gone

structure State where
  generation : Nat
  /-- A `Weak` reference. -/
  active : Option Nat
  last : EvictionWorkerStatus
  claims : Nat
  controls : Nat → EvictionWorkerStatus
  leases : Nat → WorkerLease
  phases : Nat → Phase
  /-- The handle of a claim, or the start call that will return it, owns the control. -/
  handles : Nat → Bool
  /-- Controls the last owner resolved and has still to cancel. -/
  pending : List Nat

def State.new : State where
  generation := 0
  active := none
  last := .default
  claims := 0
  controls _ := .default
  leases _ := ⟨false, .spawnFailed⟩
  phases _ := .absent
  handles _ := false
  pending := []

/-- A start call with what it finds outside the registry. -/
inductive Attempt where
  | sync (interval : Nat) (representable : Bool)
  | async (interval : Nat) (representable runtime timer : Bool)

def validateInterval (interval : Nat) (representable : Bool) : Except EvictionSchedulerError Unit :=
  if interval = 0 ∨ !representable then .error .invalidInterval else .ok ()

namespace State

/-- Some `Arc` of the control is left. -/
def alive (s : State) (c : Nat) : Bool :=
  s.handles c || s.pending.contains c || match s.phases c with
    | .absent | .gone => false
    | _ => true

/-- `active.as_ref().and_then(Weak::upgrade)`. -/
def upgrade (s : State) : Option Nat := s.active.filter s.alive

def claim (unexpectedStop : EvictionWorkerStop) (s : State) :
    State × Except EvictionSchedulerError Nat :=
  if s.upgrade.isSome then (s, .error .workerAlreadyRunning)
  else
    let generation := Progress.nextGeneration s.generation
    ({ s with
      generation := generation
      active := some s.claims
      claims := s.claims + 1
      controls := Function.update s.controls s.claims (.new generation)
      leases := Function.update s.leases s.claims ⟨true, unexpectedStop⟩
      phases := Function.update s.phases s.claims .claimed
      handles := Function.update s.handles s.claims true }, .ok s.claims)

/-- `start_sync` and `start_async` up to their claim. -/
def start (a : Attempt) (s : State) : State × Except EvictionSchedulerError Nat :=
  match a with
  | .sync interval representable =>
    match validateInterval interval representable with
    | .error e => (s, .error e)
    | .ok () => s.claim .spawnFailed
  | .async interval representable runtime timer =>
    match validateInterval interval representable with
    | .error e => (s, .error e)
    | .ok () =>
      if !runtime then (s, .error .runtimeUnavailable)
      else if !timer then (s, .error .timeDriverUnavailable)
      else s.claim .runtimeStopped

def goto (c : Nat) (p : Phase) (s : State) : State :=
  { s with phases := Function.update s.phases c p }

def progress (c : Nat) (f : EvictionWorkerStatus → EvictionWorkerStatus) (s : State) : State :=
  { s with controls := Function.update s.controls c (f (s.controls c)) }

/-- `WorkerLease::finish` up to the registry; a second call does nothing. -/
def finish (c : Nat) (panicking completing : Bool) (s : State) : State :=
  if (s.leases c).active then
    let status := (s.controls c).finish panicking (s.leases c).unexpectedStop
    { s with
      leases := Function.update s.leases c { s.leases c with active := false }
      controls := Function.update s.controls c status
      phases := Function.update s.phases c (.publishing status completing) }
  else s.goto c (if completing then .completed else .gone)

/-- The end of `finish`, under the registry's mutex. -/
def publish (c : Nat) (status : EvictionWorkerStatus) (completing : Bool) (s : State) : State :=
  let s := s.goto c (if completing then .completed else .gone)
  if s.generation = status.generation then { s with active := none, last := status } else s

end State

inductive Label where
  | fail (e : EvictionSchedulerError)
  | claim (c : Nat)
  | spawned (c : Nat)
  /-- Spawning fails and drops the captured lease. -/
  | refuse (c : Nat)
  | tick (c : Nat)
  | returned (c evicted : Nat)
  | record (c evicted : Nat)
  | exit (c : Nat)
  /-- The tick panics. -/
  | panic (c : Nat)
  /-- The runtime drops the task. -/
  | dropped (c : Nat)
  | finish (c : Nat) (panicking : Bool)
  /-- `finish` of a lease that is no longer active. -/
  | again (c : Nat)
  | publish (c : Nat)
  | cancel (c : Nat)
  | dropHandle (c : Nat)
  /-- The last external owner resolves the active control. -/
  | ownersDropped
  | deliver (c : Nat)

/-- A stop request and its reason. -/
def Label.requests : Label → Option (Nat × EvictionWorkerStop)
  | .cancel c | .dropHandle c => some (c, .cancelled)
  | .deliver c => some (c, .ownersDropped)
  | _ => none

inductive Step : Label → State → State → Prop where
  | fail {s e} (a : Attempt) : (s.start a).2 = .error e → Step (.fail e) s (s.start a).1
  | claim {s c} (a : Attempt) : (s.start a).2 = .ok c → Step (.claim c) s (s.start a).1
  | spawned {s c} : s.phases c = .claimed → Step (.spawned c) s (s.goto c .waiting)
  | refuse {s c} (panicking : Bool) : s.phases c = .claimed →
      Step (.refuse c) s (s.goto c (.dropping panicking))
  -- the interval passed and no stop was requested
  | tick {s c} : s.phases c = .waiting → (s.controls c).stopReason = none →
      Step (.tick c) s (s.goto c .ticking)
  | returned {s} (c evicted : Nat) : s.phases c = .ticking →
      Step (.returned c evicted) s (s.goto c (.recording evicted))
  | record {s c evicted} : s.phases c = .recording evicted →
      Step (.record c evicted) s ((s.progress c (.recordTick evicted)).goto c .waiting)
  | exit {s c} : s.phases c = .waiting → (s.controls c).stopReason ≠ none →
      Step (.exit c) s (s.goto c .leaving)
  -- the next deadline of a task is not representable
  | overflow {s c} : s.phases c = .waiting → (s.leases c).unexpectedStop = .runtimeStopped →
      Step (.exit c) s (s.goto c .leaving)
  -- `until_stopped` drops a pending tick of a task
  | abandon {s c} : s.phases c = .ticking → (s.leases c).unexpectedStop = .runtimeStopped →
      (s.controls c).stopReason ≠ none → Step (.exit c) s (s.goto c .leaving)
  | panic {s c} : s.phases c = .ticking → Step (.panic c) s (s.goto c (.dropping true))
  | dropped {s} (c : Nat) (panicking : Bool) : s.phases c = .waiting ∨ s.phases c = .ticking →
      (s.leases c).unexpectedStop = .runtimeStopped →
      Step (.dropped c) s (s.goto c (.dropping panicking))
  | complete {s c} : s.phases c = .leaving → Step (.finish c false) s (s.finish c false true)
  | drop {s c panicking} : s.phases c = .dropping panicking →
      Step (.finish c panicking) s (s.finish c panicking false)
  | again {s c} : s.phases c = .completed → Step (.again c) s (s.finish c false false)
  | publish {s c status completing} : s.phases c = .publishing status completing →
      Step (.publish c) s (s.publish c status completing)
  | cancel {s c} : s.handles c = true → Step (.cancel c) s (s.progress c (.cancel .cancelled))
  | dropHandle {s c} : s.handles c = true → Step (.dropHandle c) s
      { s.progress c (.cancel .cancelled) with handles := Function.update s.handles c false }
  | ownersDropped {s} : Step .ownersDropped s
      { s with pending := s.upgrade.toList ++ s.pending }
  | deliver {s c} : c ∈ s.pending → Step (.deliver c) s
      { s.progress c (.cancel .ownersDropped) with pending := s.pending.erase c }

end Starshard.Scheduler
