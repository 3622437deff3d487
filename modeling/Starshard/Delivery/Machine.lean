import Starshard.Concurrent.History

/-! Delivery of evicted entries: batches of any number of passes on any number of
threads, with callbacks that enter the map again. -/
namespace Starshard.Delivery

/-- One life of a key in the map, from the write that created it to its removal. -/
structure Item (K V : Type) where
  id : Nat
  key : K
  value : V

inductive MapKind where
  | sync
  | async

/-- `EvictionBatch`. The drop of an `EvictionDispatch` has no flag to check; there the
flag only records that it ran. -/
structure Batch (K V : Type) where
  entries : List (Item K V)
  dispatched : Bool

inductive Stage where
  /-- Candidates are selected and locks are taken. -/
  | selecting
  /-- Entries are removed; the asynchronous pass awaits nothing any more. -/
  | removing
  /-- The pass returns or unwinds. -/
  | leaving
  deriving DecidableEq

/-- Where a call of `dispatch_callbacks` is. -/
inductive Call (K V : Type) where
  | entered
  | loop
  /-- The callback runs. -/
  | inside (x : Item K V)
  /-- Values and metadata keys are destroyed. -/
  | retiring

inductive Frame (K V : Type) where
  | pass (kind : MapKind) (stage : Stage) (locked : Bool) (batch : Batch K V)
  | dispatch (call : Call K V) (rest : List (Item K V))
  /-- The callback of another map; all maps share the thread-local flag. -/
  | foreign

/-- `dispatching` is the thread-local flag; the newest frame comes first. -/
structure Thread (K V : Type) where
  stack : List (Frame K V)
  dispatching : Bool

variable {K V : Type}

/-- User code runs: outside of all calls, in a callback or in a destructor. -/
def Thread.free (th : Thread K V) : Bool :=
  match th.stack with
  | [] | .foreign :: _ | .dispatch (.inside _) _ :: _ | .dispatch .retiring _ :: _ => true
  | _ => false

/-- An asynchronous pass at an await. -/
structure Suspended (K V : Type) where
  locked : Bool
  batch : Batch K V

structure State (K V : Type) where
  items : List (Item K V)
  nextId : Nat
  threads : List (Thread K V)
  suspended : List (Suspended K V)
  /-- What capacity eviction removed, in this order. -/
  evicted : List (Item K V)
  /-- The invocations of the callback. -/
  delivered : List (Item K V)
  suppressed : List (Item K V)
  /-- What other operations removed. -/
  removed : List (Item K V)
  evictions : UInt64
  suppressedCallbacks : UInt64
  callbackPanics : UInt64

def State.new (K V : Type) : State K V := ⟨[], 0, [], [], [], [], [], [], 0, 0, 0⟩

def State.thread (t : Nat) (th : Thread K V) (s : State K V) : State K V :=
  { s with threads := s.threads.set t th }

def Thread.goto (th : Thread K V) (stack : List (Frame K V)) : Thread K V := { th with stack := stack }

/-- `EvictionBatch::dispatch` and the first drop of a batch: the entries are taken. -/
def Batch.take (_ : Batch K V) : Batch K V := ⟨[], true⟩

inductive Label (K V : Type) where
  | spawn
  | write (t : Nat) (k : K) (v : V)
  | overwrite (t : Nat) (x : Item K V) (v : V)
  | remove (t : Nat) (x : Item K V)
  | enter (t : Nat)
  | lock (t : Nat)
  | unlock (t : Nat)
  | begin (t : Nat)
  | suspend (t : Nat)
  | resume (t i : Nat)
  | cancel (t i : Nat)
  | evict (t : Nat) (x : Item K V)
  | unwind (t : Nat)
  | finish (t : Nat)
  | drop (t : Nat)
  | suppress (t : Nat)
  | deliver (t : Nat) (x : Item K V)
  | return (t : Nat)
  | exhaust (t : Nat)
  | leave (t : Nat)
  | borrow (t : Nat)

open Label in
/-- One atomic part of one thread. -/
inductive Step : Label K V → State K V → State K V → Prop where
  | spawn {s} : Step spawn s { s with threads := s.threads ++ [⟨[], false⟩] }
  | write {s t th} (k : K) (v : V) : s.threads[t]? = some th → th.free = true →
      Step (write t k v) s
        { s with items := s.items ++ [⟨s.nextId, k, v⟩], nextId := s.nextId + 1 }
  | overwrite {s t th pre x post} (v : V) : s.threads[t]? = some th → th.free = true →
      s.items = pre ++ x :: post →
      Step (overwrite t x v) s { s with items := pre ++ { x with value := v } :: post }
  | remove {s t th pre x post} : s.threads[t]? = some th → th.free = true →
      s.items = pre ++ x :: post →
      Step (remove t x) s { s with items := pre ++ post, removed := s.removed ++ [x] }
  | enter {s t th} (kind : MapKind) : s.threads[t]? = some th → th.free = true →
      Step (enter t) s (s.thread t (th.goto (.pass kind .selecting false ⟨[], false⟩ :: th.stack)))
  | lock {s t th kind stage locked batch below} : s.threads[t]? = some th →
      th.stack = .pass kind stage locked batch :: below → stage ≠ .leaving →
      Step (lock t) s (s.thread t (th.goto (.pass kind stage true batch :: below)))
  -- a retry of the pass under another lock mode releases the first locks
  | unlock {s t th kind stage locked batch below} : s.threads[t]? = some th →
      th.stack = .pass kind stage locked batch :: below → stage ≠ .leaving →
      Step (unlock t) s (s.thread t (th.goto (.pass kind stage false batch :: below)))
  | begin {s t th kind locked batch below} : s.threads[t]? = some th →
      th.stack = .pass kind .selecting locked batch :: below →
      Step (begin t) s (s.thread t (th.goto (.pass kind .removing locked batch :: below)))
  | suspend {s t th locked batch below} : s.threads[t]? = some th →
      th.stack = .pass .async .selecting locked batch :: below →
      Step (suspend t) s
        { s.thread t (th.goto below) with suspended := s.suspended ++ [⟨locked, batch⟩] }
  | resume {s t th i p} : s.threads[t]? = some th → th.free = true → s.suspended[i]? = some p →
      Step (resume t i) s
        { s.thread t (th.goto (.pass .async .selecting p.locked p.batch :: th.stack)) with
          suspended := s.suspended.eraseIdx i }
  -- the future is dropped: its guards first, its batch last
  | cancel {s t th i p} : s.threads[t]? = some th → th.free = true → s.suspended[i]? = some p →
      Step (cancel t i) s
        { s.thread t (th.goto (.pass .async .leaving false p.batch :: th.stack)) with
          suspended := s.suspended.eraseIdx i }
  -- `remove_entry`, `record_eviction` and the push run no user code after the removal
  | evict {s t th kind batch below pre x post} : s.threads[t]? = some th →
      th.stack = .pass kind .removing true batch :: below → s.items = pre ++ x :: post →
      Step (evict t x) s
        { s.thread t (th.goto (.pass kind .removing true
            { batch with entries := batch.entries ++ [x] } :: below)) with
          items := pre ++ post
          evicted := s.evicted ++ [x]
          evictions := s.evictions + 1 }
  -- a later candidate's `Hash`, `Eq` or `Clone` panics
  | unwind {s t th kind stage locked batch below} : s.threads[t]? = some th →
      th.stack = .pass kind stage locked batch :: below → stage ≠ .leaving →
      Step (unwind t) s (s.thread t (th.goto (.pass kind .leaving false batch :: below)))
  | dispatch {s t th stage batch below} : s.threads[t]? = some th →
      th.stack = .pass .sync stage false batch :: below → stage ≠ .leaving →
      Step (finish t) s (s.thread t (th.goto (.dispatch .entered batch.entries ::
        .pass .sync .leaving false batch.take :: below)))
  | finish {s t th stage batch below} : s.threads[t]? = some th →
      th.stack = .pass .async stage false batch :: below → stage ≠ .leaving →
      Step (finish t) s (s.thread t (th.goto (.pass .async .leaving false batch :: below)))
  | drop {s t th kind batch below} : s.threads[t]? = some th →
      th.stack = .pass kind .leaving false batch :: below → batch.dispatched = false →
      Step (drop t) s (s.thread t (th.goto (.dispatch .entered batch.entries ::
        .pass kind .leaving false batch.take :: below)))
  | dropped {s t th kind batch below} : s.threads[t]? = some th →
      th.stack = .pass kind .leaving false batch :: below → batch.dispatched = true →
      Step (drop t) s (s.thread t (th.goto below))
  | empty {s t th below} : s.threads[t]? = some th → th.stack = .dispatch .entered [] :: below →
      Step (suppress t) s (s.thread t (th.goto (.dispatch .retiring [] :: below)))
  | suppress {s t th x rest below} : s.threads[t]? = some th →
      th.stack = .dispatch .entered (x :: rest) :: below → th.dispatching = true →
      Step (suppress t) s
        { s.thread t (th.goto (.dispatch .retiring [] :: below)) with
          suppressed := s.suppressed ++ x :: rest
          suppressedCallbacks := s.suppressedCallbacks + UInt64.ofNat (x :: rest).length }
  | guard {s t th x rest below} : s.threads[t]? = some th →
      th.stack = .dispatch .entered (x :: rest) :: below → th.dispatching = false →
      Step (suppress t) s (s.thread t ⟨.dispatch .loop (x :: rest) :: below, true⟩)
  | deliver {s t th x rest below} : s.threads[t]? = some th →
      th.stack = .dispatch .loop (x :: rest) :: below →
      Step (deliver t x) s
        { s.thread t (th.goto (.dispatch (.inside x) rest :: below)) with
          delivered := s.delivered ++ [x] }
  | return {s t th x rest below} (panicked : Bool) : s.threads[t]? = some th →
      th.stack = .dispatch (.inside x) rest :: below →
      Step (.return t) s
        { s.thread t (th.goto (.dispatch .loop rest :: below)) with
          callbackPanics := s.callbackPanics + if panicked then 1 else 0 }
  -- the guard resets the flag
  | exhaust {s t th below} : s.threads[t]? = some th → th.stack = .dispatch .loop [] :: below →
      Step (exhaust t) s (s.thread t ⟨.dispatch .retiring [] :: below, false⟩)
  -- a destructor that panics leaves in the same way
  | leave {s t th below} : s.threads[t]? = some th →
      th.stack = .dispatch .retiring [] :: below →
      Step (leave t) s (s.thread t (th.goto below))
  | borrow {s t th} : s.threads[t]? = some th → th.free = true → th.dispatching = false →
      Step (borrow t) s (s.thread t ⟨.foreign :: th.stack, true⟩)
  | restore {s t th below} : s.threads[t]? = some th → th.stack = .foreign :: below →
      Step (borrow t) s (s.thread t ⟨below, false⟩)

end Starshard.Delivery
