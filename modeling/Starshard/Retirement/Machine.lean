import Starshard.Data.Bits
import Starshard.Data.Places

/-! Retired metadata keys of a configured map (`eviction/engine.rs`): the lists of the
64 stripes, the shared mask of the stripes to visit, and any number of running calls. -/
namespace Starshard.Retirement

/-- `STRIPES`. -/
abbrev stripes : Nat := 64

abbrev Stripe := Fin stripes

/-- `hash as usize % STRIPES`. -/
def stripeOf (hash : UInt64) : Stripe := ⟨hash.toNat % stripes, Nat.mod_lt _ (by decide)⟩

/-- `1_u64 << index`. -/
def bit (i : Stripe) : BitVec 64 := 1#64 <<< i.val

/-- `1_u64 << trailing_zeros`; the mask is not zero. -/
def lowest (pending : BitVec 64) : Stripe :=
  ⟨pending.ctz.toNat % stripes, Nat.mod_lt _ (by decide)⟩

/-- One `Arc` of a key; clones are handles of their own. -/
structure Handle (K : Type) where
  id : Nat
  key : K
  deriving DecidableEq

variable {K : Type}

/-- New handles of some keys. -/
def handles (next : Nat) : List K → List (Handle K)
  | [] => []
  | k :: ks => ⟨next, k⟩ :: handles (next + 1) ks

inductive Defer (K : Type) where
  | waiting
  | locked
  | pushed (h : Handle K)
  /-- The guard is dropped; the bit is not yet set. -/
  | unpublished (h : Handle K)

/-- `record_remove` and `record_eviction`, which differ in how they find the entry. -/
inductive Removal (K : Type) where
  | waiting
  | locked
  /-- The entry is retired; the bit is not yet set. -/
  | pushed (h : Handle K)
  | published

inductive Insert where
  | waiting
  | locked
  | written

inductive Reconcile (K : Type) where
  /-- The guards of the first `n` stripes are held. -/
  | acquiring (n : Nat)
  /-- The first `n` stripes are replaced; `retired` is the local `retired_stripes`, and
  `moved` records which keys left their buckets. -/
  | publishing (n : Nat) (retired : BitVec 64) (moved : List (Handle K))
  /-- The guards of the first `n` stripes are dropped. -/
  | releasing (n : Nat)

inductive Drain where
  | entered
  | loop (pending : BitVec 64)
  /-- `index` is taken out of `pending`; its stripe is not yet locked. -/
  | waiting (index : Stripe) (pending : BitVec 64)
  | locked (index : Stripe) (pending : BitVec 64)
  | appended (index : Stripe) (pending : BitVec 64)

inductive Call (K : Type) where
  | defer (hash : UInt64) (key : K) (stage : Defer K)
  | remove (hash : UInt64) (stage : Removal K)
  | evict (hash : UInt64) (stage : Removal K)
  | insert (hash : UInt64) (key : K) (stage : Insert)
  | reconcile (staged : Stripe → List K) (stage : Reconcile K)
  | drain (stage : Drain) (retired : List (Handle K))

inductive Request (K : Type) where
  | defer (hash : UInt64) (key : K)
  | remove (hash : UInt64)
  | evict (hash : UInt64)
  | insert (hash : UInt64) (key : K)
  | reconcile (staged : Stripe → List K)
  | drain

def Request.enter : Request K → Call K
  | .defer hash key => .defer hash key .waiting
  | .remove hash => .remove hash .waiting
  | .evict hash => .evict hash .waiting
  | .insert hash key => .insert hash key .waiting
  | .reconcile staged => .reconcile staged (.acquiring 0)
  | .drain => .drain .entered []

structure State (K : Type) where
  /-- The keys of the entries in the buckets of a stripe. -/
  live : Stripe → List (Handle K)
  retired : Stripe → List (Handle K)
  /-- `retired_stripes`. -/
  mask : BitVec 64
  /-- Who holds the write guard. -/
  owner : Stripe → Option Nat
  calls : Nat → Option (Call K)
  /-- What the drains returned. -/
  outputs : List (List (Handle K))
  next : Nat
  /-- Every handle retired so far. -/
  history : List (Handle K)

def State.new (K : Type) : State K :=
  ⟨fun _ => [], fun _ => [], 0#64, fun _ => none, fun _ => none, [], 0, []⟩

namespace State

def goto (s : State K) (t : Nat) (c : Option (Call K)) : State K :=
  { s with calls := Function.update s.calls t c }

def lock (s : State K) (t : Nat) (i : Stripe) : State K :=
  { s with owner := Function.update s.owner i (some t) }

def unlock (s : State K) (i : Stripe) : State K :=
  { s with owner := Function.update s.owner i none }

/-- `fetch_or`. -/
def publish (s : State K) (m : BitVec 64) : State K := { s with mask := s.mask ||| m }

/-- A new handle is pushed to the retired list. -/
def defer (s : State K) (i : Stripe) (k : K) : State K :=
  { s with
    retired := Function.update s.retired i (s.retired i ++ [⟨s.next, k⟩])
    next := s.next + 1
    history := s.history ++ [⟨s.next, k⟩] }

/-- An entry leaves its bucket and its key is pushed to the retired list. -/
def retire (s : State K) (i : Stripe) (h : Handle K) (rest : List (Handle K)) : State K :=
  { s with
    live := Function.update s.live i rest
    retired := Function.update s.retired i (s.retired i ++ [h])
    history := s.history ++ [h] }

def track (s : State K) (i : Stripe) (k : K) : State K :=
  { s with
    live := Function.update s.live i (s.live i ++ [⟨s.next, k⟩])
    next := s.next + 1 }

/-- One stripe is replaced by `staged`; `old` are the keys of its buckets as they drain. -/
def replace (s : State K) (i : Stripe) (staged : List K) (old : List (Handle K)) : State K :=
  { s with
    live := Function.update s.live i (handles s.next staged)
    retired := Function.update s.retired i (s.retired i ++ old)
    next := s.next + staged.length
    history := s.history ++ old }

/-- `retired.append(&mut stripe.retired)` on the side of the stripe. -/
def collect (s : State K) (i : Stripe) : State K :=
  { s with retired := Function.update s.retired i [] }

end State

/-- A stage of the removal hook that `wrap` runs. -/
inductive RemovalStep (t : Nat) (i : Stripe) (wrap : Removal K → Call K) :
    State K → State K → Prop where
  | lock {s} : s.calls t = some (wrap .waiting) → s.owner i = none →
      RemovalStep t i wrap s ((s.lock t i).goto t (some (wrap .locked)))
  -- no entry matches, or the equality of the key unwinds
  | miss {s} : s.calls t = some (wrap .locked) →
      RemovalStep t i wrap s ((s.unlock i).goto t none)
  | push {s h rest} : s.calls t = some (wrap .locked) → (s.live i).Perm (h :: rest) →
      RemovalStep t i wrap s ((s.retire i h rest).goto t (some (wrap (.pushed h))))
  | publish {s h} : s.calls t = some (wrap (.pushed h)) →
      RemovalStep t i wrap s ((s.publish (bit i)).goto t (some (wrap .published)))
  | unlock {s} : s.calls t = some (wrap .published) →
      RemovalStep t i wrap s ((s.unlock i).goto t none)

/-- One atomic part of call `t`. Readers of a stripe are left out: they change no list. -/
inductive Step (t : Nat) : State K → State K → Prop where
  | deferLock {s hash k} : s.calls t = some (.defer hash k .waiting) →
      s.owner (stripeOf hash) = none →
      Step t s ((s.lock t (stripeOf hash)).goto t (some (.defer hash k .locked)))
  | deferPush {s hash k} : s.calls t = some (.defer hash k .locked) →
      Step t s ((s.defer (stripeOf hash) k).goto t
        (some (.defer hash k (.pushed ⟨s.next, k⟩))))
  | deferUnlock {s hash k h} : s.calls t = some (.defer hash k (.pushed h)) →
      Step t s ((s.unlock (stripeOf hash)).goto t (some (.defer hash k (.unpublished h))))
  | deferPublish {s hash k h} : s.calls t = some (.defer hash k (.unpublished h)) →
      Step t s ((s.publish (bit (stripeOf hash))).goto t none)
  | remove {s s'} (hash : UInt64) : RemovalStep t (stripeOf hash) (.remove hash) s s' → Step t s s'
  | evict {s s'} (hash : UInt64) : RemovalStep t (stripeOf hash) (.evict hash) s s' → Step t s s'
  | insertLock {s hash k} : s.calls t = some (.insert hash k .waiting) →
      s.owner (stripeOf hash) = none →
      Step t s ((s.lock t (stripeOf hash)).goto t (some (.insert hash k .locked)))
  | insertPush {s hash k} : s.calls t = some (.insert hash k .locked) →
      Step t s ((s.track (stripeOf hash) k).goto t (some (.insert hash k .written)))
  -- the entry is there and keeps its key, or the equality of the key unwinds
  | insertFound {s hash k} : s.calls t = some (.insert hash k .locked) →
      Step t s ((s.unlock (stripeOf hash)).goto t none)
  | insertUnlock {s hash k} : s.calls t = some (.insert hash k .written) →
      Step t s ((s.unlock (stripeOf hash)).goto t none)
  -- user code unwinds while the entries are staged
  | reconcileUnwind {s staged} : s.calls t = some (.reconcile staged (.acquiring 0)) →
      Step t s (s.goto t none)
  | reconcileLock {s staged n} (hn : n < stripes) :
      s.calls t = some (.reconcile staged (.acquiring n)) → s.owner ⟨n, hn⟩ = none →
      Step t s ((s.lock t ⟨n, hn⟩).goto t (some (.reconcile staged (.acquiring (n + 1)))))
  | reconcileBegin {s staged} : s.calls t = some (.reconcile staged (.acquiring stripes)) →
      Step t s (s.goto t (some (.reconcile staged (.publishing 0 0#64 []))))
  | reconcileReplace {s staged n m moved old} (hn : n < stripes) :
      s.calls t = some (.reconcile staged (.publishing n m moved)) → old.Perm (s.live ⟨n, hn⟩) →
      Step t s ((s.replace ⟨n, hn⟩ (staged ⟨n, hn⟩) old).goto t
        (some (.reconcile staged (.publishing (n + 1)
          (if s.retired ⟨n, hn⟩ ++ old = [] then m else m ||| bit ⟨n, hn⟩) (moved ++ old)))))
  | reconcilePublish {s staged m moved} :
      s.calls t = some (.reconcile staged (.publishing stripes m moved)) →
      Step t s ((s.publish m).goto t (some (.reconcile staged (.releasing 0))))
  | reconcileUnlock {s staged n} (hn : n < stripes) :
      s.calls t = some (.reconcile staged (.releasing n)) →
      Step t s ((s.unlock ⟨n, hn⟩).goto t (some (.reconcile staged (.releasing (n + 1)))))
  | reconcileReturn {s staged} : s.calls t = some (.reconcile staged (.releasing stripes)) →
      Step t s (s.goto t none)
  | drainSwap {s r} : s.calls t = some (.drain .entered r) →
      Step t s ({ s with mask := 0#64 }.goto t (some (.drain (.loop s.mask) r)))
  | drainNext {s p r} : s.calls t = some (.drain (.loop p) r) → p ≠ 0#64 →
      Step t s (s.goto t (some (.drain (.waiting (lowest p) (p &&& (p - 1))) r)))
  | drainLock {s i p r} : s.calls t = some (.drain (.waiting i p) r) → s.owner i = none →
      Step t s ((s.lock t i).goto t (some (.drain (.locked i p) r)))
  | drainAppend {s i p r} : s.calls t = some (.drain (.locked i p) r) →
      Step t s ((s.collect i).goto t (some (.drain (.appended i p) (r ++ s.retired i))))
  | drainUnlock {s i p r} : s.calls t = some (.drain (.appended i p) r) →
      Step t s ((s.unlock i).goto t (some (.drain (.loop p) r)))
  | drainReturn {s r} : s.calls t = some (.drain (.loop 0#64) r) →
      Step t s ({ s with outputs := s.outputs ++ [r] }.goto t none)

/-- Every state that calls of any number reach, in any order of their steps. -/
inductive Reachable : State K → Prop where
  | new : Reachable (.new K)
  | call {s t} (request : Request K) : Reachable s → s.calls t = none →
      Reachable (s.goto t (some request.enter))
  | step {s s' t} : Reachable s → Step t s s' → Reachable s'

/-- Steps of call `t` alone, until it returns. -/
inductive Alone (t : Nat) : State K → State K → Prop where
  | refl (s) : Alone t s s
  | step {s s' s''} : Alone t s s' → Step t s' s'' → Alone t s s''

end Starshard.Retirement
