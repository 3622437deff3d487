import Mathlib.Data.List.Induction
import Mathlib.Data.List.Nodup
import Mathlib.Data.List.Sublists
import Starshard.Concurrent.History
import Starshard.Data.Assoc
import Starshard.Replication.Quorum

/-! The order of replicated writes over all clones of one map.

A write takes the ordering permit, is applied to the local map, and hands the
permit to a coordinator task in the same poll: the local application awaits
nothing after its effect, and neither does the registration of the fanout. The
coordinator keeps the permit until every remote call has been joined. -/
namespace Starshard.Replication

open Data Concurrent

inductive ReplicationOp (K V : Type) where
  | insert (key : K) (value : V)
  | remove (key : K)

/-- The effect on the local map. -/
def ReplicationOp.apply {K V : Type} [DecidableEq K] (m : Assoc K V) :
    ReplicationOp K V → Assoc K V
  | .insert key value => m.insert key value
  | .remove key => m.erase key

/-- One call of `insert_replicated` or `remove_replicated`. -/
inductive Caller where
  | idle
  /-- Waiting for the ordering permit. -/
  | queued
  /-- Timed out or cancelled without the permit. -/
  | expired
  | withdrawn
  /-- Holds the permit; the local application awaits its locks. -/
  | holding
  /-- Timed out or cancelled before the local application. -/
  | overdue
  | stopped
  /-- Applied and dispatched; awaits the coordinator's answer. -/
  | awaiting
  | answered (reply : Reply)
  | cancelled

def Caller.applied : Caller → Bool
  | .awaiting | .answered _ | .cancelled => true
  | _ => false

inductive Call where
  | spawned
  | running
  | ended (result : CallEnd)
  | joined
  deriving DecidableEq

/-- The calls `tasks.len()` counts. -/
def unjoined (calls : List Call) : Nat := calls.countP (· ≠ .joined)

inductive Fanout where
  | absent
  /-- The coordinator task is spawned. -/
  | registered
  /-- It spawned all of its calls. -/
  | started (c : Coordinator) (calls : List Call)

structure State (K V : Type) where
  order : Option Nat
  contents : Assoc K V
  /-- The writes in the order of their local applications. -/
  applied : List Nat
  ops : Nat → Option (ReplicationOp K V)
  callers : Nat → Caller
  fanouts : Nat → Fanout
  /-- The writes whose calls started, for each replica. -/
  starts : Nat → List Nat

def State.new (K V : Type) : State K V where
  order := none
  contents := ∅
  applied := []
  ops _ := none
  callers _ := .idle
  fanouts _ := .absent
  starts _ := []

inductive Label where
  | request (w : Nat)
  | acquire (w : Nat)
  | expire (w : Nat)
  | cancel (w : Nat)
  | overdue (w : Nat)
  /-- The local application and the registration of the coordinator. -/
  | apply (w : Nat)
  /-- The first poll of the coordinator. -/
  | launch (w : Nat)
  | begin (w replica : Nat)
  | finish (w replica : Nat)
  | join (w replica : Nat)
  /-- The deadline passes: the calls that are left are aborted. -/
  | deadline (w : Nat)
  | answer (w : Nat)

section Step

variable {K V : Type} [DecidableEq K] (quorum replicas : Nat)

namespace State

def call (w : Nat) (c : Caller) (s : State K V) : State K V :=
  { s with callers := Function.update s.callers w c }

/-- The coordinator moves on; the permit is released with its guard. -/
def coordinate (w : Nat) (c : Coordinator) (calls : List Call) (s : State K V) : State K V :=
  { s with
    fanouts := Function.update s.fanouts w (.started c calls)
    order := if c.order then s.order else none }

end State

inductive Step : Label → State K V → State K V → Prop where
  | request {s} (w : Nat) (op : ReplicationOp K V) : s.callers w = .idle →
      Step (.request w) s
        { s.call w .queued with ops := Function.update s.ops w (some op) }
  | acquire {s w} : s.callers w = .queued → s.order = none →
      Step (.acquire w) s { s.call w .holding with order := some w }
  | expire {s w} : s.callers w = .queued → Step (.expire w) s (s.call w .expired)
  | withdraw {s w} : s.callers w = .queued → Step (.cancel w) s (s.call w .withdrawn)
  | overdue {s w} : s.callers w = .holding →
      Step (.overdue w) s { s.call w .overdue with order := none }
  | stop {s w} : s.callers w = .holding →
      Step (.cancel w) s { s.call w .stopped with order := none }
  | apply {s w op} : s.callers w = .holding → s.ops w = some op →
      Step (.apply w) s { s.call w .awaiting with
        contents := op.apply s.contents
        applied := s.applied ++ [w]
        fanouts := Function.update s.fanouts w .registered }
  | cancel {s w} : s.callers w = .awaiting → Step (.cancel w) s (s.call w .cancelled)
  | launch {s w} : s.fanouts w = .registered →
      Step (.launch w) s (s.coordinate w (.start quorum replicas)
        (List.replicate replicas .spawned))
  -- an abort takes effect when a call yields, so it need not prevent a start
  | begin {s w r c calls} : s.fanouts w = .started c calls → calls[r]? = some .spawned →
      Step (.begin w r) s { s with
        fanouts := Function.update s.fanouts w (.started c (calls.set r .running))
        starts := Function.update s.starts r (s.starts r ++ [w]) }
  | finish {s w r c calls} (result : CallEnd) : s.fanouts w = .started c calls →
      calls[r]? = some .running →
      Step (.finish w r) s { s with
        fanouts := Function.update s.fanouts w (.started c (calls.set r (.ended result))) }
  -- a call that is aborted before it started
  | abort {s w r c calls} : s.fanouts w = .started c calls → calls[r]? = some .spawned →
      c.phase = .stopping →
      Step (.finish w r) s { s with
        fanouts := Function.update s.fanouts w (.started c (calls.set r (.ended .error))) }
  | join {s w r c calls result} : s.fanouts w = .started c calls →
      calls[r]? = some (.ended result) →
      Step (.join w r) s (s.coordinate w (c.take quorum (.ended result)) (calls.set r .joined))
  | deadline {s w c calls} : s.fanouts w = .started c calls → c.phase = .collecting →
      Step (.deadline w) s (s.coordinate w (c.take quorum .deadline) calls)
  | answer {s w c calls reply} : s.callers w = .awaiting → s.fanouts w = .started c calls →
      c.replies.head? = some reply → Step (.answer w) s (s.call w (.answered reply))

end Step

namespace Coordinator

/-- The coordinator has the permit exactly while calls are left. -/
structure Fit (n : Nat) (c : Coordinator) : Prop where
  running : c.running = n
  order : c.order = decide (n ≠ 0)
  phase : c.phase = .returned ↔ n = 0

theorem acknowledge_eq (r : Reply) (c : Coordinator) :
    (c.acknowledge r).running = c.running ∧ (c.acknowledge r).order = c.order ∧
      (c.acknowledge r).phase = c.phase := by
  unfold acknowledge
  split <;> exact ⟨rfl, rfl, rfl⟩

theorem check_eq (quorum : Nat) (c : Coordinator) :
    (c.check quorum).running = c.running ∧ (c.check quorum).order = c.order ∧
      (c.check quorum).phase = c.phase := by
  unfold check
  split
  · exact acknowledge_eq _ _
  · split
    · exact acknowledge_eq _ _
    · exact ⟨rfl, rfl, rfl⟩

theorem finish_eq (c : Coordinator) :
    c.finish.running = c.running ∧ c.finish.order = false ∧ c.finish.phase = .returned := by
  unfold finish
  split
  · exact ⟨(acknowledge_eq _ _).1, rfl, rfl⟩
  · exact ⟨rfl, rfl, rfl⟩

theorem loopHead_fit {n : Nat} {c : Coordinator} (hn : c.running = n) (ho : c.order = true)
    (hp : c.phase ≠ .returned) : Fit n c.loopHead := by
  subst hn
  unfold loopHead
  split
  · next h =>
    obtain ⟨hr, hf, hph⟩ := finish_eq c
    exact ⟨hr, by rw [hf, h]; rfl, by rw [hph, h]; simp⟩
  · next h => exact ⟨rfl, by rw [ho]; simp [h], by simp [hp, h]⟩

theorem start_fit (quorum n : Nat) : Fit n (start quorum n) := by
  unfold start
  dsimp only
  split
  · have h := acknowledge_eq none ⟨true, [], 1, n, true, .collecting⟩
    exact loopHead_fit h.1 h.2.1 (by rw [h.2.2]; simp)
  · exact loopHead_fit rfl rfl (by simp)

theorem Fit.deadline {n : Nat} {c : Coordinator} (h : Fit n c) (quorum : Nat)
    (hp : c.phase = .collecting) : Fit n (c.take quorum .deadline) := by
  have hn : n ≠ 0 := fun hn => by rw [h.phase.mpr hn] at hp; cases hp
  have ha := acknowledge_eq (some .timeout) c
  have he : c.take quorum .deadline =
      { c.acknowledge (some .timeout) with phase := .stopping }.loopHead := by
    unfold take
    rw [hp]
  rw [he]
  exact loopHead_fit (ha.1.trans h.running) (ha.2.1.trans (by rw [h.order]; simp [hn])) (by simp)

theorem Fit.ended {n : Nat} {c : Coordinator} (h : Fit (n + 1) c) (quorum : Nat)
    (result : CallEnd) : Fit n (c.take quorum (.ended result)) := by
  have ho : c.order = true := by rw [h.order]; simp
  have hr : c.running - 1 = n := by rw [h.running]; rfl
  unfold take
  cases hph : c.phase with
  | returned => simpa using h.phase.mp hph
  | stopping => exact loopHead_fit hr ho (by simp)
  | collecting =>
    dsimp only
    cases result with
    | success | error | panic =>
      have hk := check_eq quorum
      refine loopHead_fit ((hk _).1.trans hr) ((hk _).2.1.trans ho) ?_
      rw [(hk _).2.2]
      simp

end Coordinator

/-- A coordinator that has not joined all of its calls. -/
def Fanout.busy : Fanout → Bool
  | .absent => false
  | .registered => true
  | .started _ calls => decide (unjoined calls ≠ 0)

theorem unjoined_set {calls : List Call} {r : Nat} {x y : Call} (h : calls[r]? = some x)
    (hx : x ≠ .joined) (hy : y ≠ .joined) : unjoined (calls.set r y) = unjoined calls := by
  obtain ⟨hr, rfl⟩ := List.getElem?_eq_some_iff.mp h
  have hpos : 0 < calls.countP (· ≠ .joined) :=
    List.countP_pos_iff.mpr ⟨_, List.getElem_mem hr, by simpa using hx⟩
  unfold unjoined
  rw [List.countP_set hr, if_pos (by simpa using hx), if_pos (by simpa using hy)]
  omega

theorem unjoined_join {calls : List Call} {r : Nat} {x : Call} (h : calls[r]? = some x)
    (hx : x ≠ .joined) : unjoined calls = unjoined (calls.set r .joined) + 1 := by
  obtain ⟨hr, rfl⟩ := List.getElem?_eq_some_iff.mp h
  have hpos : 0 < calls.countP (· ≠ .joined) :=
    List.countP_pos_iff.mpr ⟨_, List.getElem_mem hr, by simpa using hx⟩
  unfold unjoined
  rw [List.countP_set hr, if_pos (by simpa using hx), if_neg (by simp)]
  omega

theorem unjoined_ne_zero {calls : List Call} {r : Nat} {x : Call} (h : calls[r]? = some x)
    (hx : x ≠ .joined) : unjoined calls ≠ 0 := by
  rw [unjoined_join h hx]
  exact Nat.succ_ne_zero _

theorem sublist_of_notMem {α : Type} {l init : List α} {x : α} (h : l.Sublist (init ++ [x]))
    (hx : x ∉ l) : l.Sublist init := by
  obtain ⟨l₁, l₂, rfl, h₁, h₂⟩ := List.sublist_append_iff.mp h
  rcases List.sublist_singleton.mp h₂ with rfl | rfl
  · rwa [List.append_nil]
  · exact absurd (by simp) hx

/-- The contents after the given writes. -/
def replayed {K V : Type} [DecidableEq K] (ops : Nat → Option (ReplicationOp K V))
    (writes : List Nat) : Assoc K V := (writes.filterMap ops).foldl ReplicationOp.apply ∅

structure Inv {K V : Type} [DecidableEq K] (replicas : Nat) (s : State K V) : Prop where
  nodup : s.applied.Nodup
  listed : ∀ w, w ∈ s.applied ↔ ∃ f, s.fanouts w = f ∧ f ≠ .absent
  caller : ∀ w, w ∈ s.applied ↔ (s.callers w).applied = true
  fit : ∀ w c calls, s.fanouts w = .started c calls →
    calls.length = replicas ∧ c.Fit (unjoined calls)
  holder : ∀ w, s.callers w = .holding → s.order = some w
  busy : ∀ w, (s.fanouts w).busy = true → s.order = some w ∧ s.applied.getLast? = some w
  starts : ∀ r, (s.starts r).Sublist s.applied
  begun : ∀ w r, w ∈ s.starts r → ∃ c calls, s.fanouts w = .started c calls ∧
    calls[r]? ≠ some .spawned
  contents : s.contents = replayed s.ops s.applied

section Invariant

variable {K V : Type} [DecidableEq K] {quorum replicas : Nat} {s s' : State K V} {l : Label}

theorem Inv.new : Inv replicas (State.new K V) where
  nodup := .nil
  listed w := by simp [State.new]
  caller w := by simp [State.new, Caller.applied]
  fit _ _ _ h := by cases h
  holder _ h := by cases h
  busy _ h := by cases h
  starts _ := List.Sublist.refl _
  begun _ _ h := by cases h
  contents := rfl

omit [DecidableEq K] in
@[simp] theorem State.callers_call {w u : Nat} {c : Caller} :
    (s.call w c).callers u = if u = w then c else s.callers u := by
  by_cases h : u = w
  · subst h
    simp [State.call]
  · simp [State.call, h]

namespace Inv

theorem call (h : Inv replicas s) {w : Nat} {c : Caller}
    (ha : c.applied = (s.callers w).applied) (hc : c ≠ .holding) : Inv replicas (s.call w c) where
  nodup := h.nodup
  listed := h.listed
  caller u := by
    rw [State.callers_call]
    refine (h.caller u).trans ?_
    split
    · next hu => rw [hu, ha]
    · rfl
  fit := h.fit
  holder u hu := by
    rw [State.callers_call] at hu
    split at hu
    · exact absurd hu hc
    · exact h.holder u hu
  busy := h.busy
  starts := h.starts
  begun := h.begun
  contents := h.contents

/-- Only the caller with the permit, or one busy coordinator, has the order. -/
theorem not_busy (h : Inv replicas s) {w : Nat} (hw : s.callers w = .holding) (u : Nat) :
    (s.fanouts u).busy = false := by
  cases hb : (s.fanouts u).busy with
  | false => rfl
  | true =>
    have ho := (h.busy u hb).1
    rw [h.holder w hw] at ho
    obtain rfl := Option.some.inj ho
    have hmem : w ∈ s.applied := (h.listed w).mpr ⟨_, rfl, fun hf => by rw [hf] at hb; cases hb⟩
    rw [h.caller, hw] at hmem
    cases hmem

theorem not_holding (h : Inv replicas s) {w : Nat} (hw : (s.fanouts w).busy = true) (u : Nat) :
    s.callers u ≠ .holding := fun hu => by
  rw [h.not_busy hu w] at hw
  cases hw

theorem yield (h : Inv replicas s) {w : Nat} {c : Caller} (hw : s.callers w = .holding)
    (ha : c.applied = false) (hc : c ≠ .holding) :
    Inv replicas { s.call w c with order := none } := by
  have hcall := h.call (w := w) (c := c) (by rw [ha, hw]; rfl) hc
  refine ⟨hcall.nodup, hcall.listed, hcall.caller, hcall.fit, fun u hu => ?_, fun u hu => ?_,
    hcall.starts, hcall.begun, hcall.contents⟩
  · have ho := hcall.holder u hu
    have hw' := h.holder w hw
    have he : u = w := by
      have : s.order = some u := ho
      rw [hw'] at this
      exact (Option.some.inj this).symm
    rw [he] at hu
    rw [State.callers_call, if_pos rfl] at hu
    exact absurd hu hc
  · have hb : (s.fanouts u).busy = true := hu
    rw [h.not_busy hw u] at hb
    cases hb

omit [DecidableEq K] in
theorem fanouts_update {w u : Nat} {f : Fanout} :
    Function.update s.fanouts w f u = if u = w then f else s.fanouts u := by
  by_cases hu : u = w <;> simp [hu]

theorem coordinate (h : Inv replicas s) {w : Nat} {c : Coordinator} {calls : List Call}
    (hw : (s.fanouts w).busy = true) (hlen : calls.length = replicas)
    (hfit : c.Fit (unjoined calls))
    (hbegun : ∀ r, w ∈ s.starts r → calls[r]? ≠ some .spawned) :
    Inv replicas (s.coordinate w c calls) := by
  have hmem : w ∈ s.applied := (h.listed w).mpr ⟨_, rfl, fun hf => by rw [hf] at hw; cases hw⟩
  have hf (u : Nat) : (s.coordinate w c calls).fanouts u =
      if u = w then .started c calls else s.fanouts u := fanouts_update
  refine ⟨h.nodup, fun u => ?_, h.caller, fun u c' calls' hu => ?_, fun u hu => ?_,
    fun u hu => ?_, h.starts, fun u r hu => ?_, h.contents⟩
  · rw [hf]
    split
    · next hu =>
      rw [hu]
      exact ⟨fun _ => ⟨_, rfl, by simp⟩, fun _ => hmem⟩
    · exact h.listed u
  · rw [hf] at hu
    split at hu
    · cases hu
      exact ⟨hlen, hfit⟩
    · exact h.fit u c' calls' hu
  · exact absurd hu (h.not_holding hw u)
  · rw [hf] at hu
    split at hu
    · next he =>
      rw [he]
      refine ⟨?_, (h.busy w hw).2⟩
      have hne : unjoined calls ≠ 0 := of_decide_eq_true hu
      change (if c.order then s.order else none) = some w
      rw [hfit.order, if_pos (by simpa using hne)]
      exact (h.busy w hw).1
    · next he =>
      have := (h.busy u hu).1
      rw [(h.busy w hw).1] at this
      exact absurd (Option.some.inj this).symm he
  · rw [hf]
    split
    · next he =>
      rw [he] at hu
      exact ⟨c, calls, rfl, hbegun r hu⟩
    · exact h.begun u r hu

theorem advance (h : Inv replicas s) {w r : Nat} {c : Coordinator} {calls : List Call}
    {x y : Call} (hw : s.fanouts w = .started c calls) (hr : calls[r]? = some x)
    (hx : x ≠ .joined) (hy : y ≠ .joined) (hys : y ≠ .spawned) :
    Inv replicas { s with
      fanouts := Function.update s.fanouts w (.started c (calls.set r y)) } := by
  have hb : (s.fanouts w).busy = true := by
    rw [hw]
    exact decide_eq_true (unjoined_ne_zero hr hx)
  obtain ⟨hlen, hfit⟩ := h.fit w c calls hw
  have hne := unjoined_ne_zero hr hx
  have hlen' : (calls.set r y).length = replicas := by simpa using hlen
  have hcoord := h.coordinate (c := c) hb hlen'
    (by rw [unjoined_set hr hx hy]; exact hfit) fun r' hr' hs => by
      obtain ⟨c', calls', hw', hs'⟩ := h.begun w r' hr'
      rw [hw] at hw'
      cases hw'
      rw [List.getElem?_set] at hs
      split at hs
      · split at hs
        · exact hys (Option.some.inj hs)
        · cases hs
      · exact hs' hs
  have ho : c.order = true := by rw [hfit.order]; simpa using hne
  unfold State.coordinate at hcoord
  rwa [if_pos ho] at hcoord

theorem request (h : Inv replicas s) {w : Nat} (op : ReplicationOp K V)
    (hw : s.callers w = .idle) :
    Inv replicas { s.call w .queued with ops := Function.update s.ops w (some op) } := by
  have hcall := h.call (w := w) (c := .queued) (by rw [hw]; rfl) (by simp)
  have hnew : w ∉ s.applied := fun hm => by
    rw [h.caller, hw] at hm
    cases hm
  refine ⟨hcall.nodup, hcall.listed, hcall.caller, hcall.fit, hcall.holder, hcall.busy,
    hcall.starts, hcall.begun, hcall.contents.trans ?_⟩
  unfold replayed
  refine congrArg _ (List.filterMap_congr fun u hu => ?_)
  have hne : u ≠ w := fun he => hnew (by rwa [he] at hu)
  exact (Function.update_of_ne hne ..).symm

theorem acquire (h : Inv replicas s) {w : Nat} (hw : s.callers w = .queued)
    (ho : s.order = none) : Inv replicas { s.call w .holding with order := some w } := by
  have hfree (u : Nat) : s.callers u ≠ .holding := fun hu => by
    have := h.holder u hu
    rw [ho] at this
    cases this
  refine ⟨h.nodup, h.listed, fun u => ?_, h.fit, fun u hu => ?_, fun u hu => ?_, h.starts, h.begun,
    h.contents⟩
  · change u ∈ s.applied ↔ ((s.call w .holding).callers u).applied = true
    rw [State.callers_call, h.caller u]
    split
    · next hu => rw [hu, hw]; rfl
    · rfl
  · have hu : (s.call w .holding).callers u = .holding := hu
    rw [State.callers_call] at hu
    split at hu
    · next he => rw [he]
    · exact absurd hu (hfree u)
  · have := (h.busy u hu).1
    rw [ho] at this
    cases this

/-- The local application hands the permit to the coordinator it registers. -/
theorem apply (h : Inv replicas s) {w : Nat} {op : ReplicationOp K V}
    (hw : s.callers w = .holding) (hop : s.ops w = some op) :
    Inv replicas { s.call w .awaiting with
      contents := op.apply s.contents
      applied := s.applied ++ [w]
      fanouts := Function.update s.fanouts w .registered } := by
  have hnew : w ∉ s.applied := fun hm => by
    rw [h.caller, hw] at hm
    cases hm
  have habs : s.fanouts w = .absent := by
    by_contra hne
    exact hnew ((h.listed w).mpr ⟨_, rfl, hne⟩)
  have hcaller (u : Nat) : (s.call w .awaiting).callers u =
      if u = w then .awaiting else s.callers u := State.callers_call
  have hf (u : Nat) : Function.update s.fanouts w .registered u =
      if u = w then .registered else s.fanouts u := fanouts_update
  refine ⟨?_, fun u => ?_, fun u => ?_, fun u c calls hu => ?_, fun u hu => ?_, fun u hu => ?_,
    fun r => ?_, fun u r hu => ?_, ?_⟩
  · exact List.nodup_append.mpr ⟨h.nodup, List.nodup_singleton w, fun a ha b hb hab => by
      rw [List.mem_singleton.mp hb] at hab
      exact hnew (hab ▸ ha)⟩
  · dsimp only
    rw [List.mem_append, List.mem_singleton, hf]
    split
    · next hu => exact ⟨fun _ => ⟨_, rfl, by simp⟩, fun _ => .inr hu⟩
    · next hu =>
      rw [← h.listed u]
      simp [hu]
  · dsimp only
    rw [List.mem_append, List.mem_singleton, hcaller]
    split
    · next hu => exact ⟨fun _ => rfl, fun _ => .inr hu⟩
    · next hu =>
      rw [← h.caller u]
      simp [hu]
  · dsimp only at hu
    rw [hf] at hu
    split at hu
    · cases hu
    · exact h.fit u c calls hu
  · dsimp only at hu
    rw [hcaller] at hu
    split at hu
    · cases hu
    · exact h.holder u hu
  · dsimp only at hu
    rw [hf] at hu
    split at hu
    · next he =>
      rw [he]
      exact ⟨h.holder w hw, by simp⟩
    · rw [h.not_busy hw u] at hu
      cases hu
  · exact (h.starts r).trans (List.sublist_append_left ..)
  · obtain ⟨c, calls, hu', hs⟩ := h.begun u r hu
    refine ⟨c, calls, ?_, hs⟩
    dsimp only
    rw [hf, if_neg]
    · exact hu'
    · rintro rfl
      rw [habs] at hu'
      cases hu'
  · dsimp only
    rw [h.contents, replayed, replayed, List.filterMap_append, List.foldl_append]
    have : [w].filterMap s.ops = [op] := by simp [hop]
    change _ = List.foldl ReplicationOp.apply _ ([w].filterMap s.ops)
    rw [this]
    rfl

theorem begin (h : Inv replicas s) {w r : Nat} {c : Coordinator} {calls : List Call}
    (hw : s.fanouts w = .started c calls) (hr : calls[r]? = some .spawned) :
    Inv replicas { s with
      fanouts := Function.update s.fanouts w (.started c (calls.set r .running))
      starts := Function.update s.starts r (s.starts r ++ [w]) } := by
  have hb : (s.fanouts w).busy = true := by
    rw [hw]
    exact decide_eq_true (unjoined_ne_zero hr (by simp))
  have hnew : w ∉ s.starts r := fun hm => by
    obtain ⟨c', calls', hw', hs⟩ := h.begun w r hm
    rw [hw] at hw'
    cases hw'
    exact hs hr
  have hadv := h.advance hw hr (y := .running) (by simp) (by simp) (by simp)
  have hlast : ∃ init, s.applied = init ++ [w] := List.getLast?_eq_some_iff.mp (h.busy w hb).2
  have hst (r' : Nat) : Function.update s.starts r (s.starts r ++ [w]) r' =
      if r' = r then s.starts r ++ [w] else s.starts r' := by
    by_cases he : r' = r <;> simp [he]
  refine ⟨hadv.nodup, hadv.listed, hadv.caller, hadv.fit, hadv.holder, hadv.busy, fun r' => ?_,
    fun u r' hu => ?_, hadv.contents⟩
  · dsimp only
    rw [hst]
    split
    · obtain ⟨init, hinit⟩ := hlast
      have hsub := h.starts r
      rw [hinit] at hsub ⊢
      refine List.Sublist.append ?_ (List.Sublist.refl _)
      exact sublist_of_notMem hsub hnew
    · exact h.starts r'
  · dsimp only at hu
    rw [hst] at hu
    split at hu
    · next he =>
      rcases List.mem_append.mp hu with hu | hu
      · exact hadv.begun u r' (he ▸ hu)
      · rw [List.mem_singleton.mp hu, he]
        refine ⟨c, calls.set r .running, by simp, ?_⟩
        rw [List.getElem?_set]
        split <;> [split; skip] <;> simp_all
    · exact hadv.begun u r' hu

theorem step (h : Inv replicas s) (hs : Step quorum replicas l s s') : Inv replicas s' := by
  cases hs with
  | request w op hw => exact h.request op hw
  | acquire hw ho => exact h.acquire hw ho
  | expire hw | withdraw hw => exact h.call (by rw [hw]; rfl) (by simp)
  | overdue hw | stop hw => exact h.yield hw rfl (by simp)
  | apply hw hop => exact h.apply hw hop
  | cancel hw => exact h.call (by rw [hw]; rfl) (by simp)
  | launch hw =>
    refine h.coordinate (by rw [hw]; rfl) List.length_replicate ?_ fun r hr => ?_
    · have : unjoined (List.replicate replicas Call.spawned) = replicas := by
        simp [unjoined, List.countP_replicate]
      rw [this]
      exact Coordinator.start_fit quorum replicas
    · obtain ⟨c, calls, hw', _⟩ := h.begun _ r hr
      rw [hw] at hw'
      cases hw'
  | begin hw hr => exact h.begin hw hr
  | finish result hw hr => exact h.advance hw hr (by simp) (by simp) (by simp)
  | abort hw hr hp => exact h.advance hw hr (by simp) (by simp) (by simp)
  | join hw hr =>
    obtain ⟨hlen, hfit⟩ := h.fit _ _ _ hw
    have hjoin := unjoined_join hr (by simp)
    rw [hjoin] at hfit
    refine h.coordinate ?_ (by simpa using hlen) (hfit.ended quorum _) fun r' hr' hsp => ?_
    · rw [hw]
      exact decide_eq_true (by omega)
    · obtain ⟨c', calls', hw', hs'⟩ := h.begun _ r' hr'
      rw [hw] at hw'
      cases hw'
      rw [List.getElem?_set] at hsp
      split at hsp
      · split at hsp
        · cases hsp
        · cases hsp
      · exact hs' hsp
  | deadline hw hp =>
    obtain ⟨hlen, hfit⟩ := h.fit _ _ _ hw
    refine h.coordinate ?_ hlen (hfit.deadline quorum hp) fun r hr => ?_
    · rw [hw]
      refine decide_eq_true fun hz => ?_
      rw [hfit.phase.mpr hz] at hp
      cases hp
    · obtain ⟨c', calls', hw', hs'⟩ := h.begun _ r hr
      rw [hw] at hw'
      cases hw'
      exact hs'
  | answer hw hf hr => exact h.call (by rw [hw]; rfl) (by simp)

end Inv
theorem Inv.run {ls : List Label} (h : Replay (Step quorum replicas) (State.new K V) ls s) :
    Inv replicas s := by
  suffices ∀ s₀ : State K V, Inv replicas s₀ → Replay (Step quorum replicas) s₀ ls s →
      Inv replicas s from this _ .new h
  intro s₀ h₀ hr
  clear h
  induction hr with
  | nil => exact h₀
  | cons hs _ ih => exact ih (h₀.step hs)

/-- A write that left the queue does not come back. -/
theorem Step.left_queue (hs : Step quorum replicas l s s') {w : Nat}
    (hw : s.callers w = .expired ∨ s.callers w = .withdrawn) :
    s'.callers w = s.callers w := by
  have hcall {u : Nat} {c : Caller} (hu : s.callers u ≠ .expired ∧ s.callers u ≠ .withdrawn) :
      (s.call u c).callers w = s.callers w := by
    rw [State.callers_call, if_neg]
    rintro rfl
    rcases hw with hw | hw
    · exact hu.1 hw
    · exact hu.2 hw
  cases hs with
  | request _ _ hu | acquire hu _ | expire hu | withdraw hu | overdue hu | stop hu | apply hu _
  | cancel hu | answer hu _ _ => exact hcall (by rw [hu]; simp)
  | launch | begin | finish | abort | join | deadline => rfl

theorem left_queue_run {ls : List Label} {w : Nat}
    (hr : Replay (Step quorum replicas) s ls s')
    (hw : s.callers w = .expired ∨ s.callers w = .withdrawn) :
    s'.callers w = s.callers w := by
  induction hr with
  | nil => rfl
  | cons hs _ ih =>
    have he := hs.left_queue hw
    exact (ih (by rwa [he])).trans he

/-- A write that is not applied has no part in any replica. -/
theorem Inv.unapplied (h : Inv replicas s) {w : Nat} (hw : w ∉ s.applied) (r : Nat) :
    w ∉ s.starts r :=
  fun hm => hw ((h.starts r).subset hm)

omit [DecidableEq K] in
theorem busy_of_running {w r : Nat} {c : Coordinator} {calls : List Call}
    (hw : s.fanouts w = .started c calls) (hr : calls[r]? = some .running) :
    (s.fanouts w).busy = true := by
  rw [hw]
  exact decide_eq_true (unjoined_ne_zero hr (by simp))

theorem replicated_writes_ordered {ls : List Label}
    (h : Replay (Step quorum replicas) (State.new K V) ls s) :
    -- a write that leaves the queue without the permit has no effect, then or later
    (∀ w l s₁ post s₂, s.callers w = .queued → l = .expire w ∨ l = .cancel w →
      Step quorum replicas l s s₁ → Replay (Step quorum replicas) s₁ post s₂ →
      s₁.contents = s.contents ∧ w ∉ s₂.applied ∧ ∀ r, w ∉ s₂.starts r) ∧
    -- an applied write has its complete fanout, and no other write has a call
    (∀ w ∈ s.applied, s.fanouts w = .registered ∨
      ∃ c calls, s.fanouts w = .started c calls ∧ calls.length = replicas) ∧
    (∀ w, w ∉ s.applied → s.fanouts w = .absent ∧ ∀ r, w ∉ s.starts r) ∧
    s.contents = replayed s.ops s.applied ∧
    -- calls start in the order of the local applications, one write after the other
    (∀ r, (s.starts r).Sublist s.applied ∧ (s.starts r).Nodup) ∧
    (∀ w l s', (l = .apply w ∨ ∃ r, l = .begin w r) → Step quorum replicas l s s' →
      ∀ u ∈ s.applied, u ≠ w → ∀ c (calls : List Call) (r : Nat),
        s.fanouts u = .started c calls →
        calls[r]? ≠ some Call.running) := by
  have hi := Inv.run h
  refine ⟨fun w l s₁ post s₂ hq hl hs hr => ?_, fun w hw => ?_, fun w hw => ?_, hi.contents,
    fun r => ⟨hi.starts r, hi.nodup.sublist (hi.starts r)⟩,
    fun w l s' hl hs u _ hne c calls r hf hrun => ?_⟩
  · have hleft : (s₁.callers w = .expired ∨ s₁.callers w = .withdrawn) ∧
        s₁.contents = s.contents := by
      rcases hl with rfl | rfl
      · cases hs with
        | expire _ => exact ⟨.inl (by simp), rfl⟩
      · cases hs with
        | withdraw _ => exact ⟨.inr (by simp), rfl⟩
        | stop hw | cancel hw => rw [hq] at hw; cases hw
    have hi₂ : Inv replicas s₂ := Inv.run (h.append (.cons hs hr))
    have hend := left_queue_run hr hleft.1
    have hnot : w ∉ s₂.applied := by
      rw [hi₂.caller, hend]
      rcases hleft.1 with he | he <;> rw [he] <;> simp [Caller.applied]
    exact ⟨hleft.2, hnot, hi₂.unapplied hnot⟩
  · obtain ⟨f, hf, hne⟩ := (hi.listed w).mp hw
    cases f with
    | absent => exact absurd rfl hne
    | registered => exact .inl hf
    | started c calls => exact .inr ⟨c, calls, hf, (hi.fit w c calls hf).1⟩
  · refine ⟨?_, hi.unapplied hw⟩
    by_contra hne
    exact hw ((hi.listed w).mpr ⟨_, rfl, hne⟩)
  · have hbusy := busy_of_running hf hrun
    rcases hl with rfl | ⟨r', rfl⟩
    · cases hs with
      | apply hw _ =>
        rw [hi.not_busy hw u] at hbusy
        cases hbusy
    · cases hs with
      | begin hw hr =>
        have hbusy' : (s.fanouts w).busy = true := by
          rw [hw]
          exact decide_eq_true (unjoined_ne_zero hr (by simp))
        have := (hi.busy u hbusy).1
        rw [(hi.busy w hbusy').1] at this
        exact hne (Option.some.inj this).symm

end Invariant

/-- A second write waits in the queue while the call of the first one runs. -/
theorem replicated_writes_ordered_pair :
    ∃ s : State Nat Nat, s.applied = [0] ∧ s.starts 0 = [0] ∧ s.fanouts 1 = .absent ∧
      s.contents.lookup 3 = some 7 := by
  have hr : ∃ s : State Nat Nat, Replay (Step 2 1) (State.new Nat Nat)
      [.request 0, .acquire 0, .request 1, .apply 0, .launch 0, .begin 0 0, .cancel 1] s ∧
        s.applied = [0] ∧ s.starts 0 = [0] ∧ s.ops 0 = some (.insert 3 7) :=
    ⟨_, .cons (.request 0 (.insert 3 7) rfl) (.cons (.acquire rfl rfl)
      (.cons (.request 1 (.remove 3) rfl) (.cons (.apply rfl rfl)
      (.cons (.launch rfl) (.cons (.begin rfl rfl) (.cons (.withdraw rfl) .nil)))))), rfl, rfl, rfl⟩
  obtain ⟨s, hrun, ha, hst, hop⟩ := hr
  obtain ⟨_, _, hnot, hcontents, _⟩ := replicated_writes_ordered hrun
  refine ⟨s, ha, hst, (hnot 1 (by rw [ha]; decide)).1, ?_⟩
  have hops : [0].filterMap s.ops = [.insert 3 7] := by simp [hop]
  rw [hcontents, replayed, ha, hops]
  exact AList.lookup_insert _

end Starshard.Replication
