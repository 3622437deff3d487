import Starshard.Map.Common

/-! Readings of the shared state, and what makes a state well formed. -/
namespace Starshard

open Data

variable {K V E : Type} [DecidableEq K]

namespace State

/-- The allocated shards of both generations, active first. -/
def live (s : State K V E) : List Nat :=
  allocatedShards s.shards ++ allocatedShards (s.previous.getD [])

def home (hash : K → Nat) (s : State K V E) (k : K) : Option Nat :=
  (s.shards[hash k % s.shardCount]?).join

def prevHome (hash : K → Nat) (s : State K V E) (k : K) : Option Nat :=
  slotAt s.previous (hash k % s.previousShardCount)

def activeLookup (hash : K → Nat) (s : State K V E) (k : K) : Option V :=
  (s.home hash k).bind fun id => (s.heap id).lookup k

def prevLookup (hash : K → Nat) (s : State K V E) (k : K) : Option V :=
  (s.prevHome hash k).bind fun id => (s.heap id).lookup k

/-- The logical contents: the union of both generations. -/
def contents (hash : K → Nat) (s : State K V E) (k : K) : Option V :=
  s.activeLookup hash k <|> s.prevLookup hash k

def entries (s : State K V E) : List (K × V) := s.live.flatMap fun id => (s.heap id).items

/-- Directories, counters and tracker describe one layout, and every key is
stored at its own place, once. -/
structure WellFormed (hash : K → Nat) (s : State K V E) : Prop where
  count_pos : 0 < s.shardCount
  length : s.shards.length = s.shardCount
  previous_length : ∀ slots, s.previous = some slots → slots.length = s.previousShardCount
  previous_none : s.previous = none ↔ s.previousShardCount = 0
  migrating : s.tracker.layout.migrating = s.previous.isSome
  progress : s.previous.isSome → s.tracker.layout.totalShards = s.previousShardCount ∧
    s.tracker.layout.completedShards < s.tracker.layout.totalShards ∧
    s.tracker.layout.toShards = s.shardCount
  drained : ∀ i, i < s.tracker.layout.completedShards → slotAt s.previous i = none
  nodup : s.live.Nodup
  bound : ∀ id ∈ s.live, id < s.next
  home_active : ∀ (i id : Nat), s.shards[i]? = some (some id) → ∀ k v, (s.heap id).lookup k = some v →
    hash k % s.shardCount = i
  home_previous : ∀ i id, slotAt s.previous i = some id → ∀ k v, (s.heap id).lookup k = some v →
    hash k % s.previousShardCount = i
  disjoint : ∀ k, s.activeLookup hash k = none ∨ s.prevLookup hash k = none

end State

theorem mem_allocatedShards {slots : Slots} {id : Nat} :
    id ∈ allocatedShards slots ↔ ∃ i : Nat, slots[i]? = some (some id) := by
  rw [allocatedShards, List.mem_filterMap, ← List.mem_iff_getElem?]
  simp

theorem slotAt_eq_some {slots : Option Slots} {i id : Nat} :
    slotAt slots i = some id ↔ ∃ p, slots = some p ∧ p[i]? = some (some id) := by
  cases slots <;> simp [slotAt, Option.join_eq_some_iff]

@[simp] theorem slotAt_none (i : Nat) : slotAt none i = none := rfl

theorem mem_previous {slots : Option Slots} {id : Nat} :
    id ∈ allocatedShards (slots.getD []) ↔ ∃ i : Nat, slotAt slots i = some id := by
  cases slots <;> simp [mem_allocatedShards, slotAt_eq_some]

theorem slot_unique {slots : Slots} (hn : (allocatedShards slots).Nodup) {i j id : Nat}
    (hi : slots[i]? = some (some id)) (hj : slots[j]? = some (some id)) : i = j := by
  induction slots generalizing i j with
  | nil => simp at hi
  | cons slot slots ih =>
    have hn' : (allocatedShards slots).Nodup := by
      cases slot with
      | none => exact hn
      | some x => exact (List.nodup_cons.mp hn).2
    have hhead : slot = some id → ∀ n : Nat, slots[n]? ≠ some (some id) := by
      rintro rfl n hm
      exact (List.nodup_cons.mp hn).1 (mem_allocatedShards.mpr ⟨n, hm⟩)
    cases i with
    | zero =>
      cases j with
      | zero => rfl
      | succ j => exact absurd hj (hhead (by simpa using hi) j)
    | succ i =>
      cases j with
      | zero => exact absurd hi (hhead (by simpa using hj) i)
      | succ j => exact congrArg Nat.succ (ih hn' hi hj)

namespace State

variable {hash : K → Nat} {s s' : State K V E}

omit [DecidableEq K] in
theorem mem_live {id : Nat} : id ∈ s.live ↔
    (∃ i : Nat, s.shards[i]? = some (some id)) ∨ ∃ i : Nat, slotAt s.previous i = some id := by
  rw [live, List.mem_append, mem_allocatedShards, mem_previous]

omit [DecidableEq K] in
theorem home_eq_some {k : K} {id : Nat} :
    s.home hash k = some id ↔ s.shards[hash k % s.shardCount]? = some (some id) := by
  simp [home, Option.join_eq_some_iff]

omit [DecidableEq K] in
theorem live_of_home {k : K} {id : Nat} (h : s.home hash k = some id) : id ∈ s.live :=
  mem_live.mpr (.inl ⟨_, home_eq_some.mp h⟩)

omit [DecidableEq K] in
theorem live_of_prevHome {k : K} {id : Nat} (h : s.prevHome hash k = some id) : id ∈ s.live :=
  mem_live.mpr (.inr ⟨_, h⟩)

namespace WellFormed

theorem active_ne_previous (hw : s.WellFormed hash) {i j id : Nat}
    (hi : s.shards[i]? = some (some id)) : slotAt s.previous j ≠ some id := by
  intro hj
  exact (List.nodup_append'.mp hw.nodup).2.2 (mem_allocatedShards.mpr ⟨i, hi⟩)
    (mem_previous.mpr ⟨j, hj⟩)

theorem home_ne_prevHome (hw : s.WellFormed hash) {k k' : K} {id : Nat}
    (h : s.home hash k = some id) : s.prevHome hash k' ≠ some id :=
  hw.active_ne_previous (home_eq_some.mp h)

theorem lookup_active (hw : s.WellFormed hash) {i id : Nat} {k : K} {v : V}
    (hi : s.shards[i]? = some (some id)) (hv : (s.heap id).lookup k = some v) :
    s.activeLookup hash k = some v := by
  have hk := hw.home_active i id hi k v hv
  simp [activeLookup, home, hk, hi, hv]

theorem lookup_previous (hw : s.WellFormed hash) {i id : Nat} {k : K} {v : V}
    (hi : slotAt s.previous i = some id) (hv : (s.heap id).lookup k = some v) :
    s.prevLookup hash k = some v := by
  have hk := hw.home_previous i id hi k v hv
  simp [prevLookup, prevHome, hk, hi, hv]

theorem index_lt (hw : s.WellFormed hash) (k : K) :
    hash k % s.shardCount < s.shards.length := by
  rw [hw.length]
  exact Nat.mod_lt _ hw.count_pos

end WellFormed

/-- States with the same directories and the same tables have the same readings. -/
structure SameTables (s s' : State K V E) : Prop where
  shards : s'.shards = s.shards
  previous : s'.previous = s.previous
  heap : s'.heap = s.heap
  next : s'.next = s.next
  shardCount : s'.shardCount = s.shardCount
  previousShardCount : s'.previousShardCount = s.previousShardCount
  layout : s'.tracker.layout = s.tracker.layout

namespace SameTables

omit [DecidableEq K] in
theorem refl (s : State K V E) : SameTables s s := ⟨rfl, rfl, rfl, rfl, rfl, rfl, rfl⟩

omit [DecidableEq K] in
theorem trans {s s' s'' : State K V E} (h : SameTables s s') (h' : SameTables s' s'') :
    SameTables s s'' :=
  ⟨h'.shards.trans h.shards, h'.previous.trans h.previous, h'.heap.trans h.heap,
    h'.next.trans h.next, h'.shardCount.trans h.shardCount,
    h'.previousShardCount.trans h.previousShardCount, h'.layout.trans h.layout⟩

omit [DecidableEq K] in
theorem live (h : SameTables s s') : s'.live = s.live := by
  simp [State.live, h.shards, h.previous]

omit [DecidableEq K] in
theorem home (h : SameTables s s') (k : K) : s'.home hash k = s.home hash k := by
  simp [State.home, h.shards, h.shardCount]

omit [DecidableEq K] in
theorem prevHome (h : SameTables s s') (k : K) : s'.prevHome hash k = s.prevHome hash k := by
  simp [State.prevHome, h.previous, h.previousShardCount]

theorem activeLookup (h : SameTables s s') (k : K) :
    s'.activeLookup hash k = s.activeLookup hash k := by
  simp [State.activeLookup, h.home, h.heap]

theorem prevLookup (h : SameTables s s') (k : K) :
    s'.prevLookup hash k = s.prevLookup hash k := by
  simp [State.prevLookup, h.prevHome, h.heap]

theorem contents (h : SameTables s s') (k : K) : s'.contents hash k = s.contents hash k := by
  simp [State.contents, h.activeLookup, h.prevLookup]

theorem wellFormed (h : SameTables s s') (hw : s.WellFormed hash) : s'.WellFormed hash where
  count_pos := h.shardCount ▸ hw.count_pos
  length := by rw [h.shards, h.shardCount, hw.length]
  previous_length := by rw [h.previous, h.previousShardCount]; exact hw.previous_length
  previous_none := by rw [h.previous, h.previousShardCount]; exact hw.previous_none
  migrating := by rw [h.layout, h.previous]; exact hw.migrating
  progress := by
    rw [h.previous, h.layout, h.previousShardCount, h.shardCount]; exact hw.progress
  drained := by rw [h.layout, h.previous]; exact hw.drained
  nodup := h.live ▸ hw.nodup
  bound := by rw [h.live, h.next]; exact hw.bound
  home_active := by rw [h.shards, h.heap, h.shardCount]; exact hw.home_active
  home_previous := by rw [h.previous, h.heap, h.previousShardCount]; exact hw.home_previous
  disjoint k := by rw [h.activeLookup, h.prevLookup]; exact hw.disjoint k

end SameTables

/-- The same tables, counted and published alike. -/
structure SameCore (s s' : State K V E) : Prop where
  shards : s'.shards = s.shards
  previous : s'.previous = s.previous
  heap : s'.heap = s.heap
  next : s'.next = s.next
  shardCount : s'.shardCount = s.shardCount
  previousShardCount : s'.previousShardCount = s.previousShardCount
  totalLen : s'.totalLen = s.totalLen
  published : s'.published = s.published
  layout : s'.tracker.layout = s.tracker.layout

namespace SameCore

omit [DecidableEq K] in
theorem refl (s : State K V E) : SameCore s s := ⟨rfl, rfl, rfl, rfl, rfl, rfl, rfl, rfl, rfl⟩

omit [DecidableEq K] in
theorem trans {s s' s'' : State K V E} (h : SameCore s s') (h' : SameCore s' s'') :
    SameCore s s'' :=
  ⟨h'.shards.trans h.shards, h'.previous.trans h.previous, h'.heap.trans h.heap,
    h'.next.trans h.next, h'.shardCount.trans h.shardCount,
    h'.previousShardCount.trans h.previousShardCount, h'.totalLen.trans h.totalLen,
    h'.published.trans h.published, h'.layout.trans h.layout⟩

omit [DecidableEq K] in
theorem symm (h : SameCore s s') : SameCore s' s :=
  ⟨h.shards.symm, h.previous.symm, h.heap.symm, h.next.symm, h.shardCount.symm,
    h.previousShardCount.symm, h.totalLen.symm, h.published.symm, h.layout.symm⟩

omit [DecidableEq K] in
theorem tables (h : SameCore s s') : SameTables s s' :=
  ⟨h.shards, h.previous, h.heap, h.next, h.shardCount, h.previousShardCount, h.layout⟩

end SameCore
end State
end Starshard
