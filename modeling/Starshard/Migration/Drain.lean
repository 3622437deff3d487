import Starshard.Migration.Batch

/-! The source generation inside a batch: what it still holds, and what one transfer
and one retirement do to it. -/
namespace Starshard.Migration

open Data Worker

variable {K V : Type} [DecidableEq K] {hash : K → Nat}

section Left

variable {t : Tables K V} {p : Shards K V} {i : Nat} {k : K} {v : V}

/-- The entries of the previous generation. -/
def leftover (t : Tables K V) : List (K × V) :=
  (t.previous.getD []).flatMap fun m => (m.getD ∅).items

def previousLookup (hash : K → Nat) (t : Tables K V) (k : K) : Option V :=
  t.previous.bind fun p => (slot p (hash k % t.previousShardCount)).lookup k

theorem represents_leftover (h : t.Placed hash) :
    Represents (leftover t) (previousLookup hash t) where
  nodup := by
    refine h.entries_nodup.sublist (List.Sublist.map Prod.fst ?_)
    unfold Tables.entries leftover
    rw [List.flatMap_append]
    exact List.sublist_append_right _ _
  mem k v := by
    unfold leftover previousLookup
    rw [Tables.mem_shards]
    cases hp : t.previous with
    | none => simp [slot]
    | some p =>
      rw [Option.getD_some, Option.bind_some]
      constructor
      · rintro ⟨i, hi⟩
        rwa [h.previous p hp i k v hi]
      · exact fun hv => ⟨_, hv⟩

omit [DecidableEq K] in
theorem length_leftover_le (t : Tables K V) : (leftover t).length ≤ t.entries.length := by
  unfold Tables.entries leftover
  rw [List.flatMap_append, List.length_append]
  exact Nat.le_add_left _ _

theorem previous_move (hp : t.previous = some p) (hv : (slot p i).lookup k = some v) :
    (t.move hash i k).previous = some (eraseAt i k p) := by
  unfold Tables.move
  rw [hp]
  dsimp only
  rw [hv]
  dsimp only
  split <;> rfl

theorem previousLookup_detach (k k' : K) :
    previousLookup hash (t.insert hash k v) k' =
      if k' = k then none else previousLookup hash t k' := by
  change ((t.previous.map (eraseAt (hash k % t.previousShardCount) k)).bind fun p =>
    (slot p (hash k' % t.previousShardCount)).lookup k') = _
  unfold previousLookup
  cases t.previous with
  | none => simp
  | some p =>
    rw [Option.map_some, Option.bind_some, Option.bind_some, lookup_eraseAt]
    by_cases hk : k' = k <;> simp [hk]

theorem length_leftover_move (h : t.Placed hash) (hp : t.previous = some p)
    (hv : (slot p i).lookup k = some v) :
    (leftover t).length = (leftover (t.move hash i k)).length + 1 := by
  have hi := h.previous p hp i k v hv
  have hk : previousLookup hash t k = some v := by
    rw [previousLookup, hp, Option.bind_some, hi, hv]
  rw [h.move_eq hp hv]
  refine (represents_leftover h).length_erase (represents_leftover (h.insert k v)) hk ?_ ?_
  · rw [previousLookup_detach, if_pos rfl]
  · exact fun k' hk' => by rw [previousLookup_detach, if_neg hk']

theorem leftover_congr {t' : Tables K V} (h : t.Placed hash) (h' : t'.Placed hash)
    (hl : ∀ k, previousLookup hash t' k = previousLookup hash t k) :
    (leftover t').length = (leftover t).length := by
  have hr := represents_leftover h'
  rw [funext hl] at hr
  exact hr.length_eq (represents_leftover h)

theorem length_leftover_retire (h : t.Placed hash) (hi : ∀ p, t.previous = some p → slot p i = ∅) :
    (leftover (t.retire i)).length = (leftover t).length := by
  refine leftover_congr h (h.retire i) fun k => ?_
  unfold previousLookup Tables.retire
  dsimp only
  cases hp : t.previous with
  | none => rfl
  | some p =>
    simp only [Option.map_some, Option.bind_some, slot_clear]
    split
    · next he => rw [he, hi p hp]
    · rfl

omit [DecidableEq K] in
theorem source_eq (hp : t.previous = some p) : (t.source i).getD ∅ = slot p i := by
  unfold Tables.source slot
  rw [hp, Option.bind_some]

theorem size_eq_zero_iff {m : Assoc K V} : m.size = 0 ↔ m = ∅ := by
  rw [Assoc.size_eq_zero]
  constructor
  · intro h
    refine AList.ext (List.eq_nil_iff_forall_not_mem.mpr fun e he => ?_)
    have := Assoc.mem_items.mp (List.mem_map.mpr ⟨e, he, rfl⟩ : (e.1, e.2) ∈ m.items)
    rw [h] at this
    cases this
  · rintro rfl k
    exact AList.lookup_empty k

theorem drainedSource_iff (hp : t.previous = some p) :
    drainedSource (t.source i) = true ↔ slot p i = ∅ := by
  rw [← source_eq hp]
  cases hs : t.source i with
  | none => simp [drainedSource]
  | some m => simp [drainedSource, size_eq_zero_iff]

end Left

/-- A migration in progress, and what it has in common with the state it started from. -/
structure Draining (hash : K → Nat) (s₀ s : State K V) (p : Shards K V) : Prop where
  placed : s.tables.Placed hash
  previous : s.tables.previous = some p
  migrating : s.tracker.migrating = true
  total : s.tracker.telemetry.totalShards = p.length
  completed : s.tracker.telemetry.completedShards ≤ p.length
  drained : ∀ i < s.tracker.telemetry.completedShards, slot p i = ∅
  lookup : ∀ k, s.tables.lookup hash k = s₀.tables.lookup hash k
  len : s.totalLen = s₀.totalLen
  epoch : s.writeEpoch = s₀.writeEpoch
  count : s.tables.shardCount = s₀.tables.shardCount
  totals : s.tracker.telemetry.totalShards = s₀.tracker.telemetry.totalShards
  generation : s.tracker.telemetry.generation = s₀.tracker.telemetry.generation
  paused : s.tracker.telemetry.paused = s₀.tracker.telemetry.paused

theorem State.Sound.draining {s : State K V} (h : s.Sound hash) (hm : s.tracker.migrating = true) :
    ∃ p, Draining hash s s p ∧ s.tracker.telemetry.completedShards < p.length := by
  have hp := h.migrating
  rw [hm, Option.isSome_iff_exists] at hp
  obtain ⟨p, hp⟩ := hp
  have hlt := h.strict hm
  rw [h.total p hp] at hlt
  exact ⟨p, ⟨h.placed, hp, hm, h.total p hp, Nat.le_of_lt hlt, h.drained p hp, fun _ => rfl, rfl,
    rfl, rfl, rfl, rfl, rfl⟩, hlt⟩

namespace Draining

variable {s₀ s : State K V} {p : Shards K V}

theorem move (h : Draining hash s₀ s p) {i : Nat} {k : K} {v : V}
    (hv : (slot p i).lookup k = some v) :
    Draining hash s₀ { s with tables := s.tables.move hash i k, tracker := s.tracker.moved }
      (eraseAt i k p) where
  placed := h.placed.move h.previous hv
  previous := previous_move h.previous hv
  migrating := h.migrating
  total := h.total.trans length_eraseAt.symm
  completed := Nat.le_trans h.completed (Nat.le_of_eq length_eraseAt.symm)
  drained j hj := slot_eraseAt_empty (h.drained j hj)
  lookup k' := (h.placed.lookup_move h.previous hv k').trans (h.lookup k')
  len := h.len
  epoch := h.epoch
  count := by
    dsimp only
    rw [h.placed.move_eq h.previous hv]
    exact h.count
  totals := h.totals
  generation := h.generation
  paused := h.paused

theorem retire (h : Draining hash s₀ s p)
    (hlt : s.tracker.telemetry.completedShards < p.length)
    (he : slot p s.tracker.telemetry.completedShards = ∅) :
    Draining hash s₀
      { s with
        tables := s.tables.retire s.tracker.telemetry.completedShards
        tracker := s.tracker.step }
      (p.set s.tracker.telemetry.completedShards none) where
  placed := h.placed.retire _
  previous := by simp [Tables.retire, h.previous]
  migrating := h.migrating
  total := h.total.trans List.length_set.symm
  completed := Nat.le_trans hlt (Nat.le_of_eq List.length_set.symm)
  drained j hj := by
    have hj : j < s.tracker.telemetry.completedShards + 1 := hj
    rw [slot_clear]
    split
    · rfl
    · exact h.drained j (by omega)
  lookup k := by
    refine (Tables.Placed.lookup_retire (fun q hq => ?_) k).trans (h.lookup k)
    rw [h.previous] at hq
    cases hq
    exact he
  len := h.len
  epoch := h.epoch
  count := h.count
  totals := h.totals
  generation := h.generation
  paused := h.paused

theorem empty (h : Draining hash s₀ s p)
    (heq : s.tracker.telemetry.completedShards = s.tracker.telemetry.totalShards) (i : Nat) :
    slot p i = ∅ := by
  by_cases hi : i < p.length
  · exact h.drained i (by rw [heq, h.total]; exact hi)
  · exact slot_of_le (Nat.le_of_not_lt hi)

end Draining

/-- No migration is left, and what the state has in common with an earlier one. -/
structure Idle (hash : K → Nat) (s₀ s : State K V) : Prop where
  placed : s.tables.Placed hash
  previous : s.tables.previous = none
  migrating : s.tracker.migrating = false
  lookup : ∀ k, s.tables.lookup hash k = s₀.tables.lookup hash k
  len : s.totalLen = s₀.totalLen
  epoch : s.writeEpoch = s₀.writeEpoch

theorem Draining.finish {s₀ s : State K V} {p : Shards K V} (h : Draining hash s₀ s p)
    (heq : s.tracker.telemetry.completedShards = s.tracker.telemetry.totalShards) (now : Nat) :
    Idle hash s₀ { s with tables := s.tables.finish, tracker := s.tracker.finish now } where
  placed := h.placed.finish
  previous := rfl
  migrating := rfl
  lookup k := by
    refine (Tables.Placed.lookup_finish (fun q hq i => ?_) k).trans (h.lookup k)
    rw [h.previous] at hq
    cases hq
    exact h.empty heq i
  len := h.len
  epoch := h.epoch

end Starshard.Migration
