import Starshard.Data.Assoc

/-! The two directories as their exclusive owner sees them: slots holding finite
maps. Every operation of a migration keeps each entry where a lookup finds it. -/
namespace Starshard.Worker

open Data

/-- A slot is `none` until it is first used. -/
abbrev Shards (K V : Type) := List (Option (Assoc K V))

structure Tables (K V : Type) where
  active : Shards K V
  previous : Option (Shards K V)
  shardCount : Nat
  previousShardCount : Nat

def slot {K V : Type} (shards : Shards K V) (i : Nat) : Assoc K V := (shards[i]?.join).getD ∅

section Slot

variable {K V : Type} {shards : Shards K V} {i j n : Nat} {m : Assoc K V}

theorem slot_set (hi : i < shards.length) :
    slot (shards.set i (some m)) j = if j = i then m else slot shards j := by
  unfold slot
  rw [List.getElem?_set]
  by_cases h : j = i
  · subst h
    simp [hi]
  · simp [h, Ne.symm h]

theorem slot_clear : slot (shards.set i none) j = if j = i then ∅ else slot shards j := by
  unfold slot
  rw [List.getElem?_set]
  by_cases h : j = i
  · subst h
    by_cases hi : j < shards.length <;> simp [hi]
  · simp [h, Ne.symm h]

@[simp] theorem slot_replicate : slot (List.replicate n (none : Option (Assoc K V))) i = ∅ := by
  unfold slot
  rw [List.getElem?_replicate]
  by_cases h : i < n <;> simp [h]

theorem slot_of_le (h : shards.length ≤ i) : slot shards i = ∅ := by
  simp [slot, List.getElem?_eq_none h]

theorem lt_of_slot [DecidableEq K] {k : K} {v : V} (h : (slot shards i).lookup k = some v) :
    i < shards.length := by
  by_contra hi
  rw [slot_of_le (Nat.le_of_not_lt hi), AList.lookup_empty] at h
  cases h

theorem slot_of_eq_none (h : shards[i]?.join = none) : slot shards i = ∅ := by
  simp [slot, h]

variable [DecidableEq K]

def insertAt (i : Nat) (k : K) (v : V) (shards : Shards K V) : Shards K V :=
  shards.set i (some ((slot shards i).insert k v))

def eraseAt (i : Nat) (k : K) (shards : Shards K V) : Shards K V :=
  shards.modify i (Option.map (AList.erase k))

@[simp] theorem length_insertAt {k : K} {v : V} : (insertAt i k v shards).length = shards.length :=
  List.length_set

@[simp] theorem length_eraseAt {k : K} : (eraseAt i k shards).length = shards.length :=
  List.length_modify ..

theorem lookup_insertAt (hi : i < shards.length) {k k' : K} {v : V} :
    (slot (insertAt i k v shards) j).lookup k' =
      if j = i ∧ k' = k then some v else (slot shards j).lookup k' := by
  unfold insertAt
  rw [slot_set hi]
  by_cases hj : j = i
  · subst hj
    by_cases hk : k' = k
    · subst hk
      simp [AList.lookup_insert]
    · simp [hk, AList.lookup_insert_ne hk]
  · simp [hj]

theorem slot_eraseAt {k : K} :
    slot (eraseAt i k shards) j = if j = i then (slot shards i).erase k else slot shards j := by
  unfold eraseAt slot
  rw [List.getElem?_modify]
  by_cases hj : j = i
  · subst hj
    rw [if_pos rfl]
    rcases shards[j]? with _ | _ | m
    · rfl
    · simp only [if_true]
      rfl
    · simp
  · simp [hj, Ne.symm hj]

theorem lookup_eraseAt {k k' : K} :
    (slot (eraseAt i k shards) j).lookup k' =
      if j = i ∧ k' = k then none else (slot shards j).lookup k' := by
  rw [slot_eraseAt]
  by_cases hj : j = i
  · subst hj
    by_cases hk : k' = k
    · subst hk
      simp [AList.lookup_erase]
    · simp [hk, AList.lookup_erase_ne hk]
  · simp [hj]

theorem eraseAt_of_lookup_none {k : K} (h : (slot shards i).lookup k = none) :
    eraseAt i k shards = shards := by
  unfold eraseAt
  refine List.ext_getElem? fun j => ?_
  rw [List.getElem?_modify]
  by_cases hj : i = j
  · subst hj
    unfold slot at h
    rcases hm : shards[i]? with _ | _ | m
    · simp
    · simp
    · rw [hm] at h
      simpa using Assoc.erase_of_lookup_none h
  · simp [hj]

end Slot

namespace Tables

variable {K V : Type} [DecidableEq K] (hash : K → Nat)

/-- `read_inner`: the active shard, then the previous one. -/
def lookup (t : Tables K V) (k : K) : Option V :=
  (slot t.active (hash k % t.shardCount)).lookup k <|>
    t.previous.bind fun p => (slot p (hash k % t.previousShardCount)).lookup k

/-- `*previous = Some(mem::replace(active, vec![None; target]))`. -/
def begin (target : Nat) (t : Tables K V) : Tables K V where
  active := List.replicate target none
  previous := some t.active
  shardCount := target
  previousShardCount := t.shardCount

/-- Leave a key to the active generation. -/
def detach (k : K) (t : Tables K V) : Tables K V :=
  { t with previous := t.previous.map (eraseAt (hash k % t.previousShardCount) k) }

def put (k : K) (v : V) (t : Tables K V) : Tables K V :=
  { t with active := insertAt (hash k % t.shardCount) k v t.active }

/-- A foreground write promotes the key and replaces its value. -/
def insert (k : K) (v : V) (t : Tables K V) : Tables K V := (t.detach hash k).put hash k v

def remove (k : K) (t : Tables K V) : Tables K V :=
  { t.detach hash k with active := eraseAt (hash k % t.shardCount) k t.active }

/-- `move_one` from a source slot; an entry already in the target wins. -/
def move (index : Nat) (k : K) (t : Tables K V) : Tables K V :=
  match t.previous with
  | none => t
  | some p => match (slot p index).lookup k with
    | none => t
    | some v =>
      let detached := { t with previous := some (eraseAt index k p) }
      if ((slot t.active (hash k % t.shardCount)).lookup k).isSome then detached
      else detached.put hash k v

/-- `slots.get_mut(index).and_then(Option::take)`. -/
def retire (index : Nat) (t : Tables K V) : Tables K V :=
  { t with previous := t.previous.map fun p => p.set index none }

def finish (t : Tables K V) : Tables K V := { t with previous := none, previousShardCount := 0 }

def entries (t : Tables K V) : List (K × V) :=
  (t.active ++ t.previous.getD []).flatMap fun m => (m.getD ∅).items

/-- Stage a copy of an entry; the first copy of a key wins. -/
def stageEntry (target : Nat) (maps : Shards K V) (e : K × V) : Shards K V :=
  let map := slot maps (hash e.1 % target)
  if (map.lookup e.1).isSome then maps
  else maps.set (hash e.1 % target) (some (map.insert e.1 e.2))

/-- `rebalance_to` with `background = false`. -/
def stage (target : Nat) (t : Tables K V) : Tables K V where
  active := t.entries.foldl (stageEntry hash target) (List.replicate target none)
  previous := none
  shardCount := target
  previousShardCount := 0

/-- The first `n` of all shards are emptied, as by an interrupted `clear`. -/
def wipe (n : Nat) (t : Tables K V) : Tables K V :=
  { t with
    active := (t.active.take n).map (fun m => m.map fun _ => ∅) ++ t.active.drop n
    previous := t.previous.map fun p =>
      (p.take (n - t.active.length)).map (fun m => m.map fun _ => ∅) ++
        p.drop (n - t.active.length) }

def clear (t : Tables K V) : Tables K V :=
  (t.wipe (t.active.length + (t.previous.getD []).length)).finish

def Stores (t : Tables K V) (k : K) (v : V) : Prop :=
  (∃ i, (slot t.active i).lookup k = some v) ∨
    ∃ p, t.previous = some p ∧ ∃ i, (slot p i).lookup k = some v

/-- Every entry is in the slot its hash selects, in one generation only. -/
structure Placed (t : Tables K V) : Prop where
  count : t.active.length = t.shardCount
  pos : 0 < t.shardCount
  active : ∀ i k v, (slot t.active i).lookup k = some v → hash k % t.shardCount = i
  length : ∀ p, t.previous = some p → p.length = t.previousShardCount
  sources : ∀ p, t.previous = some p → 0 < p.length
  previous : ∀ p, t.previous = some p → ∀ i k v, (slot p i).lookup k = some v →
    hash k % t.previousShardCount = i
  once : ∀ p, t.previous = some p → ∀ i j k v, (slot t.active i).lookup k = some v →
    (slot p j).lookup k = none

variable {hash} in
theorem lookup_eq_some {t : Tables K V} {k : K} {v : V} :
    t.lookup hash k = some v ↔ (slot t.active (hash k % t.shardCount)).lookup k = some v ∨
      (slot t.active (hash k % t.shardCount)).lookup k = none ∧
        ∃ p, t.previous = some p ∧ (slot p (hash k % t.previousShardCount)).lookup k = some v := by
  unfold lookup
  cases (slot t.active (hash k % t.shardCount)).lookup k with
  | none => simp [Option.bind_eq_some_iff]
  | some w => simp

namespace Placed

variable {hash} {t : Tables K V}

theorem stores_iff (h : t.Placed hash) {k : K} {v : V} :
    t.Stores k v ↔ t.lookup hash k = some v := by
  unfold Stores lookup
  constructor
  · rintro (⟨i, hi⟩ | ⟨p, hp, i, hi⟩)
    · rw [h.active i k v hi, hi]
      rfl
    · have hnone : (slot t.active (hash k % t.shardCount)).lookup k = none := by
        cases hc : (slot t.active (hash k % t.shardCount)).lookup k with
        | none => rfl
        | some w =>
          rw [h.once p hp _ i k w hc] at hi
          cases hi
      rw [hnone, hp, Option.bind_some, h.previous p hp i k v hi, hi]
      rfl
  · intro hl
    cases hc : (slot t.active (hash k % t.shardCount)).lookup k with
    | some w =>
      rw [hc] at hl
      exact .inl ⟨_, hc.trans hl⟩
    | none =>
      rw [hc] at hl
      change (t.previous.bind _) = some v at hl
      obtain ⟨p, hp, hv⟩ := Option.bind_eq_some_iff.mp hl
      exact .inr ⟨p, hp, _, hv⟩

theorem index_lt (h : t.Placed hash) (k : K) : hash k % t.shardCount < t.active.length := by
  rw [h.count]
  exact Nat.mod_lt _ h.pos

theorem detach (h : t.Placed hash) (k : K) : (t.detach hash k).Placed hash where
  count := h.count
  pos := h.pos
  active := h.active
  length p hp := by
    obtain ⟨q, hq, rfl⟩ := Option.map_eq_some_iff.mp hp
    exact length_eraseAt.trans (h.length q hq)
  sources p hp := by
    obtain ⟨q, hq, rfl⟩ := Option.map_eq_some_iff.mp hp
    simpa using h.sources q hq
  previous p hp i k' v hv := by
    obtain ⟨q, hq, rfl⟩ := Option.map_eq_some_iff.mp hp
    rw [lookup_eraseAt] at hv
    split at hv
    · cases hv
    · exact h.previous q hq i k' v hv
  once p hp i j k' v hv := by
    obtain ⟨q, hq, rfl⟩ := Option.map_eq_some_iff.mp hp
    rw [lookup_eraseAt, h.once q hq i j k' v hv, ite_self]

theorem detached (h : t.Placed hash) {k : K} {p : Shards K V}
    (hp : (t.detach hash k).previous = some p) (j : Nat) : (slot p j).lookup k = none := by
  obtain ⟨q, hq, rfl⟩ := Option.map_eq_some_iff.mp hp
  rw [lookup_eraseAt]
  split
  · rfl
  · next hj =>
    cases hv : (slot q j).lookup k with
    | none => rfl
    | some v => exact absurd ⟨(h.previous q hq j k v hv).symm, rfl⟩ hj

theorem put (h : t.Placed hash) {k : K} (v : V)
    (hk : ∀ p, t.previous = some p → ∀ j, (slot p j).lookup k = none) :
    (t.put hash k v).Placed hash where
  count := by simpa [Tables.put] using h.count
  pos := h.pos
  active i k' v' hv := by
    change (slot (insertAt _ k v t.active) i).lookup k' = some v' at hv
    rw [lookup_insertAt (h.index_lt k)] at hv
    split at hv
    · next hi => rw [hi.1, hi.2]; rfl
    · exact h.active i k' v' hv
  length := h.length
  sources := h.sources
  previous := h.previous
  once p hp i j k' v' hv := by
    change (slot (insertAt _ k v t.active) i).lookup k' = some v' at hv
    rw [lookup_insertAt (h.index_lt k)] at hv
    split at hv
    · next hi => rw [hi.2]; exact hk p hp j
    · exact h.once p hp i j k' v' hv

theorem lookup_put (h : t.Placed hash) (k k' : K) (v : V) :
    (t.put hash k v).lookup hash k' = if k' = k then some v else t.lookup hash k' := by
  unfold Tables.lookup Tables.put
  dsimp only
  rw [lookup_insertAt (h.index_lt k)]
  by_cases hk : k' = k
  · subst hk
    simp
  · simp [hk]

theorem lookup_detach (k : K) {k' : K} (hk : k' ≠ k) :
    (t.detach hash k).lookup hash k' = t.lookup hash k' := by
  unfold Tables.lookup Tables.detach
  dsimp only
  cases hp : t.previous with
  | none => rfl
  | some p => simp [lookup_eraseAt, hk]

theorem insert (h : t.Placed hash) (k : K) (v : V) : (t.insert hash k v).Placed hash :=
  (h.detach k).put v fun _ hp j => h.detached hp j

theorem lookup_insert (h : t.Placed hash) (k k' : K) (v : V) :
    (t.insert hash k v).lookup hash k' = if k' = k then some v else t.lookup hash k' := by
  unfold Tables.insert
  rw [(h.detach k).lookup_put]
  split
  · rfl
  · next hk => exact lookup_detach k hk

theorem remove (h : t.Placed hash) (k : K) : (t.remove hash k).Placed hash where
  count := by simpa [Tables.remove, Tables.detach] using h.count
  pos := h.pos
  active i k' v hv := by
    change (slot (eraseAt _ k t.active) i).lookup k' = some v at hv
    rw [lookup_eraseAt] at hv
    split at hv
    · cases hv
    · exact h.active i k' v hv
  length := (h.detach k).length
  sources := (h.detach k).sources
  previous := (h.detach k).previous
  once p hp i j k' v hv := by
    change (slot (eraseAt _ k t.active) i).lookup k' = some v at hv
    rw [lookup_eraseAt] at hv
    split at hv
    · cases hv
    · exact (h.detach k).once p hp i j k' v hv

theorem lookup_remove (k k' : K) :
    (t.remove hash k).lookup hash k' = if k' = k then none else t.lookup hash k' := by
  unfold Tables.lookup Tables.remove
  dsimp only [Tables.detach]
  rw [lookup_eraseAt]
  by_cases hk : k' = k
  · subst hk
    cases hp : t.previous with
    | none => simp
    | some p => simp [lookup_eraseAt]
  · cases hp : t.previous with
    | none => simp [hk]
    | some p => simp [hk, lookup_eraseAt]

/-- What `move` does to a key that its source slot holds. -/
theorem move_eq (h : t.Placed hash) {p : Shards K V} (hp : t.previous = some p) {i : Nat} {k : K}
    {v : V} (hv : (slot p i).lookup k = some v) : t.move hash i k = t.insert hash k v := by
  have hi : i = hash k % t.previousShardCount := (h.previous p hp i k v hv).symm
  have hn : (slot t.active (hash k % t.shardCount)).lookup k = none := by
    cases hc : (slot t.active (hash k % t.shardCount)).lookup k with
    | none => rfl
    | some w =>
      rw [h.once p hp _ i k w hc] at hv
      cases hv
  subst hi
  unfold Tables.move
  rw [hp]
  dsimp only
  rw [hv]
  simp [hn, Tables.insert, Tables.detach, hp]

theorem move (h : t.Placed hash) {p : Shards K V} (hp : t.previous = some p) {i : Nat} {k : K}
    {v : V} (hv : (slot p i).lookup k = some v) : (t.move hash i k).Placed hash := by
  rw [h.move_eq hp hv]
  exact h.insert k v

theorem lookup_move (h : t.Placed hash) {p : Shards K V} (hp : t.previous = some p) {i : Nat}
    {k : K} {v : V} (hv : (slot p i).lookup k = some v) (k' : K) :
    (t.move hash i k).lookup hash k' = t.lookup hash k' := by
  rw [h.move_eq hp hv, h.lookup_insert]
  split
  · next hk =>
    rw [hk]
    exact (h.stores_iff.mp (.inr ⟨p, hp, i, hv⟩)).symm
  · rfl

theorem begin (h : t.Placed hash) {target : Nat} (ht : 0 < target) :
    (t.begin target).Placed hash where
  count := by simp [Tables.begin]
  pos := ht
  active i k v hv := by simp [Tables.begin] at hv
  length p hq := by
    cases hq
    exact h.count
  sources p hq := by
    cases hq
    rw [h.count]
    exact h.pos
  previous p hq i k v hv := by
    cases hq
    exact h.active i k v hv
  once p hq i j k v hv := by simp [Tables.begin] at hv

theorem lookup_begin (hp : t.previous = none) (target : Nat) (k : K) :
    (t.begin target).lookup hash k = t.lookup hash k := by
  simp [Tables.lookup, Tables.begin, hp]

theorem retire (h : t.Placed hash) (i : Nat) : (t.retire i).Placed hash where
  count := h.count
  pos := h.pos
  active := h.active
  length p hp := by
    obtain ⟨q, hq, rfl⟩ := Option.map_eq_some_iff.mp hp
    exact List.length_set.trans (h.length q hq)
  sources p hp := by
    obtain ⟨q, hq, rfl⟩ := Option.map_eq_some_iff.mp hp
    simpa using h.sources q hq
  previous p hp j k v hv := by
    obtain ⟨q, hq, rfl⟩ := Option.map_eq_some_iff.mp hp
    rw [slot_clear] at hv
    split at hv
    · rw [AList.lookup_empty] at hv
      cases hv
    · exact h.previous q hq j k v hv
  once p hp j l k v hv := by
    obtain ⟨q, hq, rfl⟩ := Option.map_eq_some_iff.mp hp
    rw [slot_clear]
    split
    · exact AList.lookup_empty _
    · exact h.once q hq j l k v hv

/-- Retiring an empty source hides nothing. -/
theorem lookup_retire {i : Nat} (hi : ∀ p, t.previous = some p → slot p i = ∅) (k : K) :
    (t.retire i).lookup hash k = t.lookup hash k := by
  unfold Tables.lookup Tables.retire
  dsimp only
  cases hp : t.previous with
  | none => rfl
  | some p =>
    simp only [Option.map_some, Option.bind_some, slot_clear]
    split
    · next h => rw [h, hi p hp]
    · rfl

theorem finish (h : t.Placed hash) : t.finish.Placed hash where
  count := h.count
  pos := h.pos
  active := h.active
  length _ hp := by cases hp
  sources _ hp := by cases hp
  previous _ hp := by cases hp
  once _ hp := by cases hp

theorem lookup_finish (hp : ∀ p, t.previous = some p → ∀ i, slot p i = ∅) (k : K) :
    t.finish.lookup hash k = t.lookup hash k := by
  unfold Tables.lookup Tables.finish
  dsimp only
  cases hq : t.previous with
  | none => rfl
  | some p => simp [hp p hq]

end Placed

theorem mem_shards {shards : Shards K V} {k : K} {v : V} :
    (k, v) ∈ shards.flatMap (fun m => (m.getD ∅).items) ↔
      ∃ i, (slot shards i).lookup k = some v := by
  simp only [List.mem_flatMap, Assoc.mem_items]
  constructor
  · rintro ⟨m, hm, hv⟩
    obtain ⟨i, hi⟩ := List.getElem?_of_mem hm
    exact ⟨i, by simpa [slot, hi] using hv⟩
  · rintro ⟨i, hv⟩
    have hi := lt_of_slot hv
    refine ⟨shards[i], List.getElem_mem hi, ?_⟩
    simpa [slot, List.getElem?_eq_getElem hi] using hv

theorem mem_entries {t : Tables K V} {k : K} {v : V} : (k, v) ∈ t.entries ↔ t.Stores k v := by
  unfold entries Stores
  rw [List.flatMap_append, List.mem_append, mem_shards, mem_shards]
  cases t.previous with
  | none => simp [slot]
  | some p => simp

theorem mem_keys_slot {shards : Shards K V} {i : Nat} {k : K} (h : ∃ m, shards[i]? = some m ∧ k ∈ (m.getD ∅).keys) :
    ∃ v, (slot shards i).lookup k = some v := by
  obtain ⟨m, hm, hk⟩ := h
  have hs : slot shards i = m.getD ∅ := by
    unfold slot
    rw [hm]
    rfl
  rw [hs]
  exact Option.isSome_iff_exists.mp (AList.lookup_isSome.mpr hk)

theorem Placed.entries_nodup {t : Tables K V} (h : t.Placed hash) :
    (t.entries.map Prod.fst).Nodup := by
  have hkeys : t.entries.map Prod.fst =
      (t.active ++ t.previous.getD []).flatMap fun m => (m.getD ∅).keys := by
    unfold entries
    rw [List.map_flatMap]
    exact List.flatMap_congr fun m _ => Assoc.items_keys _
  have apart : ∀ (shards : Shards K V) (n : Nat), (∀ i k v, (slot shards i).lookup k = some v →
      hash k % n = i) →
      shards.Pairwise (Function.onFun List.Disjoint fun m => (m.getD ∅).keys) := by
    intro shards n hn
    rw [List.pairwise_iff_getElem]
    intro i j hi hj hij k hki hkj
    obtain ⟨v, hv⟩ := mem_keys_slot ⟨_, List.getElem?_eq_getElem hi, hki⟩
    obtain ⟨w, hw⟩ := mem_keys_slot ⟨_, List.getElem?_eq_getElem hj, hkj⟩
    have := hn i k v hv
    have := hn j k w hw
    omega
  rw [hkeys, List.nodup_flatMap]
  refine ⟨fun m _ => (m.getD ∅).keys_nodup, List.pairwise_append.mpr
    ⟨apart t.active _ h.active, ?_, fun a ha b hb k hka hkb => ?_⟩⟩
  · cases hp : t.previous with
    | none => exact List.Pairwise.nil
    | some p => exact apart p _ (h.previous p hp)
  · cases hp : t.previous with
    | none => simp [hp] at hb
    | some p =>
      rw [hp] at hb
      obtain ⟨i, hi⟩ := List.getElem?_of_mem ha
      obtain ⟨j, hj⟩ := List.getElem?_of_mem (show b ∈ p from hb)
      obtain ⟨v, hv⟩ := mem_keys_slot ⟨_, hi, hka⟩
      obtain ⟨w, hw⟩ := mem_keys_slot ⟨_, hj, hkb⟩
      rw [h.once p hp i j k v hv] at hw
      cases hw

/-- The staged slots hold a copy of every key among `es`, and nothing else. -/
structure Staged (target : Nat) (maps : Shards K V) (es : List (K × V)) : Prop where
  length : maps.length = target
  sound : ∀ i k v, (slot maps i).lookup k = some v → hash k % target = i ∧ (k, v) ∈ es
  complete : ∀ k v, (k, v) ∈ es → ((slot maps (hash k % target)).lookup k).isSome

variable {hash}

theorem Staged.snoc {target : Nat} {maps : Shards K V} {es : List (K × V)} (ht : 0 < target)
    (h : Staged hash target maps es) (e : K × V) :
    Staged hash target (stageEntry hash target maps e) (es ++ [e]) := by
  obtain ⟨k, v⟩ := e
  have hlt : hash k % target < maps.length := by
    rw [h.length]
    exact Nat.mod_lt _ ht
  unfold stageEntry
  dsimp only
  split
  · next hk =>
    refine ⟨h.length, fun i k' v' hv => ?_, fun k' v' hm => ?_⟩
    · exact ⟨(h.sound i k' v' hv).1, by simp [(h.sound i k' v' hv).2]⟩
    · rcases List.mem_append.mp hm with hm | hm
      · exact h.complete k' v' hm
      · obtain ⟨rfl, rfl⟩ := Prod.mk.inj (List.mem_singleton.mp hm)
        exact hk
  · refine ⟨by simpa using h.length, fun i k' v' hv => ?_, fun k' v' hm => ?_⟩
    · change (slot (insertAt _ k v maps) i).lookup k' = some v' at hv
      rw [lookup_insertAt hlt] at hv
      split at hv
      · next hi =>
        obtain ⟨rfl, rfl⟩ := hi
        cases hv
        exact ⟨rfl, by simp⟩
      · exact ⟨(h.sound i k' v' hv).1, by simp [(h.sound i k' v' hv).2]⟩
    · change ((slot (insertAt _ k v maps) _).lookup k').isSome
      rw [lookup_insertAt hlt]
      split
      · rfl
      · next hne =>
        rcases List.mem_append.mp hm with hm | hm
        · exact h.complete k' v' hm
        · obtain ⟨rfl, rfl⟩ := Prod.mk.inj (List.mem_singleton.mp hm)
          exact absurd ⟨rfl, rfl⟩ hne

theorem staged {target : Nat} (ht : 0 < target) (t : Tables K V) :
    Staged hash target (t.stage hash target).active t.entries := by
  suffices ∀ (post pre : List (K × V)) (maps : Shards K V), Staged hash target maps pre →
      Staged hash target (post.foldl (stageEntry hash target) maps) (pre ++ post) from
    this t.entries [] _ ⟨List.length_replicate, fun i k v hv => by simp at hv, by simp⟩
  intro post
  induction post with
  | nil =>
    intro pre maps h
    rwa [List.append_nil]
  | cons e post ih =>
    intro pre maps h
    have := ih (pre ++ [e]) _ (h.snoc ht e)
    rwa [List.append_assoc] at this

theorem Placed.stage {t : Tables K V} {target : Nat} (ht : 0 < target) :
    (t.stage hash target).Placed hash where
  count := (staged ht t).length
  pos := ht
  active i k v hv := ((staged ht t).sound i k v hv).1
  length _ hp := by cases hp
  sources _ hp := by cases hp
  previous _ hp := by cases hp
  once _ hp := by cases hp

/-- A staged generation holds the logical entries. -/
theorem Placed.lookup_stage {t : Tables K V} (h : t.Placed hash) {target : Nat}
    (ht : 0 < target) (k : K) : (t.stage hash target).lookup hash k = t.lookup hash k := by
  have hs : Staged hash target (t.stage hash target).active t.entries := staged ht t
  have hv (v : V) (hv : (slot (t.stage hash target).active (hash k % target)).lookup k = some v) :
      t.lookup hash k = some v :=
    h.stores_iff.mp (mem_entries.mp (hs.sound _ k v hv).2)
  have he : (t.stage hash target).lookup hash k =
      (slot (t.stage hash target).active (hash k % target)).lookup k := by
    simp [Tables.lookup, Tables.stage]
  rw [he]
  cases hc : (slot (t.stage hash target).active (hash k % target)).lookup k with
  | some v => exact (hv v hc).symm
  | none =>
    cases hl : t.lookup hash k with
    | none => rfl
    | some v =>
      have := hs.complete k v (mem_entries.mpr (h.stores_iff.mpr hl))
      rw [hc] at this
      cases this

omit [DecidableEq K] in
theorem slot_wipe {shards : Shards K V} (n i : Nat) :
    slot ((shards.take n).map (fun m => m.map fun _ => (∅ : Assoc K V)) ++ shards.drop n) i =
      if i < n then ∅ else slot shards i := by
  unfold slot
  by_cases hi : i < shards.length
  · rw [List.getElem?_append]
    simp only [List.length_map, List.length_take, List.getElem?_map, List.getElem?_take,
      List.getElem?_drop]
    by_cases hn : i < n
    · rw [if_pos (by omega), if_pos hn, if_pos hn]
      rcases shards[i]? with _ | _ | m <;> rfl
    · rw [if_neg (by omega), if_neg hn, show n + (i - min n shards.length) = i by omega]
  · rw [List.getElem?_eq_none (by simp; omega), List.getElem?_eq_none (by omega)]
    simp

/-- What an interrupted `clear` left was there before. -/
theorem lookup_wipe_slot {shards : Shards K V} {n i : Nat} {k : K} {v : V}
    (h : (slot ((shards.take n).map (fun m => m.map fun _ => (∅ : Assoc K V)) ++
      shards.drop n) i).lookup k = some v) : (slot shards i).lookup k = some v := by
  rw [slot_wipe] at h
  split at h
  · rw [AList.lookup_empty] at h
    cases h
  · exact h

theorem Placed.wipe {t : Tables K V} (h : t.Placed hash) (n : Nat) :
    (t.wipe n).Placed hash where
  count := by
    refine Eq.trans ?_ h.count
    simp [Tables.wipe]
    omega
  pos := h.pos
  active i k v hv := h.active i k v (lookup_wipe_slot hv)
  length p hp := by
    obtain ⟨q, hq, rfl⟩ := Option.map_eq_some_iff.mp hp
    refine Eq.trans ?_ (h.length q hq)
    simp
    omega
  sources p hp := by
    obtain ⟨q, hq, rfl⟩ := Option.map_eq_some_iff.mp hp
    have := h.sources q hq
    simp
    omega
  previous p hp i k v hv := by
    obtain ⟨q, hq, rfl⟩ := Option.map_eq_some_iff.mp hp
    exact h.previous q hq i k v (lookup_wipe_slot hv)
  once p hp i j k v hv := by
    obtain ⟨q, hq, rfl⟩ := Option.map_eq_some_iff.mp hp
    rw [slot_wipe]
    split
    · exact AList.lookup_empty _
    · exact h.once q hq i j k v (lookup_wipe_slot hv)

end Tables
end Starshard.Worker
