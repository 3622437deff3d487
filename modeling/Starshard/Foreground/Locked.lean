import Starshard.Foreground.Operations

/-! What one operation does to the directories: a key is brought into its active shard,
then one active shard is replaced. -/
namespace Starshard.Foreground

open Data
open Worker (Tables Shards slot insertAt slot_set lookup_insertAt length_insertAt slot_of_eq_none)
open Migration (Flavor)

variable {K V : Type} [DecidableEq K] {hash : K → Nat}

def Live.find (hash : K → Nat) (k : K) (s : Live K V) : Option V := s.map.tables.lookup hash k

/-- What every operation may rely on. -/
structure Held (hash : K → Nat) (s : Live K V) : Prop where
  placed : s.map.tables.Placed hash
  len : s.map.totalLen = s.map.tables.entries.length
  migrating : s.map.tables.previous.isSome = s.map.tracker.migrating

/-- What every operation leaves as it is. -/
structure Edited (hash : K → Nat) (s s' : Live K V) : Prop where
  held : Held hash s'
  count : s'.map.tables.shardCount = s.map.tables.shardCount
  previousCount : s'.map.tables.previousShardCount = s.map.tables.previousShardCount
  tracker : s'.map.tracker = s.map.tracker
  generations : s'.map.tables.previous.isSome = s.map.tables.previous.isSome
  previous : ∀ p, s'.map.tables.previous = some p → ∃ q, s.map.tables.previous = some q ∧
    p.length = q.length ∧ ∀ i, slot q i = ∅ → slot p i = ∅

theorem Edited.refl {s : Live K V} (h : Held hash s) : Edited hash s s :=
  ⟨h, rfl, rfl, rfl, rfl, fun p hp => ⟨p, hp, rfl, fun _ hi => hi⟩⟩

theorem Edited.trans {s s' s'' : Live K V} (h : Edited hash s s') (h' : Edited hash s' s'') :
    Edited hash s s'' where
  held := h'.held
  count := h'.count.trans h.count
  previousCount := h'.previousCount.trans h.previousCount
  tracker := h'.tracker.trans h.tracker
  generations := h'.generations.trans h.generations
  previous p hp := by
    obtain ⟨q, hq, hlen, he⟩ := h'.previous p hp
    obtain ⟨r, hr, hlen', he'⟩ := h.previous q hq
    exact ⟨r, hr, hlen.trans hlen', fun i hi => he i (he' i hi)⟩

theorem Held.recordRead {s : Live K V} (h : Held hash s) (hit : Bool) :
    Edited hash s (s.recordRead hit) :=
  ⟨⟨h.placed, h.len, h.migrating⟩, rfl, rfl, rfl, rfl, fun p hp => ⟨p, hp, rfl, fun _ hi => hi⟩⟩

/-- No source slot holds the key. -/
def Gone (k : K) (t : Tables K V) : Prop :=
  ∀ p, t.previous = some p → ∀ j, (slot p j).lookup k = none

section Init

omit [DecidableEq K] in
@[simp] theorem slot_getOrInit (shards : Shards K V) (i j : Nat) :
    slot (shards.modify i fun m => some (m.getD ∅)) j = slot shards j := by
  unfold slot
  rw [List.getElem?_modify]
  cases shards[j]? with
  | none => rfl
  | some m => by_cases hij : i = j <;> cases m <;> simp [hij]

theorem placed_getOrInitShard {t : Tables K V} (h : t.Placed hash) (i : Nat) :
    (getOrInitShard i t).Placed hash where
  count := (List.length_modify ..).trans h.count
  pos := h.pos
  active j k v hv := h.active j k v (by simpa [getOrInitShard] using hv)
  length := h.length
  sources := h.sources
  previous := h.previous
  once p hp j j' k v hv := h.once p hp j j' k v (by simpa [getOrInitShard] using hv)

theorem lookup_getOrInitShard (t : Tables K V) (i : Nat) (k : K) :
    (getOrInitShard i t).lookup hash k = t.lookup hash k := by
  simp [Tables.lookup, getOrInitShard]

end Init

section Promote

variable {t : Tables K V} {k : K}

theorem previousShard_lookup (h : t.Placed hash) (k' : K) (hashed : Nat) :
    ((previousShard hashed t).bind (·.lookup k')) =
      t.previous.bind fun p => (slot p (hashed % t.previousShardCount)).lookup k' := by
  unfold previousShard
  cases hp : t.previous with
  | none => simp
  | some p =>
    have hpos : t.previousShardCount ≠ 0 := by
      rw [← h.length p hp]
      exact (h.sources p hp).ne'
    rw [if_neg hpos, Option.bind_some, Option.bind_some]
    unfold slot
    cases p[hashed % t.previousShardCount]?.join with
    | none => simp
    | some m => rfl

theorem gone_of_source (h : t.Placed hash)
    (hk : ∀ p, t.previous = some p → (slot p (hash k % t.previousShardCount)).lookup k = none) :
    Gone k t := by
  intro p hp j
  cases hv : (slot p j).lookup k with
  | none => rfl
  | some v =>
    have := hk p hp
    rw [h.previous p hp j k v hv, hv] at this
    cases this

theorem Gone.lookup (hg : Gone k t) :
    t.lookup hash k = (slot t.active (hash k % t.shardCount)).lookup k := by
  unfold Tables.lookup
  cases hp : t.previous with
  | none => simp
  | some p => simp [hg p hp]

/-- Promotion finds nothing, or moves the entry. -/
theorem promotePrevious_cases (h : t.Placed hash) (k : K) :
    (promotePrevious hash k t = t ∧ Gone k t) ∨
      ∃ p v, t.previous = some p ∧ (slot p (hash k % t.previousShardCount)).lookup k = some v ∧
        promotePrevious hash k t = t.insert hash k v := by
  have hread := previousShard_lookup h k (hash k)
  unfold promotePrevious
  cases hs : previousShard (hash k) t with
  | none =>
    refine .inl ⟨rfl, gone_of_source h fun p hp => ?_⟩
    rw [hs, hp] at hread
    exact hread.symm
  | some m =>
    dsimp only
    cases hp : t.previous with
    | none =>
      refine .inl ⟨?_, fun p hq => by rw [hp] at hq; cases hq⟩
      unfold Tables.move
      rw [hp]
    | some p =>
      cases hv : (slot p (hash k % t.previousShardCount)).lookup k with
      | none =>
        refine .inl ⟨?_, gone_of_source h fun q hq => ?_⟩
        · unfold Tables.move
          rw [hp]
          dsimp only
          rw [hv]
        · rw [hp] at hq
          cases hq
          exact hv
      | some v => exact .inr ⟨p, v, rfl, hv, h.move_eq hp hv⟩

end Promote

/-- An operation that changes no lookup. -/
structure Kept (hash : K → Nat) (s s' : Live K V) : Prop extends Edited hash s s' where
  find : ∀ k, s'.find hash k = s.find hash k

theorem Kept.refl {s : Live K V} (h : Held hash s) : Kept hash s s := ⟨.refl h, fun _ => rfl⟩

theorem Kept.trans {s s' s'' : Live K V} (h : Kept hash s s') (h' : Kept hash s' s'') :
    Kept hash s s'' :=
  ⟨h.toEdited.trans h'.toEdited, fun k => (h'.find k).trans (h.find k)⟩

theorem Held.initShard {s : Live K V} (h : Held hash s) (i : Nat) : Kept hash s (s.initShard i) := by
  have hp := placed_getOrInitShard h.placed i
  have hlook (k : K) : (getOrInitShard i s.map.tables).lookup hash k =
      s.map.tables.lookup hash k := lookup_getOrInitShard s.map.tables i k
  exact ⟨⟨⟨hp, h.len.trans (Migration.length_entries_congr h.placed hp hlook).symm, h.migrating⟩,
    rfl, rfl, rfl, rfl, fun p hp => ⟨p, hp, rfl, fun _ hi => hi⟩⟩, hlook⟩

/-- A key whose active shard is locked. -/
structure Locked (hash : K → Nat) (k : K) (s s' : Live K V) : Prop extends
    Kept hash s s' where
  gone : Gone k s'.map.tables
  metrics : s'.metrics = s.metrics

theorem Locked.shard {s s' : Live K V} {k : K} (h : Locked hash k s s') :
    (s'.shard (s.index hash k)).lookup k = s.find hash k := by
  rw [← h.find k, Live.find, h.gone.lookup, h.count]
  rfl

theorem Held.promote {s : Live K V} (h : Held hash s) (k : K) :
    Locked hash k s (s.promote hash k) := by
  rcases promotePrevious_cases h.placed k with ⟨he, hg⟩ | ⟨p, v, hprev, hv, he⟩
  · have hs : s.promote hash k = s := by
      unfold Live.promote
      rw [he]
    rw [hs]
    exact ⟨.refl h, hg, rfl⟩
  · have hread (k' : K) : (s.map.tables.insert hash k v).lookup hash k' =
        s.map.tables.lookup hash k' := by
      rw [← h.placed.move_eq hprev hv, h.placed.lookup_move hprev hv]
    have hs : s.promote hash k =
        { s with map := { s.map with tables := s.map.tables.insert hash k v } } := by
      unfold Live.promote
      rw [he]
    have hlen := Migration.length_entries_congr h.placed (h.placed.insert k v) hread
    have hsome : (s.map.tables.insert hash k v).previous.isSome =
        s.map.tables.previous.isSome := Option.isSome_map ..
    rw [hs]
    exact ⟨⟨⟨⟨h.placed.insert k v, h.len.trans hlen.symm, hsome.trans h.migrating⟩, rfl, rfl, rfl,
      hsome, fun p hp => Worker.previous_detach hp⟩, hread⟩, fun p hq j => h.placed.detached hq j,
      rfl⟩

theorem Kept.locked {s s' s'' : Live K V} {k : K} (h : Kept hash s s')
    (hm : s'.metrics = s.metrics) (h' : Locked hash k s' s'') : Locked hash k s s'' :=
  ⟨h.trans h'.toKept, h'.gone, h'.metrics.trans hm⟩

theorem Held.lockKey {s : Live K V} (h : Held hash s) (k : K) :
    Locked hash k s (s.lockKey hash k) :=
  have hinit := h.initShard (s.index hash k)
  hinit.locked rfl (hinit.held.promote k)

section Mutate

variable {s : Live K V} {i : Nat}

omit [DecidableEq K] in
theorem length_entries_set (t : Tables K V) (m : Assoc K V) (hi : i < t.active.length) :
    ({ t with active := t.active.set i (some m) } : Tables K V).entries.length +
      (slot t.active i).size = t.entries.length + m.size := by
  have hsplit : t.active = t.active.take i ++ t.active[i] :: t.active.drop (i + 1) := by
    rw [List.getElem_cons_drop, List.take_append_drop]
  have hslot : slot t.active i = t.active[i].getD ∅ := by
    unfold slot
    rw [List.getElem?_eq_getElem hi]
    rfl
  have hset : t.active.set i (some m) =
      t.active.take i ++ some m :: t.active.drop (i + 1) :=
    List.set_eq_take_append_cons_drop.trans (if_pos hi)
  have hlen (shards : Shards K V) : (shards.flatMap fun m => (m.getD ∅).items).length =
      (shards.map fun m => (m.getD ∅).size).sum := by
    rw [List.length_flatMap]
    simp
  unfold Tables.entries
  dsimp only
  rw [hlen, hlen, hslot, hset]
  conv_rhs => rw [hsplit]
  simp only [List.map_append, List.map_cons, List.sum_append, List.sum_cons, Option.getD_some]
  omega

omit [DecidableEq K] in
theorem size_slot_le (t : Tables K V) (hi : i < t.active.length) :
    (slot t.active i).size ≤ t.entries.length := by
  have h := length_entries_set t ∅ hi
  rw [Assoc.size_empty] at h
  omega

/-- The keys of the new shard belong there, and to the active generation only. -/
structure Fits (hash : K → Nat) (i : Nat) (t : Tables K V) (m : Assoc K V) : Prop where
  index : ∀ k v, m.lookup k = some v → hash k % t.shardCount = i
  gone : ∀ k v, m.lookup k = some v → Gone k t

theorem Held.mutate {α : Type} (h : Held hash s) (hi : i < s.map.tables.active.length)
    {use : ShardMutation K V → α × ShardMutation K V}
    (hm : Fits hash i s.map.tables (use ⟨s.shard i, false, s.metrics⟩).2.map) :
    Edited hash s (s.mutate i use).2 where
  held := by
    refine ⟨⟨?_, h.placed.pos, fun j k v hv => ?_, h.placed.length, h.placed.sources,
      h.placed.previous, fun p hp j j' k v hv => ?_⟩, ?_, h.migrating⟩
    · exact List.length_set.trans h.placed.count
    · simp only [Live.mutate] at hv
      rw [slot_set hi] at hv
      split at hv
      · next hj => exact (hm.index k v hv).trans hj.symm
      · exact h.placed.active j k v hv
    · simp only [Live.mutate] at hv
      rw [slot_set hi] at hv
      split at hv
      · exact hm.gone k v hv p hp j'
      · exact h.placed.once p hp j j' k v hv
    · have hset : (s.mutate i use).2.map.tables.entries.length + (s.shard i).size =
          s.map.tables.entries.length + (use ⟨s.shard i, false, s.metrics⟩).2.map.size :=
        length_entries_set s.map.tables _ hi
      have hle : (s.shard i).size ≤ s.map.tables.entries.length := size_slot_le s.map.tables hi
      have hlen := h.len
      change (if (s.shard i).size < (use ⟨s.shard i, false, s.metrics⟩).2.map.size then _
        else _) = (s.mutate i use).2.map.tables.entries.length
      split <;> omega
  count := rfl
  previousCount := rfl
  tracker := rfl
  generations := rfl
  previous p hp := ⟨p, hp, rfl, fun _ hi => hi⟩

theorem find_mutate {α : Type} (hi : i < s.map.tables.active.length)
    (use : ShardMutation K V → α × ShardMutation K V) (k : K) :
    (s.mutate i use).2.find hash k =
      if hash k % s.map.tables.shardCount = i then
        (use ⟨s.shard i, false, s.metrics⟩).2.map.lookup k <|>
          s.map.tables.previous.bind fun p =>
            (slot p (hash k % s.map.tables.previousShardCount)).lookup k
      else s.find hash k := by
  simp only [Live.find, Live.mutate, Tables.lookup]
  rw [slot_set hi]
  split <;> rfl

end Mutate
end Starshard.Foreground
