import Starshard.Foreground.Locked

/-! What the operations on one key return and leave, read through lookups. -/
namespace Starshard.Foreground

open Data
open Worker (Tables Shards slot)
open Migration (Flavor)

variable {K V : Type} [DecidableEq K] {hash : K → Nat}

/-- An operation that decides the value of one key. -/
structure Wrote (hash : K → Nat) (k : K) (value : Option V) (s s' : Live K V) : Prop extends
    Edited hash s s' where
  find : ∀ k', s'.find hash k' = if k' = k then value else s.find hash k'

theorem Locked.recordRead {s s' : Live K V} {k : K} (h : Locked hash k s s') (hit : Bool) :
    Kept hash s (s'.recordRead hit) :=
  ⟨h.toEdited.trans (h.held.recordRead hit), h.find⟩

theorem Kept.wrote {s s' s'' : Live K V} {k : K} {value : Option V} (h : Kept hash s s')
    (h' : Wrote hash k value s' s'') : Wrote hash k value s s'' where
  toEdited := h.toEdited.trans h'.toEdited
  find k' := by
    rw [h'.find k', h.find k']

theorem Kept.wrote_same {s s' : Live K V} {k : K} {value : Option V} (h : Kept hash s s')
    (hk : s.find hash k = value) : Wrote hash k value s s' where
  toEdited := h.toEdited
  find k' := by
    rw [h.find k']
    by_cases hk' : k' = k
    · rw [if_pos hk', hk', hk]
    · rw [if_neg hk']

section Tracked

variable {s : Live K V} {k : K}

theorem Held.index_lt (h : Held hash s) (k : K) : s.index hash k < s.map.tables.active.length :=
  h.placed.index_lt k

theorem Held.fits (h : Held hash s) (hg : Gone k s.map.tables) {m : Assoc K V}
    (hm : ∀ k' v, k' ≠ k → m.lookup k' = some v →
      (s.shard (s.index hash k)).lookup k' = some v) :
    Fits hash (s.index hash k) s.map.tables m where
  index k' v hv := by
    by_cases hk : k' = k
    · rw [hk]
      rfl
    · exact h.placed.active _ k' v (hm k' v hk hv)
  gone k' v hv := by
    by_cases hk : k' = k
    · rw [hk]
      exact hg
    · exact fun p hp j => h.placed.once p hp _ j k' v (hm k' v hk hv)

theorem Held.mutate_wrote {α : Type} (h : Held hash s) (hg : Gone k s.map.tables)
    {use : ShardMutation K V → α × ShardMutation K V} {value : Option V}
    (hself : (use ⟨s.shard (s.index hash k), false, s.metrics⟩).2.map.lookup k = value)
    (hother : ∀ k', k' ≠ k → (use ⟨s.shard (s.index hash k), false, s.metrics⟩).2.map.lookup k' =
      (s.shard (s.index hash k)).lookup k') :
    Wrote hash k value s (s.mutate (s.index hash k) use).2 where
  toEdited := h.mutate (h.index_lt k) (h.fits hg fun k' v hk hv => by rwa [← hother k' hk])
  find k' := by
    rw [find_mutate (h.index_lt k)]
    by_cases hk : k' = k
    · subst hk
      have hi : hash k' % s.map.tables.shardCount = s.index hash k' := rfl
      rw [if_pos hi, if_pos rfl, hself]
      cases hp : s.map.tables.previous with
      | none => simp
      | some p => simp [hg p hp]
    · rw [if_neg hk]
      split
      · next hi =>
        rw [hother k' hk, ← hi]
        rfl
      · rfl

theorem Held.trackedInsert (h : Held hash s) (hg : Gone k s.map.tables) (v : V) :
    Wrote hash k (some v) s (s.mutate (s.index hash k) (trackedInsert k v)).2 :=
  h.mutate_wrote hg (AList.lookup_insert _) fun _ hk => AList.lookup_insert_ne hk

theorem Held.trackedRemove (h : Held hash s) (hg : Gone k s.map.tables) :
    Wrote hash k none s (s.mutate (s.index hash k) (trackedRemove k)).2 :=
  h.mutate_wrote hg (AList.lookup_erase ..) fun _ hk => AList.lookup_erase_ne hk

end Tracked

section Locked

variable {s s' : Live K V} {k : K}

theorem Edited.index (h : Edited hash s s') (k : K) : s'.index hash k = s.index hash k := by
  unfold Live.index
  rw [h.count]

/-- A write behind a lock that was taken in `s`. -/
theorem Locked.insert (h : Locked hash k s s') (v : V) :
    Wrote hash k (some v) s (s'.mutate (s.index hash k) (Foreground.trackedInsert k v)).2 := by
  rw [← h.index]
  exact h.toKept.wrote (h.held.trackedInsert h.gone v)

theorem Locked.remove (h : Locked hash k s s') :
    Wrote hash k none s (s'.mutate (s.index hash k) (Foreground.trackedRemove k)).2 := by
  rw [← h.index]
  exact h.toKept.wrote (h.held.trackedRemove h.gone)

theorem Locked.read_insert (h : Locked hash k s s') (hit : Bool) (v : V) :
    Wrote hash k (some v) s
      ((s'.recordRead hit).mutate (s.index hash k) (Foreground.trackedInsert k v)).2 := by
  have hk := h.recordRead hit
  rw [← hk.toEdited.index]
  exact hk.wrote (hk.held.trackedInsert h.gone v)

theorem Locked.read_remove (h : Locked hash k s s') (hit : Bool) :
    Wrote hash k none s
      ((s'.recordRead hit).mutate (s.index hash k) (Foreground.trackedRemove k)).2 := by
  have hk := h.recordRead hit
  rw [← hk.toEdited.index]
  exact hk.wrote (hk.held.trackedRemove h.gone)

end Locked

section Read

/-- A key is searched where a lookup finds it. -/
theorem readInner_eq {s : Live K V} (h : Held hash s) (k : K) (hashed : Nat)
    (hk : hashed = hash k) :
    readInner (·.lookup k) hashed s.map.tables = s.find hash k := by
  subst hk
  have hp := previousShard_lookup h.placed k (hash k)
  unfold readInner Live.find Tables.lookup
  rw [hp]
  unfold slot
  cases s.map.tables.active[hash k % s.map.tables.shardCount]?.join with
  | none => simp
  | some m =>
    simp only [Option.getD_some]
    cases m.lookup k <;> rfl

omit [DecidableEq K] in
theorem readInner_none (hashed : Nat) (t : Tables K V) :
    readInner (fun _ => none) hashed t = none := by
  unfold readInner
  split
  · cases previousShard hashed t <;> rfl
  · cases previousShard hashed t <;> rfl

variable {Q : Type} [DecidableEq Q]

theorem find?_borrow (b : Borrowed K Q hash) (k : K) (m : Assoc K V) :
    (m.items.find? fun e => b.borrow e.1 = b.borrow k).map Prod.snd = m.lookup k := by
  cases hm : m.items.find? fun e => b.borrow e.1 = b.borrow k with
  | none =>
    rw [List.find?_eq_none] at hm
    cases hv : m.lookup k with
    | none => rfl
    | some v => exact absurd (hm (k, v) (Assoc.mem_items.mpr hv)) (by simp)
  | some e =>
    have hk : e.1 = k := b.injective (by simpa using List.find?_some hm)
    have hmem : (e.1, e.2) ∈ m.items := List.mem_of_find?_eq_some hm
    rw [Assoc.mem_items, hk] at hmem
    exact hmem.symm

omit [DecidableEq K] in
theorem find?_unborrowed (b : Borrowed K Q hash) {q : Q} (hq : ∀ k, b.borrow k ≠ q)
    (m : Assoc K V) : (m.items.find? fun e => b.borrow e.1 = q).map Prod.snd = none := by
  rw [List.find?_eq_none.mpr fun e _ => by simpa using hq e.1]
  rfl

end Read

section Operations

variable {s : Live K V}

theorem Held.insert (h : Held hash s) (k : K) (v : V) :
    (insert hash k v s).1 = s.find hash k ∧
      Wrote hash k (some v) s (insert hash k v s).2 :=
  ⟨(h.lockKey k).shard, (h.lockKey k).insert v⟩

theorem Held.previous_none (h : Held hash s) (hc : s.map.tables.previousShardCount = 0) :
    s.map.tables.previous = none := by
  cases hp : s.map.tables.previous with
  | none => rfl
  | some p =>
    have hlen := h.placed.length p hp
    have hpos := h.placed.sources p hp
    omega

theorem Held.remove (h : Held hash s) (flavor : Flavor) (mode : SnapshotMode) (k : K) :
    (remove hash flavor mode k s).1 = s.find hash k ∧
      Wrote hash k none s (remove hash flavor mode k s).2 := by
  have hl := h.lockKey k
  unfold Foreground.remove
  split
  · next hearly =>
    -- no slot of either generation holds the key
    have hnone : s.find hash k = none := by
      have hprev := h.previous_none hearly.2.2
      have hslot : slot s.map.tables.active (s.index hash k) = ∅ :=
        Worker.slot_of_eq_none (Option.isNone_iff_eq_none.mp hearly.2.1)
      unfold Live.index at hslot
      rw [Live.find, Tables.lookup, hslot, hprev]
      rfl
    exact ⟨hnone.symm, (Kept.refl h).wrote_same hnone⟩
  · dsimp only
    split
    · next hmiss =>
      have hnone : s.find hash k = none := by
        rw [← hl.shard]
        exact Option.isNone_iff_eq_none.mp hmiss.2
      exact ⟨hnone.symm, hl.toKept.wrote_same hnone⟩
    · exact ⟨hl.shard, hl.remove⟩

theorem Held.getOrInsertWith (h : Held hash s) (k : K) (f : Unit → V) :
    (getOrInsertWith hash k f s).1 = (s.find hash k).getD (f ()) ∧
      Wrote hash k (some ((s.find hash k).getD (f ()))) s (getOrInsertWith hash k f s).2 := by
  have hl := h.lockKey k
  have hshard := hl.shard
  unfold Foreground.getOrInsertWith
  cases hv : s.find hash k with
  | none =>
    simp only [hshard, hv]
    exact ⟨rfl, hl.read_insert _ _⟩
  | some v =>
    simp only [hshard, hv]
    exact ⟨rfl, (hl.recordRead _).wrote_same hv⟩

theorem Held.computeIfPresent (h : Held hash s) (k : K) (f : V → Option V) :
    (computeIfPresent hash k f s).1 = (s.find hash k).bind f ∧
      Wrote hash k ((s.find hash k).bind f) s (computeIfPresent hash k f s).2 := by
  have hl := h.lockKey k
  have hshard := hl.shard
  unfold Foreground.computeIfPresent
  cases hv : s.find hash k with
  | none =>
    simp only [hshard, hv]
    exact ⟨rfl, (hl.recordRead _).wrote_same hv⟩
  | some v =>
    simp only [hshard, hv, Option.bind_some]
    cases f v with
    | some w => exact ⟨rfl, hl.read_insert _ w⟩
    | none => exact ⟨rfl, hl.read_remove _⟩

variable (eq : V → V → Bool)

theorem Held.compareAndSwap (h : Held hash s) (k : K) (expected new : V) :
    (compareAndSwap hash eq k expected new s).1 = (match s.find hash k with
      | none => .failure new
      | some v => if eq v expected then .success new else .failure v) ∧
    Wrote hash k ((s.find hash k).map fun v => if eq v expected then new else v) s
      (compareAndSwap hash eq k expected new s).2 := by
  have hl := h.lockKey k
  have hshard := hl.shard
  unfold Foreground.compareAndSwap
  cases hv : s.find hash k with
  | none =>
    simp only [hshard, hv]
    exact ⟨trivial, (hl.recordRead _).wrote_same hv⟩
  | some v =>
    simp only [hshard, hv]
    cases he : eq v expected with
    | true =>
      simp only [Option.map_some, he, if_true]
      exact ⟨trivial, hl.read_insert _ new⟩
    | false =>
      simp only [Option.map_some, he]
      exact ⟨rfl, (hl.recordRead _).wrote_same hv⟩

theorem Held.compareAndRemove (h : Held hash s) (k : K) (expected : V) :
    (compareAndRemove hash eq k expected s).1 = (s.find hash k).any (eq · expected) ∧
    Wrote hash k ((s.find hash k).filter fun v => !eq v expected) s
      (compareAndRemove hash eq k expected s).2 := by
  have hl := h.lockKey k
  have hshard := hl.shard
  unfold Foreground.compareAndRemove
  simp only [hshard]
  cases hv : s.find hash k with
  | none => exact ⟨rfl, (hl.recordRead _).wrote_same hv⟩
  | some v =>
    cases he : eq v expected with
    | true =>
      simp only [Option.any_some, he, if_true, Option.filter_some, Bool.not_true]
      exact ⟨trivial, hl.read_remove _⟩
    | false =>
      simp only [Option.any_some, he, Option.filter_some, Bool.not_false, if_true]
      exact ⟨rfl, (hl.recordRead _).wrote_same hv⟩

end Operations
end Starshard.Foreground
