import Starshard.Migration.Effects

/-! The invariant of a map under migration: every entry is where a lookup finds it,
the length counts the entries and the tracker describes the directories. -/
namespace Starshard.Migration

open Data Worker
open Concurrent (Replay)

variable {K V : Type} [DecidableEq K] {hash : K → Nat}

section Contents

variable {t t' : Tables K V}

theorem represents_entries (h : t.Placed hash) : Represents t.entries (t.lookup hash) :=
  ⟨h.entries_nodup, fun _ _ => Tables.mem_entries.trans h.stores_iff⟩

theorem length_entries_congr (h : t.Placed hash) (h' : t'.Placed hash)
    (hl : ∀ k, t'.lookup hash k = t.lookup hash k) : t'.entries.length = t.entries.length := by
  have hr := represents_entries h'
  rw [funext hl] at hr
  exact hr.length_eq (represents_entries h)

theorem length_entries_insert (h : t.Placed hash) (k : K) (v : V) :
    (t.insert hash k v).entries.length =
      if (t.lookup hash k).isSome then t.entries.length else t.entries.length + 1 := by
  have hr := represents_entries (h.insert k v)
  rw [funext fun k' => h.lookup_insert k k' v] at hr
  exact (represents_entries h).length_insert hr

theorem length_entries_remove (h : t.Placed hash) (k : K) :
    (t.remove hash k).entries.length =
      if (t.lookup hash k).isSome then t.entries.length - 1 else t.entries.length := by
  have hl : (t.remove hash k).lookup hash = fun k' => if k' = k then none else t.lookup hash k' :=
    funext fun k' => Tables.Placed.lookup_remove k k'
  have hr := represents_entries (h.remove k)
  rw [hl] at hr
  cases hk : t.lookup hash k with
  | none =>
    refine hr.length_eq ⟨(represents_entries h).nodup, fun k' v => ?_⟩
    rw [(represents_entries h).mem]
    by_cases hkk : k' = k <;> simp [hkk, hk]
  | some v =>
    have := (represents_entries h).length_erase hr hk (if_pos rfl) fun k' hkk => by simp [hkk]
    simp [this]

omit [DecidableEq K] in
theorem entries_clear : t.clear.entries = [] := by
  have hall (shards : Shards K V) (n : Nat) (hn : shards.length ≤ n) :
      ((shards.take n).map (fun m => m.map fun _ => (∅ : Assoc K V)) ++ shards.drop n).flatMap
        (fun m => (m.getD ∅).items) = [] := by
    rw [List.take_of_length_le hn, List.drop_of_length_le hn, List.append_nil,
      List.flatMap_eq_nil_iff]
    intro m hm
    obtain ⟨a, _, rfl⟩ := List.mem_map.mp hm
    cases a <;> rfl
  simpa [Tables.clear, Tables.finish, Tables.entries, Tables.wipe] using
    hall t.active (t.active.length + (t.previous.getD []).length) (Nat.le_add_right _ _)

theorem length_entries_wipe (h : t.Placed hash) (n : Nat) :
    (t.wipe n).entries.length ≤ t.entries.length := by
  refine (represents_entries h).length_le (represents_entries (h.wipe n)) fun k v hv => ?_
  rw [← (h.wipe n).stores_iff] at hv
  rw [← h.stores_iff]
  rcases hv with ⟨i, hi⟩ | ⟨p, hp, i, hi⟩
  · exact .inl ⟨i, Tables.lookup_wipe_slot hi⟩
  · obtain ⟨q, hq, rfl⟩ := Option.map_eq_some_iff.mp hp
    exact .inr ⟨q, hq, i, Tables.lookup_wipe_slot hi⟩

end Contents

section Staging

variable {target : Nat} {t : Tables K V}

theorem staged_overwrite {maps : Shards K V} {es : List (K × V)} (ht : 0 < target)
    (h : Tables.Staged hash target maps es) (e : K × V) :
    Tables.Staged hash target (overwriteEntry hash target maps e) (es ++ [e]) := by
  obtain ⟨k, v⟩ := e
  have hlt : hash k % target < maps.length := by
    rw [h.length]
    exact Nat.mod_lt _ ht
  unfold overwriteEntry
  refine ⟨length_insertAt.trans h.length, fun i k' v' hv => ?_, fun k' v' hm => ?_⟩
  · rw [lookup_insertAt hlt] at hv
    split at hv
    · next hi =>
      obtain ⟨rfl, rfl⟩ := hi
      cases hv
      exact ⟨rfl, by simp⟩
    · exact ⟨(h.sound i k' v' hv).1, by simp [(h.sound i k' v' hv).2]⟩
  · rw [lookup_insertAt hlt]
    split
    · rfl
    · next hne =>
      rcases List.mem_append.mp hm with hm | hm
      · exact h.complete k' v' hm
      · obtain ⟨rfl, rfl⟩ := Prod.mk.inj (List.mem_singleton.mp hm)
        exact absurd ⟨rfl, rfl⟩ hne

theorem staged_nil : Tables.Staged hash target (List.replicate target (none : Option (Assoc K V))) [] where
  length := List.length_replicate
  sound i k v hv := by simp at hv
  complete _ _ hm := by cases hm

/-- A fold that stages one entry after the other stages all of them. -/
theorem staged_foldl {stage : Shards K V → K × V → Shards K V}
    (hstage : ∀ maps es e, Tables.Staged hash target maps es →
      Tables.Staged hash target (stage maps e) (es ++ [e])) (post : List (K × V)) :
    ∀ (pre : List (K × V)) (maps : Shards K V), Tables.Staged hash target maps pre →
      Tables.Staged hash target (post.foldl stage maps) (pre ++ post) := by
  induction post with
  | nil =>
    intro pre maps h
    rwa [List.append_nil]
  | cons e post ih =>
    intro pre maps h
    have := ih _ _ (hstage maps pre e h)
    rwa [List.append_assoc] at this

theorem staged_lookup {maps : Shards K V} {es : List (K × V)} {d : K → Option V}
    (h : Tables.Staged hash target maps es) (hd : Represents es d) (k : K) :
    (slot maps (hash k % target)).lookup k = d k := by
  cases hk : (slot maps (hash k % target)).lookup k with
  | some v => exact ((hd.mem k v).mp (h.sound _ k v hk).2).symm
  | none =>
    cases hv : d k with
    | none => rfl
    | some v =>
      have := h.complete k v ((hd.mem k v).mpr hv)
      rw [hk] at this
      cases this

theorem represents_asyncEntries (h : t.Placed hash) :
    Represents (asyncEntries t) (t.lookup hash) := by
  refine (represents_entries h).of_perm ?_
  unfold Tables.entries asyncEntries
  rw [List.flatMap_append, List.flatMap_append]
  exact List.perm_append_comm

theorem staged_async (ht : 0 < target) (t : Tables K V) :
    Tables.Staged hash target (asyncStage hash target t).active (asyncEntries t) :=
  staged_foldl (fun _ _ e h => staged_overwrite ht h e) _ [] _ staged_nil

theorem placed_asyncStage (ht : 0 < target) (t : Tables K V) :
    (asyncStage hash target t).Placed hash where
  count := (staged_async ht t).length
  pos := ht
  active i k v hv := ((staged_async ht t).sound i k v hv).1
  length _ hp := by cases hp
  sources _ hp := by cases hp
  previous _ hp := by cases hp
  once _ hp := by cases hp

theorem lookup_asyncStage (h : t.Placed hash) (ht : 0 < target) (k : K) :
    (asyncStage hash target t).lookup hash k = t.lookup hash k := by
  have hs : Tables.Staged hash target (asyncStage hash target t).active (asyncEntries t) :=
    staged_async ht t
  rw [← staged_lookup hs (represents_asyncEntries h) k]
  simp [Tables.lookup, asyncStage]

omit [DecidableEq K] in
theorem stagedLen_eq (h : t.previous = none) : stagedLen t = t.entries.length := by
  simp [stagedLen, Tables.entries, h, List.length_flatMap]

end Staging

/-- The invariant of a run. -/
structure Sound (hash : K → Nat) (m : Map K V) : Prop where
  laid : Laid hash m.owner
  len : m.totalLen = m.owner.tables.entries.length
  room : m.owner.tables.entries.length < usizeMax
  count : m.owner.tables.shardCount < usizeMax
  sources : ∀ p, m.owner.tables.previous = some p → p.length < usizeMax
  completed : m.owner.tracker.migrating = true →
    m.owner.tracker.telemetry.completedShards ≤ m.owner.tracker.telemetry.totalShards
  strict : m.owner.tracker.migrating = true → ¬ Swept m.owner →
    m.owner.tracker.telemetry.completedShards < m.owner.tracker.telemetry.totalShards
  ends : m.owner.tracker.migrating = true →
    m.owner.tracker.telemetry.fromShards = m.owner.tracker.telemetry.totalShards ∧
      m.owner.tracker.telemetry.toShards = m.owner.tables.shardCount

theorem Sound.new {count : Nat} (hpos : 0 < count) (hcap : count < usizeMax) :
    Sound hash (Map.new K V count) where
  laid := .new hpos
  len := by simp [Map.new, Worker.State.new, Tables.entries, List.flatMap_replicate, Data.Assoc.items]
  room := by
    simp [Map.new, Worker.State.new, Tables.entries, List.flatMap_replicate, Data.Assoc.items,
      usizeMax]
  count := hcap
  sources _ hp := by cases hp
  completed hm := by cases hm
  strict hm := by cases hm
  ends hm := by cases hm

theorem completed_counts {p q : Progress} (h : counts p = counts q) :
    p.migrating = q.migrating ∧ p.telemetry.generation = q.telemetry.generation ∧
      p.telemetry.fromShards = q.telemetry.fromShards ∧
      p.telemetry.toShards = q.telemetry.toShards ∧
      p.telemetry.initialEntries = q.telemetry.initialEntries ∧
      p.telemetry.movedEntries = q.telemetry.movedEntries ∧
      p.telemetry.completedShards = q.telemetry.completedShards ∧
      p.telemetry.totalShards = q.telemetry.totalShards := by
  simpa [counts] using h

namespace Sound

variable {m : Map K V}

theorem settle {m' : Map K V} (hl : Laid hash m'.owner)
    (hlen : m'.totalLen = m'.owner.tables.entries.length)
    (hroom : m'.owner.tables.entries.length < usizeMax)
    (hcount : m'.owner.tables.shardCount < usizeMax)
    (hm : m'.owner.tracker.migrating = false) : Sound hash m' where
  laid := hl
  len := hlen
  room := hroom
  count := hcount
  sources p hp := by rw [hl.previous_none hm] at hp; cases hp
  completed h := by rw [hm] at h; cases h
  strict h := by rw [hm] at h; cases h
  ends h := by rw [hm] at h; cases h

theorem lenAfter_eq (h : Sound hash m) {l : Label K V} {s' : Worker.State K V}
    (hs : Worker.Step hash l m.owner s') :
    lenAfter hash l m.owner.tables s'.tables m.totalLen = s'.tables.entries.length := by
  have hp := h.laid.placed
  have hp' := (h.laid.step hs).placed
  have keep (hw : l.writes = false) :
      s'.tables.entries.length = m.owner.tables.entries.length :=
    length_entries_congr hp hp' (h.laid.lookup_step hs hw)
  cases hw : l.writes with
  | false =>
    rw [keep hw, ← h.len]
    cases l with
    | insert | remove | wipe | clear => cases hw
    | _ => rfl
  | true =>
    cases effect h.laid hs with
    | keep _ hn => rw [hw] at hn; cases hn
    | begin n len now hb hn =>
      cases l with
      | insert | remove | wipe | clear => cases hb
      | _ => cases hw
    | move | retire | drained | staged => cases hw
    | clear now _ _ ht =>
      rw [ht, entries_clear]
      simp [lenAfter, h.len, entries_clear]
    | wipe n _ _ ht =>
      have := length_entries_wipe hp n
      rw [← ht] at this
      simp only [lenAfter, h.len]
      omega
    | insert k v _ _ ht =>
      rw [ht, length_entries_insert hp]
      simp only [lenAfter, h.len]
    | remove k _ _ ht =>
      rw [ht, length_entries_remove hp]
      simp only [lenAfter, h.len]

theorem worker (h : Sound hash m) {l : Label K V} {s' : Worker.State K V} {epoch : Nat}
    (hs : Worker.Step hash l m.owner s') (hroom : s'.tables.entries.length < usizeMax) :
    Sound hash ⟨s', lenAfter hash l m.owner.tables s'.tables m.totalLen, epoch⟩ := by
  have hl := h.laid.step hs
  have hlen := h.lenAfter_eq hs
  have total (p : Shards K V) (hp : m.owner.tables.previous = some p) :
      m.owner.tracker.telemetry.totalShards = p.length := h.laid.total p hp
  cases effect h.laid hs with
  | keep _ _ ht hc hsw =>
    obtain ⟨hm, _, hf, hto, _, _, hcs, hts⟩ := completed_counts hc
    refine ⟨hl, hlen, hroom, ?_, ?_, ?_, ?_, ?_⟩
    · exact ht ▸ h.count
    · exact ht ▸ h.sources
    · dsimp only
      rw [hm, hcs, hts]
      exact h.completed
    · dsimp only
      rw [hm, hcs, hts]
      intro hmig hns
      by_cases hold : Swept m.owner
      · have hne := (hsw hold).resolve_left hns hmig
        have := h.completed hmig
        omega
      · exact h.strict hmig hold
    · dsimp only
      rw [hm, hf, hts, hto, ht]
      exact h.ends
  | begin n len now _ _ hb hb' hstrict hmig ht hc =>
    obtain ⟨hm, _, hf, hto, _, _, hcs, hts⟩ := completed_counts hc
    have hpos := h.laid.placed.pos
    refine ⟨hl, hlen, hroom, ?_, fun p hp => ?_, fun _ => ?_, fun _ _ => ?_, fun _ => ?_⟩
    · dsimp only
      rw [ht]
      exact strictShardCount_lt hstrict
    · dsimp only at hp
      rw [ht] at hp
      cases hp
      rw [h.laid.placed.count]
      exact h.count
    · dsimp only
      rw [hcs]
      exact Nat.zero_le _
    · dsimp only
      rw [hcs, hts]
      exact hpos
    · dsimp only
      rw [hf, hts, hto, ht]
      exact ⟨rfl, rfl⟩
  | move hns hns' hp hv ht htr =>
    have he := h.laid.placed.move_eq hp hv
    refine ⟨hl, hlen, hroom, ?_, fun q hq => ?_, ?_, ?_, ?_⟩
    · dsimp only
      rw [ht, he]
      exact h.count
    · dsimp only at hq
      rw [ht, he] at hq
      obtain ⟨p, hp, hlen, _⟩ := previous_detach hq
      rw [hlen]
      exact h.sources p hp
    · dsimp only
      rw [htr]
      exact h.completed
    · dsimp only
      rw [htr]
      exact fun hm _ => h.strict hm hns
    · dsimp only
      rw [htr, ht, he]
      exact h.ends
  | retire hns hsw _ _ ht htr =>
    refine ⟨hl, hlen, hroom, ?_, fun q hq => ?_, fun hm => ?_, fun _ hn => absurd hsw hn, ?_⟩
    · dsimp only
      rw [ht]
      exact h.count
    · dsimp only at hq
      rw [ht] at hq
      obtain ⟨p, hp, rfl⟩ := Option.map_eq_some_iff.mp hq
      rw [List.length_set]
      exact h.sources p hp
    · dsimp only at hm ⊢
      rw [htr] at hm ⊢
      exact h.strict hm hns
    · dsimp only
      rw [htr, ht]
      exact h.ends
  | drained now _ _ _ ht htr =>
    refine settle hl hlen hroom ?_ (by dsimp only; rw [htr]; rfl)
    dsimp only
    rw [ht]
    exact h.count
  | staged n elapsed _ _ hstrict ht htr =>
    refine settle hl hlen hroom ?_ (by dsimp only; rw [htr]; rfl)
    dsimp only
    rw [ht]
    exact strictShardCount_lt hstrict
  | clear now _ _ ht htr =>
    refine settle hl hlen hroom ?_ (by dsimp only; rw [htr]; rfl)
    dsimp only
    rw [ht]
    exact h.count
  | wipe n hb hb' ht htr =>
    refine ⟨hl, hlen, hroom, ?_, fun q hq => ?_, ?_, fun hm _ => ?_, ?_⟩
    · dsimp only
      rw [ht]
      exact h.count
    · dsimp only at hq
      rw [ht] at hq
      obtain ⟨p, hp, hlen, _⟩ := previous_wipe hq
      rw [hlen]
      exact h.sources p hp
    · dsimp only
      rw [htr]
      exact h.completed
    · dsimp only at hm ⊢
      rw [htr] at hm ⊢
      exact h.strict hm (not_swept_of_none hb)
    · dsimp only
      rw [htr, ht]
      exact h.ends
  | insert k v hb hb' ht htr | remove k hb hb' ht htr =>
    refine ⟨hl, hlen, hroom, ?_, fun q hq => ?_, ?_, fun hm _ => ?_, ?_⟩
    · dsimp only
      rw [ht]
      exact h.count
    · dsimp only at hq
      rw [ht] at hq
      obtain ⟨p, hp, hlen, _⟩ := previous_detach hq
      rw [hlen]
      exact h.sources p hp
    · dsimp only
      rw [htr]
      exact h.completed
    · dsimp only at hm ⊢
      rw [htr] at hm ⊢
      exact h.strict hm (not_swept_of_none hb)
    · dsimp only
      rw [htr, ht]
      exact h.ends

theorem step (h : Sound hash m) {flavor : Flavor} {l : Label K V} {m' : Map K V}
    (hs : Step hash flavor l m m') : Sound hash m' := by
  cases hs with
  | step hs _ _ _ hroom => exact h.worker hs hroom
  | drain now _ hb =>
    refine settle (h.laid.step (.clear now hb)) ?_ ?_ h.count rfl
    · dsimp only
      rw [entries_clear]
      rfl
    · dsimp only
      rw [entries_clear]
      exact Nat.lt_of_le_of_lt (Nat.zero_le _) h.room
  | staged n elapsed _ hb hstrict _ =>
    have ht := strictShardCount_ok hstrict
    have hplaced := (@placed_asyncStage _ _ _ hash) ht.1 m.owner.tables
    have hlen := length_entries_congr h.laid.placed hplaced (lookup_asyncStage h.laid.placed ht.1)
    refine settle (.settle hplaced rfl rfl fun b hb' => ?_) (stagedLen_eq rfl)
      (hlen ▸ h.room) (strictShardCount_lt hstrict) rfl
    dsimp only at hb'
    rw [hb] at hb'
    cases hb'

theorem replay {flavor : Flavor} {ls : List (Label K V)} {m' : Map K V}
    (hr : Replay (Step hash flavor) m ls m') (h : Sound hash m) : Sound hash m' := by
  induction hr with
  | nil => exact h
  | cons hs _ ih => exact ih (h.step hs)

theorem run {flavor : Flavor} {count : Nat} {ls : List (Label K V)}
    (h : Run hash flavor count ls m) : Sound hash m := replay h.2.2 (.new h.1 h.2.1)

end Sound

/-- What a migration may rely on while no batch holds the routing lock. -/
structure State.Sound (hash : K → Nat) (s : State K V) : Prop where
  placed : s.tables.Placed hash
  len : s.totalLen = s.tables.entries.length
  room : s.tables.entries.length < usizeMax
  count : s.tables.shardCount < usizeMax
  migrating : s.tables.previous.isSome = s.tracker.migrating
  total : ∀ p, s.tables.previous = some p → s.tracker.telemetry.totalShards = p.length
  sources : ∀ p, s.tables.previous = some p → p.length < usizeMax
  drained : ∀ p, s.tables.previous = some p →
    ∀ i < s.tracker.telemetry.completedShards, slot p i = ∅
  strict : s.tracker.migrating = true →
    s.tracker.telemetry.completedShards < s.tracker.telemetry.totalShards

theorem Sound.state {m : Map K V} (h : Sound hash m) (hb : m.owner.batch = none) :
    m.state.Sound hash :=
  ⟨h.laid.placed, h.len, h.room, h.count, h.laid.migrating, h.laid.total, h.sources,
    h.laid.drained, fun hm => h.strict hm (not_swept_of_none hb)⟩

theorem Reachable.sound {flavor : Flavor} {s : State K V} (h : Reachable hash flavor s) :
    s.Sound hash := by
  obtain ⟨count, ls, m, hr, hb, rfl⟩ := h
  exact (Sound.run hr).state hb

/-- The version is a `u64` that wraps. -/
theorem Step.epoch_lt {flavor : Flavor} {l : Label K V} {m m' : Map K V}
    (hs : Step hash flavor l m m') (h : m.writeEpoch < 2 ^ 64) : m'.writeEpoch < 2 ^ 64 := by
  cases hs with
  | step _ _ _ he _ =>
    split at he
    · obtain ⟨n, rfl⟩ := he
      exact Nat.mod_lt _ (by decide)
    · rwa [he]
  | drain => exact Nat.mod_lt _ (by decide)
  | staged => exact h

theorem epoch_lt_replay {flavor : Flavor} {ls : List (Label K V)} {m m' : Map K V}
    (hr : Replay (Step hash flavor) m ls m') (h : m.writeEpoch < 2 ^ 64) :
    m'.writeEpoch < 2 ^ 64 := by
  induction hr with
  | nil => exact h
  | cons hs _ ih => exact ih (hs.epoch_lt h)

theorem Reachable.epoch_lt {flavor : Flavor} {s : State K V} (h : Reachable hash flavor s) :
    s.writeEpoch < 2 ^ 64 := by
  obtain ⟨count, ls, m, ⟨_, _, hrun⟩, _, rfl⟩ := h
  exact epoch_lt_replay hrun (Nat.two_pow_pos 64)

end Starshard.Migration
