import Starshard.Worker.Claim

/-! Every step keeps each entry where a lookup finds it. -/
namespace Starshard.Worker

open Data Concurrent

variable {K V : Type}

theorem layout_releaseWorker (g : Nat) (p : Progress) : (p.releaseWorker g).layout = p.layout := by
  unfold Progress.releaseWorker
  split <;> rfl

/-- A batch at this point of its loop works on the first source that is not drained. -/
def Stage.fits (l : Progress.Layout) : Stage → Prop
  | .head | .swept _ => l.migrating = true
  | .loaded index | .moved index => l.migrating = true ∧ index = l.completedShards
  | .done => True

structure Laid (hash : K → Nat) [DecidableEq K] (s : State K V) : Prop where
  placed : s.tables.Placed hash
  migrating : s.tables.previous.isSome = s.tracker.layout.migrating
  total : ∀ p, s.tables.previous = some p → s.tracker.layout.totalShards = p.length
  drained : ∀ p, s.tables.previous = some p → ∀ i < s.tracker.layout.completedShards,
    slot p i = ∅
  stage : ∀ b, s.batch = some b → b.stage.fits s.tracker.layout

variable [DecidableEq K] {hash : K → Nat}

theorem Laid.new {count : Nat} (h : 0 < count) : Laid hash (State.new K V count) where
  placed :=
    { count := List.length_replicate
      pos := h
      active := fun i k v hv => by simp [State.new] at hv
      length := fun _ hp => by cases hp
      sources := fun _ hp => by cases hp
      previous := fun _ hp => by cases hp
      once := fun _ hp => by cases hp }
  migrating := rfl
  total _ hp := by cases hp
  drained _ hp := by cases hp
  stage _ hb := by cases hb

namespace Laid

variable {s s' : State K V}

theorem keep (h : Laid hash s) (ht : s'.tables = s.tables)
    (hl : s'.tracker.layout = s.tracker.layout)
    (hb : ∀ b, s'.batch = some b → b.stage.fits s.tracker.layout) : Laid hash s' where
  placed := by rw [ht]; exact h.placed
  migrating := by rw [ht, hl]; exact h.migrating
  total := by rw [ht, hl]; exact h.total
  drained := by rw [ht, hl]; exact h.drained
  stage := by rw [hl]; exact hb

theorem previous_none (h : Laid hash s) (hm : s.tracker.migrating = false) :
    s.tables.previous = none := by
  have := h.migrating
  rw [show s.tracker.layout.migrating = false from hm] at this
  simpa using this

theorem begin (h : Laid hash s) (hb : s.batch = none) (target len now : Nat) (ht : 0 < target) :
    Laid hash (s.begin target len now) where
  placed := h.placed.begin ht
  migrating := rfl
  total p hp := by
    cases hp
    exact h.placed.count.symm
  drained p hp i hi := absurd hi (Nat.not_lt_zero i)
  stage b hb' := by rw [State.begin, hb] at hb'; cases hb'

theorem settle (hp : s'.tables.Placed hash) (hn : s'.tables.previous = none)
    (hm : s'.tracker.migrating = false) (hb : ∀ b, s'.batch = some b → b.stage = .done) :
    Laid hash s' where
  placed := hp
  migrating := by rw [hn]; exact hm.symm
  total p hq := by rw [hn] at hq; cases hq
  drained p hq := by rw [hn] at hq; cases hq
  stage b hb' := by rw [hb b hb']; trivial

theorem edit (h : Laid hash s) {t : Tables K V} (hb : s.batch = none) (ht : t.Placed hash)
    (hp : ∀ p, t.previous = some p → ∃ q, s.tables.previous = some q ∧ p.length = q.length ∧
      ∀ i, slot q i = ∅ → slot p i = ∅)
    (hs : t.previous.isSome = s.tables.previous.isSome) : Laid hash { s with tables := t } where
  placed := ht
  migrating := hs.trans h.migrating
  total p hq := by
    obtain ⟨q, hq, hlen, _⟩ := hp p hq
    rw [hlen]
    exact h.total q hq
  drained p hq i hi := by
    obtain ⟨q, hq, _, he⟩ := hp p hq
    exact he i (h.drained q hq i hi)
  stage b hb' := by rw [hb] at hb'; cases hb'

end Laid

theorem slot_eraseAt_empty {p : Shards K V} {i j : Nat} {k : K} (h : slot p i = ∅) :
    slot (eraseAt j k p) i = ∅ := by
  unfold eraseAt slot at *
  rw [List.getElem?_modify]
  rcases hp : p[i]? with _ | _ | m
  · simp
  · by_cases hj : j = i <;> simp [hj]
  · rw [hp] at h
    have hm : m = ∅ := h
    subst hm
    by_cases hj : j = i
    · simp only [hj, if_true, Option.map_eq_map, Option.map_some, Option.join_some,
        Option.getD_some]
      rfl
    · simp [hj]

theorem previous_detach {t : Tables K V} {k : K} {p : Shards K V}
    (hp : (t.detach hash k).previous = some p) :
    ∃ q, t.previous = some q ∧ p.length = q.length ∧ ∀ i, slot q i = ∅ → slot p i = ∅ := by
  obtain ⟨q, hq, rfl⟩ := Option.map_eq_some_iff.mp hp
  exact ⟨q, hq, length_eraseAt, fun _ h => slot_eraseAt_empty h⟩

omit [DecidableEq K] in
theorem previous_wipe {t : Tables K V} {n : Nat} {p : Shards K V}
    (hp : (t.wipe n).previous = some p) :
    ∃ q, t.previous = some q ∧ p.length = q.length ∧ ∀ i, slot q i = ∅ → slot p i = ∅ := by
  obtain ⟨q, hq, rfl⟩ := Option.map_eq_some_iff.mp hp
  refine ⟨q, hq, by simp; omega, fun i h => ?_⟩
  rw [Tables.slot_wipe]
  split
  · rfl
  · exact h

omit [DecidableEq K] in
theorem source_some {t : Tables K V} {index : Nat} {m : Assoc K V}
    (h : t.source index = some m) : ∃ p, t.previous = some p ∧ slot p index = m := by
  unfold Tables.source at h
  cases hp : t.previous with
  | none => rw [hp] at h; cases h
  | some p =>
    rw [hp] at h
    exact ⟨p, rfl, by simp [slot, show p[index]?.join = some m from h]⟩

omit [DecidableEq K] in
theorem slot_of_source {t : Tables K V} {index : Nat} {p : Shards K V} (hp : t.previous = some p)
    (h : ∀ m, t.source index = some m → m.size = 0) : slot p index = ∅ := by
  unfold Tables.source at h
  rw [hp] at h
  unfold slot
  cases hm : p[index]?.join with
  | none => rfl
  | some m =>
    have := h m hm
    rw [← Assoc.items_length, List.length_eq_zero_iff, Assoc.items, List.map_eq_nil_iff] at this
    exact AList.ext this

/-- A reservation keeps the layout consistent and every entry in place. -/
theorem Laid.reserve {s s' : State K V} (h : Laid hash s) (hb : s.batch = none)
    {target len now : Nat} (ht : 0 < target) {options : RebalanceOptions} {job : Job} {fresh : Bool}
    (hr : reserve target len now options s = some (s', job, fresh)) : Laid hash s' := by
  rcases reserve_some hr with ⟨_, _, hc⟩ | ⟨_, _, _, hc⟩
  · obtain ⟨_, rfl, _⟩ := claim_some hc
    exact h.keep rfl rfl h.stage
  · obtain ⟨_, rfl, _⟩ := claim_some hc
    have hl := h.begin hb target len now ht
    exact hl.keep rfl rfl hl.stage

theorem Batch.judge_fits {K : Type} {b : Batch K} {empty elapsed : Bool} {l : Progress.Layout}
    (h : l.migrating = true) : (b.judge empty elapsed).stage.fits l := by
  unfold Batch.judge
  split
  · trivial
  · exact h

theorem Laid.step {l : Label K V} {s s' : State K V} (h : Laid hash s) (hs : Step hash l s s') :
    Laid hash s' := by
  cases hs with
  | claim w target options n len now hw hb ht hr =>
    have hl := h.reserve hb (strictShardCount_ok ht).1 hr
    exact hl.keep rfl rfl hl.stage
  | reject | spawned | proceed | stop | absorb | crash | report | cancel =>
    exact h.keep rfl rfl h.stage
  | refuse | release | ended | dropped =>
    exact h.keep rfl (layout_releaseWorker _ _) h.stage
  | enterWorker job hw hb =>
    split
    · exact h.keep rfl rfl h.stage
    · split
      · exact h.keep rfl rfl h.stage
      · next hm =>
        refine h.keep rfl rfl fun b hb' => ?_
        cases hb'
        exact (Bool.not_eq_false _).mp hm
  | enterManual maxShards maxEntries pauseNs hb =>
    split
    · exact h
    · next hm =>
      refine h.keep rfl rfl fun b hb' => ?_
      cases hb'
      exact (Bool.not_eq_false _).mp fun hf => hm (.inr hf)
  | exit hb hh _ =>
    refine h.keep rfl rfl fun b hb' => ?_
    cases hb'
    trivial
  | select workKeys hb hh _ _ _ _ =>
    refine h.keep rfl rfl fun b hb' => ?_
    cases hb'
    have hm := h.stage _ hb
    rw [hh] at hm
    have hm : s.tracker.migrating = true := hm
    refine ⟨hm, ?_⟩
    simp [Progress.snapshot, hm, Progress.layout]
  | move hb hl hsrc hk hv =>
    obtain ⟨p, hp, rfl⟩ := source_some hsrc
    have hfit := h.stage _ hb
    rw [hl] at hfit
    have he := h.placed.move_eq hp hv
    refine ⟨h.placed.move hp hv, ?_, fun q hq => ?_, fun q hq i hi => ?_, fun b hb' => ?_⟩
    · dsimp only
      rw [he]
      simpa [Tables.insert, Tables.put, Tables.detach] using h.migrating
    · dsimp only at hq
      rw [he] at hq
      obtain ⟨p, hp, hlen, _⟩ := previous_detach hq
      rw [hlen]
      exact h.total p hp
    · dsimp only at hq
      rw [he] at hq
      obtain ⟨p, hp, _, hempty⟩ := previous_detach hq
      exact hempty i (h.drained p hp i hi)
    · cases hb'
      exact hfit
  | skip hb hl _ =>
    refine h.keep rfl rfl fun b hb' => ?_
    cases hb'
    have hfit := h.stage _ hb
    rw [hl] at hfit
    exact hfit
  | retire hb hm hsrc =>
    have hfit := h.stage _ hb
    rw [hm] at hfit
    refine ⟨h.placed.retire _, ?_, fun q hq => ?_, fun q hq i hi => ?_, fun b hb' => ?_⟩
    · exact (Option.isSome_map ..).trans h.migrating
    · obtain ⟨p, hp, rfl⟩ := Option.map_eq_some_iff.mp hq
      exact (h.total p hp).trans List.length_set.symm
    · obtain ⟨p, hp, rfl⟩ := Option.map_eq_some_iff.mp hq
      rw [slot_clear]
      split
      · rfl
      · next hne =>
        have : i < s.tracker.layout.completedShards + 1 := hi
        have hidx := hfit.2
        exact h.drained p hp i (by omega)
    · cases hb'
      exact hfit.1
  | keep hb hm hsrc hne =>
    have hfit := h.stage _ hb
    rw [hm] at hfit
    refine h.keep rfl rfl fun b hb' => ?_
    cases hb'
    exact hfit.1
  | drained now hb hst heq =>
    refine .settle h.placed.finish rfl rfl fun b hb' => ?_
    cases hb'
    rfl
  | judge elapsed hb hst hne he =>
    have hfit := h.stage _ hb
    rw [hst] at hfit
    refine h.keep rfl rfl fun b hb' => ?_
    cases hb'
    exact Batch.judge_fits hfit
  | leave elapsed hb hd | unwind elapsed hb hd =>
    refine h.keep (by simp) (by simp) fun b hb' => ?_
    rw [State.back_batch] at hb'
    cases hb'
  | start n len now hb ht hm hne => exact h.begin hb _ len now (strictShardCount_ok ht).1
  | started | inPlace => exact h
  | staged n elapsed hb ht hne =>
    refine .settle (Tables.Placed.stage (strictShardCount_ok ht).1) rfl rfl fun b hb' => ?_
    rw [hb] at hb'
    cases hb'
  | pause | resume => exact h.keep rfl (Progress.layout_pause _ _) h.stage
  | clear now hb =>
    refine .settle (h.placed.wipe _).finish rfl rfl fun b hb' => ?_
    rw [hb] at hb'
    cases hb'
  | wipe n hb => exact h.edit hb (h.placed.wipe n) (fun _ hp => previous_wipe hp) (by simp [Tables.wipe])
  | insert k v hb =>
    exact h.edit hb (h.placed.insert k v) (fun _ hp => previous_detach hp)
      (by simp [Tables.insert, Tables.put, Tables.detach])
  | remove k hb =>
    exact h.edit hb (h.placed.remove k) (fun _ hp => previous_detach hp)
      (by simp [Tables.remove, Tables.detach])

/-- No step but a foreground write changes what a lookup finds. -/
theorem Laid.lookup_step {l : Label K V} {s s' : State K V} (h : Laid hash s)
    (hs : Step hash l s s') (hw : l.writes = false) (k : K) :
    s'.tables.lookup hash k = s.tables.lookup hash k := by
  cases hs with
  | claim w target options n len now hw hb ht hr =>
    rcases reserve_some hr with ⟨_, _, hc⟩ | ⟨_, hm, _, hc⟩
    · obtain ⟨_, rfl, _⟩ := claim_some hc
      rfl
    · obtain ⟨_, rfl, _⟩ := claim_some hc
      exact Tables.Placed.lookup_begin (h.previous_none hm) _ k
  | move hb hl hsrc hk hv =>
    obtain ⟨p, hp, rfl⟩ := source_some hsrc
    exact h.placed.lookup_move hp hv k
  | retire hb hm hsrc => exact Tables.Placed.lookup_retire (fun p hp => slot_of_source hp hsrc) k
  | drained now hb hst heq =>
    have hfit := h.stage _ hb
    rw [hst] at hfit
    have hfit : s.tracker.migrating = true := hfit
    refine Tables.Placed.lookup_finish (fun p hp i => ?_) k
    by_cases hi : i < p.length
    · refine h.drained p hp i ?_
      rw [← h.total p hp] at hi
      simp only [Progress.snapshot, hfit, if_true] at heq
      exact Nat.lt_of_lt_of_eq hi heq.symm
    · exact slot_of_le (Nat.le_of_not_lt hi)
  | start n len now hb ht hm hne => exact Tables.Placed.lookup_begin (h.previous_none hm) _ k
  | staged n elapsed hb ht hne => exact h.placed.lookup_stage (strictShardCount_ok ht).1 k
  | leave elapsed hb hd | unwind elapsed hb hd => rw [State.back_tables]
  | enterWorker job hw hb =>
    split
    · rfl
    · split <;> rfl
  | enterManual => split <;> rfl
  | reject | spawned | proceed | stop | absorb | crash | report | cancel | refuse | release | ended
  | dropped | exit | select | skip | keep | judge | started | inPlace | pause | resume => rfl
  | clear | wipe | insert | remove => cases hw

end Starshard.Worker
