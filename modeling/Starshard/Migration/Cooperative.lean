import Starshard.Migration.Advance

/-! `rebalance_to` with `background = true`: batches until the requested layout is in
place. A migration to another layout is drained first. -/
namespace Starshard.Migration

open Data Worker

variable {K V : Type}

/-- `*previous = Some(mem::replace(active, vec![None; target]))` and the tracker's start. -/
def State.begin (target now : Nat) (s : State K V) : State K V :=
  { s with
    tables := s.tables.begin target
    tracker := s.tracker.beginWithCounts s.tables.shardCount target s.totalLen now }

def State.resume (s : State K V) : State K V := { s with tracker := s.tracker.pause false }

section Loop

variable [DecidableEq K] (env : Env K V) (hash : K → Nat)

/-- The loop, with the entries moved so far; every batch gets the same fuel. -/
def cooperativeLoop (options : RebalanceOptions) (target batchFuel : Nat) :
    Nat → Batch K V → Nat → Except Fault (Batch K V × Nat)
  | 0, _, _ => .error .fuel
  | fuel + 1, b, moved =>
    if b.state.tracker.migrating = false ∧ b.state.tables.shardCount = target then .ok (b, moved)
    else
      let started := if b.state.tracker.migrating then b.state
        else b.state.begin target (env.now b.readings)
      match advanceRebalanceWithOptions env hash options batchFuel
          (.start started.resume (b.readings + 1)) with
      | .error e => .error e
      | .ok b => cooperativeLoop options target batchFuel fuel b (moved + b.report.movedEntries)

/-- `rebalance_to(new_shard_count, options)` with `options.background`. -/
def rebalanceTo (newShardCount : Nat) (options : RebalanceOptions) (fuel batchFuel : Nat)
    (b : Batch K V) : Except Fault (Except ShardCountError (Batch K V × RebalanceReport)) :=
  match strictShardCount newShardCount MAX_SHARDS with
  | .error e => .ok (.error e)
  | .ok target =>
    match cooperativeLoop env hash options target batchFuel fuel
        (.start b.state (b.readings + 1)) 0 with
    | .error e => .error e
    | .ok (done, moved) => .ok (.ok (done, {
        fromShards := b.state.tables.shardCount
        toShards := target
        movedEntries := moved
        elapsedMs := (env.now done.readings - env.now b.readings) / 1000000 }))

end Loop

variable [DecidableEq K] {hash : K → Nat}

theorem State.Sound.resume {s : State K V} (h : s.Sound hash) : s.resume.Sound hash := by
  unfold State.resume Progress.pause
  split
  · exact ⟨h.placed, h.len, h.room, h.count, h.migrating, h.total, h.sources, h.drained, h.strict⟩
  · exact h

omit [DecidableEq K] in
theorem State.resume_fields (s : State K V) : counts s.resume.tracker = counts s.tracker ∧
    (s.tracker.migrating = true → s.resume.tracker.telemetry.paused = false) := by
  refine ⟨counts_pause _ _, fun hm => ?_⟩
  unfold State.resume Progress.pause
  rw [if_pos hm]

omit [DecidableEq K] in
theorem workLeft_congr {s s' : State K V} (ht : s'.tables = s.tables)
    (hc : counts s'.tracker = counts s.tracker) : workLeft s' = workLeft s := by
  obtain ⟨_, _, _, _, _, _, hcs, hts⟩ := completed_counts hc
  unfold workLeft
  rw [ht, hcs, hts]

omit [DecidableEq K] in
theorem workLeft_resume (s : State K V) : workLeft s.resume = workLeft s :=
  workLeft_congr (s := s) rfl s.resume_fields.1

theorem State.Sound.begin {s : State K V} (h : s.Sound hash) (hm : s.tracker.migrating = false)
    {target : Nat} (ht : 0 < target) (hcap : target < usizeMax) (now : Nat) :
    (s.begin target now).Sound hash ∧
      (∀ k, (s.begin target now).tables.lookup hash k = s.tables.lookup hash k) ∧
      workLeft (s.begin target now) = s.tables.entries.length + s.tables.shardCount := by
  have hnone : s.tables.previous = none := by
    have := h.migrating
    rw [hm] at this
    simpa using this
  have hplaced : (s.begin target now).tables.Placed hash := h.placed.begin ht
  have hlookup (k : K) : (s.begin target now).tables.lookup hash k = s.tables.lookup hash k :=
    Tables.Placed.lookup_begin hnone target k
  obtain ⟨hlen, hroom⟩ := h.lengths hplaced hlookup rfl
  refine ⟨⟨hplaced, hlen, hroom, hcap, rfl, ?_, ?_, ?_, fun _ => h.placed.pos⟩, hlookup, ?_⟩
  · intro p hp
    cases hp
    exact h.placed.count.symm
  · intro p hp
    cases hp
    rw [h.placed.count]
    exact h.count
  · exact fun p _ i hi => absurd hi (Nat.not_lt_zero i)
  · simp [workLeft, State.begin, Tables.begin, leftover, Tables.entries, hnone,
      Progress.beginWithCounts, RebalanceTelemetry.default]

/-- The work of a whole rebalance: the migration in progress, then the requested one. -/
def journey (target : Nat) (s : State K V) : Nat :=
  (if s.tracker.migrating then workLeft s else 0) +
    if s.tables.shardCount = target then 0
    else s.tables.entries.length + s.tables.shardCount + 1

theorem workLeft_le {s : State K V} (h : s.Sound hash) (hm : s.tracker.migrating = true) :
    workLeft s ≤ s.tables.entries.length + usizeMax := by
  obtain ⟨p, hd, _⟩ := h.draining hm
  have htot := hd.total
  have hsrc := h.sources p hd.previous
  have hle := length_leftover_le s.tables
  unfold workLeft
  omega

theorem Kept.journey_lt {s : State K V} {b : Batch K V} (h : Kept hash s b) (hs : s.Sound hash)
    (hm : s.tracker.migrating = true) (hdone : 0 < b.done) (target : Nat) :
    journey target b.state < journey target s := by
  have hleft := h.left
  have hcs := h.completedShards
  have hentries := length_entries_congr hs.placed h.sound.placed h.lookup
  have hlt := hs.strict hm
  unfold Batch.done at hdone
  unfold journey
  rw [h.count, hentries, if_pos hm]
  refine Nat.add_lt_add_right ?_ _
  unfold workLeft
  split
  · next hmig =>
    have htot := h.totalShards hmig
    have hlt' := h.sound.strict hmig
    omega
  · omega

/-- A state with the contents, the length and the version of another. -/
structure Same (hash : K → Nat) (s₀ s : State K V) : Prop where
  sound : s.Sound hash
  lookup : ∀ k, s.tables.lookup hash k = s₀.tables.lookup hash k
  len : s.totalLen = s₀.totalLen
  epoch : s.writeEpoch = s₀.writeEpoch

theorem Same.trans {s₀ s₁ s₂ : State K V} (h : Same hash s₀ s₁) (h' : Same hash s₁ s₂) :
    Same hash s₀ s₂ where
  sound := h'.sound
  lookup k := (h'.lookup k).trans (h.lookup k)
  len := h'.len.trans h.len
  epoch := h'.epoch.trans h.epoch

theorem Kept.same {s : State K V} {b : Batch K V} (h : Kept hash s b) : Same hash s b.state :=
  ⟨h.sound, h.lookup, h.len, h.epoch⟩

theorem cooperate_batch {s : State K V} (h : s.Sound hash) (hm : s.tracker.migrating = true)
    (env : Env K V) (options : RebalanceOptions) {batchFuel : Nat}
    (hf : s.tables.entries.length + usizeMax < batchFuel) (readings : Nat) :
    ∃ b, advanceRebalanceWithOptions env hash options batchFuel (.start s.resume readings) =
        .ok b ∧ Kept hash s.resume b ∧ 0 < b.done := by
  obtain ⟨hcounts, hpaused⟩ := s.resume_fields
  have hmig : s.resume.tracker.migrating = true := (completed_counts hcounts).1.trans hm
  have hwork : workLeft s.resume < batchFuel := by
    rw [workLeft_resume]
    exact Nat.lt_of_le_of_lt (workLeft_le h hm) hf
  obtain ⟨b, hadv, _, _, hkept, hdone⟩ := advanceRebalanceInner_ends h.resume hmig (hpaused hm) env
    ⟨usizeMax, max options.batchSize 1, options.maxPauseNs⟩ (by simp [usizeMax])
    (Nat.lt_of_lt_of_le Nat.one_pos (Nat.le_max_right _ _)) hwork readings
  exact ⟨_, hadv, hkept.finish _ _ _ _, hdone⟩

theorem cooperativeLoop_ends (env : Env K V) (options : RebalanceOptions) {target : Nat}
    (ht : 0 < target) (hcap : target < usizeMax) (batchFuel fuel : Nat) :
    ∀ (b : Batch K V) (moved : Nat), b.state.Sound hash →
      b.state.tables.entries.length + usizeMax < batchFuel → journey target b.state < fuel →
      ∃ b' moved', cooperativeLoop env hash options target batchFuel fuel b moved =
          .ok (b', moved') ∧ Same hash b.state b'.state ∧ b'.state.tracker.migrating = false ∧
        b'.state.tables.shardCount = target := by
  induction fuel with
  | zero => exact fun _ _ _ _ hj => absurd hj (Nat.not_lt_zero _)
  | succ fuel ih =>
    intro b moved h hf hj
    unfold cooperativeLoop
    split
    · next hdone => exact ⟨b, moved, rfl, ⟨h, fun _ => rfl, rfl, rfl⟩, hdone.1, hdone.2⟩
    next hgo =>
    -- the migration the batch works on, which begins here when the map is idle
    have hstarted : ∃ s, (if b.state.tracker.migrating then b.state
        else b.state.begin target (env.now b.readings)) = s ∧ Same hash b.state s ∧
        s.tracker.migrating = true ∧ journey target s ≤ journey target b.state := by
      by_cases hm : b.state.tracker.migrating = true
      · exact ⟨_, if_pos hm, ⟨h, fun _ => rfl, rfl, rfl⟩, hm, Nat.le_refl _⟩
      · have hidle := Bool.not_eq_true _ ▸ hm
        obtain ⟨hs, hlookup, hwork⟩ := h.begin hidle ht hcap (env.now b.readings)
        refine ⟨_, if_neg hm, ⟨hs, hlookup, rfl, rfl⟩, rfl, ?_⟩
        have hne : b.state.tables.shardCount ≠ target := fun heq => hgo ⟨hidle, heq⟩
        have hcount : (b.state.begin target (env.now b.readings)).tables.shardCount = target := rfl
        have hmig : (b.state.begin target (env.now b.readings)).tracker.migrating = true := rfl
        unfold journey
        rw [if_neg hm, if_neg hne, if_pos hmig, if_pos hcount, hwork]
        omega
    obtain ⟨s, hs, hsame, hm, hle⟩ := hstarted
    rw [hs]
    have hlen := length_entries_congr h.placed hsame.sound.placed hsame.lookup
    obtain ⟨b₁, hadv, hkept, hdone⟩ := cooperate_batch hsame.sound hm env options
      (by rw [hlen]; exact hf) (b.readings + 1)
    obtain ⟨hcounts, _⟩ := s.resume_fields
    have hresume : Same hash s s.resume := ⟨hsame.sound.resume, fun _ => rfl, rfl, rfl⟩
    have hmig : s.resume.tracker.migrating = true := (completed_counts hcounts).1.trans hm
    have hsame₁ := (hsame.trans hresume).trans hkept.same
    have hj₁ := hkept.journey_lt hsame.sound.resume hmig hdone target
    have hjr : journey target s.resume = journey target s := by
      unfold journey
      rw [if_pos hmig, if_pos hm, workLeft_resume]
      rfl
    have hlen₁ := length_entries_congr h.placed hsame₁.sound.placed hsame₁.lookup
    obtain ⟨b', moved', hloop, hsame', hend⟩ := ih b₁ (moved + b₁.report.movedEntries) hsame₁.sound
      (by rw [hlen₁]; exact hf) (by omega)
    refine ⟨b', moved', ?_, hsame₁.trans hsame', hend⟩
    dsimp only
    rw [hadv]
    exact hloop

/-- Cooperative `rebalance_to` returns, with the requested layout in place. -/
theorem rebalanceTo_ends {s : State K V} (h : s.Sound hash) {newShardCount target : Nat}
    (ht : strictShardCount newShardCount MAX_SHARDS = .ok target) (env : Env K V)
    (options : RebalanceOptions) (readings : Nat) {fuel batchFuel : Nat}
    (hfuel : journey target s < fuel)
    (hbatch : s.tables.entries.length + usizeMax < batchFuel) :
    ∃ b report, rebalanceTo env hash newShardCount options fuel batchFuel (.start s readings) =
        .ok (.ok (b, report)) ∧ Same hash s b.state ∧ b.state.tracker.migrating = false ∧
      b.state.tables.shardCount = target := by
  have hpos := (strictShardCount_ok ht).1
  have hcap := strictShardCount_lt ht
  obtain ⟨b, moved, hloop, hend⟩ := cooperativeLoop_ends env options hpos hcap batchFuel fuel
    (.start s (readings + 1)) 0 h hbatch hfuel
  refine ⟨b, ⟨s.tables.shardCount, target, moved,
    (env.now b.readings - env.now readings) / 1000000⟩, ?_, hend⟩
  unfold rebalanceTo
  rw [ht]
  dsimp only [Batch.start] at hloop ⊢
  rw [hloop]

/-- From every state cooperative `rebalance_to` terminates at the requested layout: no
migration is left, every key is in the slot its hash selects, and the contents, the length
and the version are those before the call. -/
theorem cooperative_rebalance_terminates {flavor : Flavor} {s : State K V}
    (hr : Reachable hash flavor s) {newShardCount target : Nat}
    (ht : strictShardCount newShardCount MAX_SHARDS = .ok target) (env : Env K V)
    (options : RebalanceOptions) (readings : Nat) :
    ∃ enough, ∀ fuel batchFuel, enough ≤ fuel → enough ≤ batchFuel → ∃ b report,
      rebalanceTo env hash newShardCount options fuel batchFuel (.start s readings) =
        .ok (.ok (b, report)) ∧
      b.state.tracker.migrating = false ∧ b.state.tables.previous = none ∧
      b.state.tables.shardCount = target ∧
      (∀ i k v, (slot b.state.tables.active i).lookup k = some v → hash k % target = i) ∧
      (∀ k, b.state.tables.lookup hash k = s.tables.lookup hash k) ∧
      b.state.totalLen = s.totalLen ∧ b.state.writeEpoch = s.writeEpoch := by
  have h := hr.sound
  refine ⟨journey target s + s.tables.entries.length + usizeMax + 1,
    fun fuel batchFuel hfuel hbatch => ?_⟩
  obtain ⟨b, report, heq, hsame, hmig, hcount⟩ := rebalanceTo_ends h ht env options readings
    (by omega : journey target s < fuel)
    (by omega : s.tables.entries.length + usizeMax < batchFuel)
  have hnone : b.state.tables.previous = none := by
    have := hsame.sound.migrating
    rw [hmig] at this
    simpa using this
  refine ⟨b, report, heq, hmig, hnone, hcount, fun i k v hv => ?_, hsame.lookup, hsame.len,
    hsame.epoch⟩
  rw [← hcount]
  exact hsame.sound.placed.active i k v hv

theorem cooperative_rebalance_terminates_spreading : ∃ enough, ∀ fuel batchFuel, enough ≤ fuel →
    enough ≤ batchFuel → ∃ b report, rebalanceTo (.still Nat Nat) id 3 ⟨true, 0, 5⟩ fuel batchFuel
      (.start spreading 0) = .ok (.ok (b, report)) ∧ b.state.tables.shardCount = 3 :=
  have ⟨enough, h⟩ := cooperative_rebalance_terminates (spreading_reachable .sync)
    (rfl : strictShardCount 3 MAX_SHARDS = .ok 3) (.still Nat Nat) ⟨true, 0, 5⟩ 0
  ⟨enough, fun fuel batchFuel hf hb =>
    have ⟨b, report, heq, _, _, hcount, _⟩ := h fuel batchFuel hf hb
    ⟨b, report, heq, hcount⟩⟩

end Starshard.Migration
