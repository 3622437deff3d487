import Starshard.Migration.Budget

/-! The budget contract of a migration batch. -/
namespace Starshard.Migration

open Data Worker

variable {K V : Type} [DecidableEq K] {hash : K → Nat}

/-- A bound on the iterations of a batch that starts in `s`. -/
def workLeft (s : State K V) : Nat :=
  (leftover s.tables).length +
    (s.tracker.telemetry.totalShards - s.tracker.telemetry.completedShards)

/-- What no batch changes, and what it counts. -/
structure Kept (hash : K → Nat) (s : State K V) (b : Batch K V) : Prop where
  sound : b.state.Sound hash
  lookup : ∀ k, b.state.tables.lookup hash k = s.tables.lookup hash k
  len : b.state.totalLen = s.totalLen
  epoch : b.state.writeEpoch = s.writeEpoch
  count : b.state.tables.shardCount = s.tables.shardCount
  left : b.report.movedEntries + (leftover b.state.tables).length = (leftover s.tables).length
  movedEntries : b.state.tracker.telemetry.movedEntries =
    s.tracker.telemetry.movedEntries + b.report.movedEntries
  completedShards : b.state.tracker.telemetry.completedShards =
    s.tracker.telemetry.completedShards + b.report.completedShards
  totalShards : b.state.tracker.migrating = true →
    b.state.tracker.telemetry.totalShards = s.tracker.telemetry.totalShards
  complete : b.report.complete = true ↔ b.state.tracker.migrating = false
  finished : b.report.complete = true ↔ s.tracker.telemetry.completedShards +
    b.report.completedShards = s.tracker.telemetry.totalShards
  paused : b.state.tracker.migrating = true →
    b.state.tracker.telemetry.paused = s.tracker.telemetry.paused

theorem State.Sound.record {s : State K V} (h : s.Sound hash) (g elapsed budget : Nat) :
    ({ s with tracker := s.tracker.recordBatch g elapsed budget } : State K V).Sound hash := by
  unfold Progress.recordBatch
  split
  · exact h
  · exact ⟨h.placed, h.len, h.room, h.count, h.migrating, h.total, h.sources, h.drained, h.strict⟩

theorem State.Sound.lengths {s₀ s : State K V} (h : s₀.Sound hash) (hp : s.tables.Placed hash)
    (hl : ∀ k, s.tables.lookup hash k = s₀.tables.lookup hash k)
    (hlen : s.totalLen = s₀.totalLen) :
    s.totalLen = s.tables.entries.length ∧ s.tables.entries.length < usizeMax := by
  have := length_entries_congr h.placed hp hl
  rw [this, hlen]
  exact ⟨h.len, h.room⟩

theorem Idle.sound {s₀ s : State K V} (h : Idle hash s₀ s) (h₀ : s₀.Sound hash)
    (hc : s.tables.shardCount < usizeMax) : s.Sound hash := by
  obtain ⟨hlen, hroom⟩ := h₀.lengths h.placed h.lookup h.len
  refine ⟨h.placed, hlen, hroom, hc, ?_, ?_, ?_, ?_, ?_⟩
  · rw [h.previous, h.migrating]
    rfl
  · intro p hp
    rw [h.previous] at hp
    cases hp
  · intro p hp
    rw [h.previous] at hp
    cases hp
  · intro p hp
    rw [h.previous] at hp
    cases hp
  · intro hm
    rw [h.migrating] at hm
    cases hm

theorem Draining.sound {s₀ s : State K V} {p : Shards K V} (h : Draining hash s₀ s p)
    (hlt : s.tracker.telemetry.completedShards < p.length) (h₀ : s₀.Sound hash)
    (hm : s₀.tracker.migrating = true) : s.Sound hash := by
  obtain ⟨hlen, hroom⟩ := h₀.lengths h.placed h.lookup h.len
  obtain ⟨p₀, hd, _⟩ := h₀.draining hm
  have hprev (q : Shards K V) (hq : s.tables.previous = some q) : q = p := by
    rw [h.previous] at hq
    exact (Option.some.inj hq).symm
  refine ⟨h.placed, hlen, hroom, h.count ▸ h₀.count, ?_, ?_, ?_, ?_, ?_⟩
  · rw [h.previous, h.migrating]
    rfl
  · intro q hq
    rw [hprev q hq]
    exact h.total
  · intro q hq
    rw [hprev q hq, ← h.total, h.totals, hd.total]
    exact h₀.sources p₀ hd.previous
  · intro q hq
    rw [hprev q hq]
    exact h.drained
  · intro _
    rw [h.total]
    exact hlt

theorem State.Sound.working {s : State K V} (h : s.Sound hash) (hm : s.tracker.migrating = true)
    (budget : Budget) (readings : Nat) :
    ∃ p, Working hash s budget (.start s readings) p ∧
      s.tracker.telemetry.totalShards = p.length := by
  obtain ⟨p, hd, hlt⟩ := h.draining hm
  exact ⟨p, ⟨hd, hlt, ⟨Nat.zero_add _, rfl, rfl, Nat.zero_le _, Nat.zero_le _⟩, rfl, rfl,
    fun _ => rfl, nofun⟩, hd.total⟩

theorem Ends.kept {s : State K V} {budget : Budget} {b : Batch K V} (h : Ends hash s budget b)
    (hled : Ledger s budget b) (h₀ : s.Sound hash) (hm : s.tracker.migrating = true) :
    Kept hash s b := by
  cases h with
  | drained hc _ hi hcount htot =>
    have hidle : b.state.tracker.migrating ≠ true := by
      rw [hi.migrating]
      exact Bool.false_ne_true
    exact ⟨hi.sound h₀ (hcount ▸ h₀.count), hi.lookup, hi.len, hi.epoch, hcount, hled.moved,
      hled.movedEntries, hled.completedShards, fun hmig => absurd hmig hidle,
      iff_of_true hc hi.migrating, iff_of_true hc htot, fun hmig => absurd hmig hidle⟩
  | stopped hc hd hlt _ =>
    refine ⟨hd.sound hlt h₀ hm, hd.lookup, hd.len, hd.epoch, hd.count, hled.moved,
      hled.movedEntries, hled.completedShards, fun _ => hd.totals, ?_, ?_, fun _ => hd.paused⟩
    · rw [hc, hd.migrating]
      simp
    · rw [hc, ← hled.completedShards, ← hd.totals, hd.total]
      exact iff_of_false Bool.false_ne_true (Nat.ne_of_lt hlt)

theorem Kept.finish {s : State K V} {b : Batch K V} (h : Kept hash s b) (env : Env K V)
    (budget : Budget) (started g : Nat) : Kept hash s (b.finish env budget started g) := by
  have hc := completed_counts (counts_recordBatch g (env.now b.readings - started) budget.pauseNs
    b.state.tracker)
  obtain ⟨hmig, _, _, _, _, hmoved, hcs, hts⟩ := hc
  exact ⟨h.sound.record _ _ _, h.lookup, h.len, h.epoch, h.count, h.left, hmoved.trans h.movedEntries,
    hcs.trans h.completedShards, fun hm => hts.trans (h.totalShards (hmig ▸ hm)),
    h.complete.trans (by
      unfold Batch.finish
      dsimp only
      rw [hmig]), h.finished,
    fun hm => (paused_recordBatch _ _ _ _).trans (h.paused (hmig ▸ hm))⟩

/-- A batch that passes its checks ends within its budgets. -/
theorem advanceRebalanceInner_ends {s : State K V} (h : s.Sound hash)
    (hm : s.tracker.migrating = true) (hu : s.tracker.telemetry.paused = false) (env : Env K V)
    (budget : Budget) (hs : 0 < budget.maxShards) (he : 0 < budget.maxEntries) {fuel : Nat}
    (hf : workLeft s < fuel) (readings : Nat) :
    ∃ b, advanceRebalanceInner env hash budget fuel (.start s readings) =
        .ok (b.finish env budget (env.now readings) s.tracker.telemetry.generation) ∧
      Ends hash s budget b ∧ Ledger s budget b ∧ Kept hash s b ∧ 0 < b.done := by
  obtain ⟨p, hw, htot⟩ := h.working hm budget (readings + 1)
  have hlt := hw.unfinished
  obtain ⟨b, hloop, hled, hends, hdone⟩ := Working.loop env (env.now readings) fuel hw (by
    unfold workLeft at hf
    change (leftover s.tables).length + p.length - s.tracker.telemetry.completedShards < fuel
    change s.tracker.telemetry.completedShards < p.length at hlt
    omega)
  refine ⟨b, ?_, hends, hled, hends.kept hled h hm, hdone hs he⟩
  have hpass : ¬ ((Batch.start s readings).state.tracker.telemetry.paused = true ∨
      budget.maxShards = 0) := by simp [Batch.start, hu, Nat.ne_of_gt hs]
  have hmig : ¬ (Batch.start s readings).state.tracker.migrating = false := by
    simp [Batch.start, hm]
  unfold advanceRebalanceInner
  rw [if_neg hpass, if_neg hmig]
  dsimp only [Batch.start] at hloop ⊢
  rw [hloop]

theorem Ledger.small {s : State K V} {budget : Budget} {b : Batch K V} (hled : Ledger s budget b)
    (h : s.Sound hash) (hm : s.tracker.migrating = true) (hk : Kept hash s b) :
    b.report.movedEntries < usizeMax ∧ b.report.completedShards < usizeMax := by
  obtain ⟨p, hd, hlt⟩ := h.draining hm
  have hle := length_leftover_le s.tables
  have hroom := h.room
  have hmoved := hled.moved
  have hsrc := h.sources p hd.previous
  have hcs := hled.completedShards
  refine ⟨by omega, ?_⟩
  have hbound : b.report.completedShards ≤ s.tracker.telemetry.totalShards := by
    cases hc : b.report.complete with
    | true =>
      have := hk.finished.mp hc
      omega
    | false =>
      have hmig : b.state.tracker.migrating = true := by
        rw [← Bool.not_eq_false, ← hk.complete, hc]
        exact Bool.false_ne_true
      have := hk.sound.strict hmig
      have := hk.totalShards hmig
      omega
  have htot := hd.total
  omega

/-- The three kinds of batches keep their budgets, count every moved entry once, find
every key they prepared, and change neither the contents nor the length nor the version. -/
theorem migration_batches_keep_budget {flavor : Flavor} {s : State K V}
    (hr : Reachable hash flavor s) (hm : s.tracker.migrating = true)
    (hu : s.tracker.telemetry.paused = false) (env : Env K V) {fuel : Nat}
    (hf : workLeft s < fuel) (readings : Nat) :
    (∀ k, ∃ b, advanceRebalance env hash k fuel (.start s readings) = .ok b ∧ Kept hash s b ∧
      b.report.completedShards = min k
        (s.tracker.telemetry.totalShards - s.tracker.telemetry.completedShards) ∧
      (b.state.tracker.migrating = false ↔ s.tracker.telemetry.completedShards +
        min k (s.tracker.telemetry.totalShards - s.tracker.telemetry.completedShards) =
          s.tracker.telemetry.totalShards)) ∧
    ∀ options : RebalanceOptions, ∃ b,
      advanceRebalanceWithOptions env hash options fuel (.start s readings) = .ok b ∧
      Kept hash s b ∧ b.report.movedEntries ≤ max options.batchSize 1 ∧
      (0 < b.report.movedEntries ∨ 0 < b.report.completedShards) ∧
      (options.maxPauseNs = 0 → b.report.complete = true ∨
        b.report.movedEntries = max options.batchSize 1 ∧ b.report.budgetExhausted = true) := by
  have h := hr.sound
  refine ⟨fun k => ?_, fun options => ?_⟩
  · obtain ⟨p, hd, hlt⟩ := h.draining hm
    have htot := hd.total
    rcases Nat.eq_zero_or_pos k with rfl | hk
    · refine ⟨.start s readings, ?_, ⟨h, fun _ => rfl, rfl, rfl, rfl, Nat.zero_add _, rfl, rfl,
        fun _ => rfl, ?_, ?_, fun _ => rfl⟩, (Nat.zero_min _).symm, ?_⟩
      · unfold advanceRebalance advanceRebalanceInner
        rw [if_pos (.inr rfl)]
        rfl
      · simp [Batch.start, RebalanceBatchReport.default, hm]
      · simp [Batch.start, RebalanceBatchReport.default]
        omega
      · simp [Batch.start, hm]
        omega
    · obtain ⟨b, hadv, hends, hled, hkept, _⟩ := advanceRebalanceInner_ends h hm hu env
        ⟨k, usizeMax, 0⟩ hk (by simp [usizeMax]) hf readings
      have hsmall := hled.small h hm hkept
      have hfin := hkept.finish env ⟨k, usizeMax, 0⟩ (env.now readings)
        s.tracker.telemetry.generation
      have hcount : b.report.completedShards = min k
          (s.tracker.telemetry.totalShards - s.tracker.telemetry.completedShards) := by
        have hcs := hled.completedShards
        have hshards := hled.shards
        cases hends with
        | drained _ _ _ _ heq =>
          dsimp only at hshards
          omega
        | stopped _ hd' hlt' hreason =>
          have htotals := hd'.totals
          have htot' := hd'.total
          have hguard : k ≤ b.report.completedShards := by
            rcases hreason with ⟨_, hfull⟩ | ⟨_, hguard⟩
            · exact absurd (hfull rfl) (Nat.ne_of_lt hsmall.1)
            · exact Nat.le_of_not_lt fun hc => hguard ⟨hc, hsmall.1⟩
          dsimp only at hshards
          omega
      refine ⟨_, hadv, hfin, hcount, ?_⟩
      rw [← hfin.complete, hfin.finished, ← hcount]
      rfl
  · obtain ⟨b, hadv, hends, hled, hkept, hdone⟩ := advanceRebalanceInner_ends h hm hu env
      ⟨usizeMax, max options.batchSize 1, options.maxPauseNs⟩ (by simp [usizeMax])
      (Nat.lt_of_lt_of_le Nat.one_pos (Nat.le_max_right _ _)) hf readings
    have hsmall := hled.small h hm hkept
    refine ⟨_, hadv, hkept.finish _ _ _ _, hled.entries, ?_, fun h0 => ?_⟩
    · unfold Batch.done at hdone
      change 0 < b.report.movedEntries ∨ 0 < b.report.completedShards
      omega
    · cases hends with
      | drained hc => exact .inl hc
      | stopped hc _ _ hreason =>
        have hfull : b.report.movedEntries = max options.batchSize 1 := by
          rcases hreason with ⟨_, hfull⟩ | ⟨_, hguard⟩
          · exact hfull h0
          · refine Nat.le_antisymm hled.entries (Nat.le_of_not_lt fun hm => hguard ⟨hsmall.2, hm⟩)
        refine .inr ⟨hfull, ?_⟩
        simp [Batch.finish, hc, hfull]

/-- A clock that stands still, and the keys in the order of the list. -/
def Env.still (K V : Type) : Env K V := ⟨fun _ => 0, fun _ m => m.keys, fun _ _ => .refl _⟩

/-- Two entries in one shard, about to be spread over two. -/
def spreading : State Nat Nat :=
  ⟨((((Map.new Nat Nat 1).state.tables.insert id 0 5).insert id 1 6).begin 2), 2, 2,
    Progress.default.beginWithCounts 1 2 2 0⟩

theorem spreading_reachable (flavor : Flavor) : Reachable id flavor spreading :=
  (((Reachable.new (by decide) (by decide)).insert 0 5 (by decide)).insert 1 6 (by decide)).start 2 0
    rfl rfl (by decide) (by decide)

theorem migration_batches_keep_budget_spreading : ∃ b,
    advanceRebalanceWithOptions (.still Nat Nat) id ⟨true, 0, 0⟩ 4 (.start spreading 0) = .ok b ∧
      b.report.movedEntries ≤ 1 :=
  have ⟨b, hb, _, hm, _⟩ := (migration_batches_keep_budget (spreading_reachable .sync) rfl rfl
    (.still Nat Nat) (by decide : workLeft spreading < 4) 0).2 ⟨true, 0, 0⟩
  ⟨b, hb, hm⟩

end Starshard.Migration
