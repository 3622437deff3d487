import Starshard.Migration.Machine

/-! What one step does to the directories and to the progress counters. -/
namespace Starshard.Migration

open Data Worker
open Concurrent (Replay)

/-- The fields of the tracker only the owner of exclusive routing changes. -/
structure Counts where
  migrating : Bool
  generation : Nat
  fromShards : Nat
  toShards : Nat
  initialEntries : Nat
  movedEntries : Nat
  completedShards : Nat
  totalShards : Nat

def counts (p : Progress) : Counts where
  migrating := p.migrating
  generation := p.telemetry.generation
  fromShards := p.telemetry.fromShards
  toShards := p.telemetry.toShards
  initialEntries := p.telemetry.initialEntries
  movedEntries := p.telemetry.movedEntries
  completedShards := p.telemetry.completedShards
  totalShards := p.telemetry.totalShards

@[simp] theorem counts_pause (b : Bool) (p : Progress) : counts (p.pause b) = counts p := by
  unfold Progress.pause
  split <;> rfl

@[simp] theorem counts_recordBatch (g elapsed budget : Nat) (p : Progress) :
    counts (p.recordBatch g elapsed budget) = counts p := by
  unfold Progress.recordBatch
  split <;> rfl

@[simp] theorem counts_releaseWorker (g : Nat) (p : Progress) :
    counts (p.releaseWorker g) = counts p := by
  unfold Progress.releaseWorker
  split <;> rfl

variable {K V : Type}

/-- The batch has looked at its source and not yet at the end of the migration. -/
def Swept (s : Worker.State K V) : Prop := ∃ b empty, s.batch = some b ∧ b.stage = .swept empty

theorem not_swept_of_none {s : Worker.State K V} (h : s.batch = none) : ¬ Swept s := by
  rintro ⟨b, _, hb, _⟩
  rw [h] at hb
  cases hb

theorem not_swept_of_stage {s : Worker.State K V} {b : Worker.Batch K} (hb : s.batch = some b)
    (h : ∀ empty, b.stage ≠ .swept empty) : ¬ Swept s := by
  rintro ⟨b', empty, hb', hs⟩
  rw [hb] at hb'
  cases hb'
  exact h empty hs

variable [DecidableEq K] (hash : K → Nat)

inductive Effect : Label K V → Worker.State K V → Worker.State K V → Prop where
  | keep {l : Label K V} {s s' : Worker.State K V} : l.begins = false → l.writes = false →
      s'.tables = s.tables →
      counts s'.tracker = counts s.tracker →
      (Swept s → Swept s' ∨ (s.tracker.migrating = true →
        s.tracker.telemetry.completedShards ≠ s.tracker.telemetry.totalShards)) →
      Effect l s s'
  | begin {l : Label K V} {s s' : Worker.State K V} {target : Nat} (n len now : Nat) :
      l.begins = true → (∀ b, l ≠ .staged b) → s.batch = none → s'.batch = none →
      strictShardCount n MAX_SHARDS = .ok target → s.tracker.migrating = false →
      s'.tables = s.tables.begin target →
      counts s'.tracker = counts (s.tracker.beginWithCounts s.tables.shardCount target len now) →
      Effect l s s'
  | move {owner : Option Nat} {s s' : Worker.State K V} {index : Nat} {p : Shards K V} {k : K}
      {v : V} : ¬ Swept s → ¬ Swept s' → s.tables.previous = some p →
      (slot p index).lookup k = some v → s'.tables = s.tables.move hash index k →
      s'.tracker = s.tracker.moved → Effect (.move owner k) s s'
  | retire {owner : Option Nat} {s s' : Worker.State K V} {index : Nat} : ¬ Swept s → Swept s' →
      (∃ b, s.batch = some b ∧ b.stage = .moved index) →
      (∀ m, s.tables.source index = some m → m.size = 0) →
      s'.tables = s.tables.retire index → s'.tracker = s.tracker.step →
      Effect (.sweep owner true) s s'
  | drained {owner : Option Nat} {s s' : Worker.State K V} (now : Nat) : Swept s →
      s.tracker.migrating = true →
      s.tracker.telemetry.completedShards = s.tracker.telemetry.totalShards →
      s'.tables = s.tables.finish → s'.tracker = s.tracker.finish now →
      Effect (.drained owner s.tracker.telemetry.generation) s s'
  | staged {s s' : Worker.State K V} {target : Nat} (n elapsed : Nat) : s.batch = none →
      s'.batch = none → strictShardCount n MAX_SHARDS = .ok target →
      s'.tables = s.tables.stage hash target →
      s'.tracker = s.tracker.finishStaged s.tables.shardCount target s.tables.entries.length
        elapsed → Effect (.staged true) s s'
  | clear {s s' : Worker.State K V} (now : Nat) : s.batch = none → s'.batch = none →
      s'.tables = s.tables.clear → s'.tracker = s.tracker.finish now →
      Effect (.clear (if s.tracker.migrating then some s.tracker.telemetry.generation else none))
        s s'
  | wipe {s s' : Worker.State K V} (n : Nat) : s.batch = none → s'.batch = none →
      s'.tables = s.tables.wipe n → s'.tracker = s.tracker → Effect .wipe s s'
  | insert {s s' : Worker.State K V} (k : K) (v : V) : s.batch = none → s'.batch = none →
      s'.tables = s.tables.insert hash k v → s'.tracker = s.tracker →
      Effect (.insert k v) s s'
  | remove {s s' : Worker.State K V} (k : K) : s.batch = none → s'.batch = none →
      s'.tables = s.tables.remove hash k → s'.tracker = s.tracker → Effect (.remove k) s s'

variable {hash}

theorem Effect.same {l : Label K V} {s s' : Worker.State K V} (hl : l.begins = false)
    (hw : l.writes = false) (ht : s'.tables = s.tables)
    (hc : counts s'.tracker = counts s.tracker) (hb : s'.batch = s.batch) :
    Effect hash l s s' := by
  refine .keep hl hw ht hc fun h => .inl ?_
  unfold Swept at h ⊢
  rwa [hb]

theorem Effect.fresh {l : Label K V} {s s' : Worker.State K V} (hl : l.begins = false)
    (hw : l.writes = false) (ht : s'.tables = s.tables)
    (hc : counts s'.tracker = counts s.tracker) (hs : ¬ Swept s) :
    Effect hash l s s' := .keep hl hw ht hc fun h => absurd h hs

/-- Every step of the worker machine has one of these effects. -/
theorem effect {l : Label K V} {s s' : Worker.State K V} (h : Laid hash s)
    (hs : Worker.Step hash l s s') : Effect hash l s s' := by
  cases hs with
  | claim w target options n len now hw hb ht hr =>
    rcases reserve_some hr with ⟨rfl, _, hc⟩ | ⟨rfl, hm, _, hc⟩
    · obtain ⟨_, rfl, _⟩ := claim_some hc
      exact .same rfl rfl rfl rfl rfl
    · obtain ⟨_, rfl, _⟩ := claim_some hc
      exact .begin n len now rfl (by simp) hb hb ht hm rfl rfl
  | reject | spawned | proceed | stop | absorb | crash | report | cancel | started | inPlace =>
    exact .same rfl rfl rfl rfl rfl
  | refuse | release | ended | dropped => exact .same rfl rfl rfl (counts_releaseWorker _ _) rfl
  | resume => exact .same rfl rfl rfl (counts_pause _ _) rfl
  | pause hb => exact .same rfl rfl rfl (counts_pause _ _) rfl
  | enterWorker job hw hb =>
    split
    · exact .same rfl rfl rfl rfl rfl
    · split
      · exact .same rfl rfl rfl rfl rfl
      · exact .fresh rfl rfl rfl rfl (not_swept_of_none hb)
  | enterManual maxShards maxEntries pauseNs hb =>
    split
    · exact .same rfl rfl rfl rfl rfl
    · exact .fresh rfl rfl rfl rfl (not_swept_of_none hb)
  | exit hb hst _ => exact .fresh rfl rfl rfl rfl (not_swept_of_stage hb (by simp [hst]))
  | select workKeys hb hst _ _ _ _ =>
    exact .fresh rfl rfl rfl rfl (not_swept_of_stage hb (by simp [hst]))
  | move hb hl hsrc hk hv =>
    obtain ⟨p, hp, rfl⟩ := source_some hsrc
    exact .move (not_swept_of_stage hb (by simp [hl])) (not_swept_of_stage rfl (by simp)) hp hv
      rfl rfl
  | skip hb hl _ => exact .fresh rfl rfl rfl rfl (not_swept_of_stage hb (by simp [hl]))
  | retire hb hm hsrc =>
    exact .retire (not_swept_of_stage hb (by simp [hm])) ⟨_, true, rfl, rfl⟩ ⟨_, hb, hm⟩ hsrc
      rfl rfl
  | keep hb hm hsrc hne => exact .fresh rfl rfl rfl rfl (not_swept_of_stage hb (by simp [hm]))
  | drained now hb hst heq =>
    have hfit := h.stage _ hb
    rw [hst] at hfit
    have hm : s.tracker.migrating = true := hfit
    simp only [Progress.snapshot, hm, if_true] at heq
    exact .drained now ⟨_, _, hb, hst⟩ hm heq rfl rfl
  | judge elapsed hb hst hne he =>
    refine .keep rfl rfl rfl rfl fun _ => .inr fun hm => ?_
    simpa only [Progress.snapshot, hm, if_true] using hne
  | leave elapsed hb hd =>
    refine .fresh rfl rfl (by simp) (by simp) (not_swept_of_stage hb (by simp [hd]))
  | unwind elapsed hb hd =>
    refine .fresh rfl rfl (by simp) (by simp) (not_swept_of_stage hb ?_)
    rcases hd with hd | ⟨index, hd⟩ <;> simp [hd]
  | start n len now hb ht hm hne => exact .begin n len now rfl (by simp) hb hb ht hm rfl rfl
  | staged n elapsed hb ht hne => exact .staged n elapsed hb hb ht rfl rfl
  | clear now hb => exact .clear now hb hb rfl rfl
  | wipe n hb => exact .wipe n hb hb rfl rfl
  | insert k v hb => exact .insert k v hb hb rfl rfl
  | remove k hb => exact .remove k hb hb rfl rfl

end Starshard.Migration
