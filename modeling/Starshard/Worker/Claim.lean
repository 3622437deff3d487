import Starshard.Worker.Machine

/-! Who owns the tracker's worker slot.

A claim is identified by the generation alone. The lease of a refused spawn
releases the slot, and the error path releases the same generation once more; by
then another call may have claimed it. -/
namespace Starshard.Worker

open Data Concurrent

variable {K V : Type}

/-- The generation claimed by a lease that was not dropped yet. -/
def Phase.lease : Phase → Option Nat
  | .claimed job | .waiting job _ | .ready job _ | .batching job _ | .returned job _ _
  | .reporting job _ | .reported job _ | .panicking job => some job.generation
  | .idle | .rejected | .refused _ | .failed _ | .ended _ _ => none

/-- The worker was spawned and has not ended. -/
def Phase.running : Phase → Bool
  | .waiting _ _ | .ready _ _ | .batching _ _ | .returned _ _ _ | .reporting _ _
  | .reported _ _ | .panicking _ => true
  | .idle | .rejected | .claimed _ | .refused _ | .failed _ | .ended _ _ => false

theorem Phase.lease_of_running {p : Phase} (h : p.running) : ∃ g, p.lease = some g := by
  cases p with
  | waiting job _ | ready job _ | batching job _ | returned job _ _ | reporting job _
  | reported job _ | panicking job => exact ⟨job.generation, rfl⟩
  | idle | rejected | claimed _ | refused _ | failed _ | ended _ _ => cases h

def State.leases (s : State K V) (w : Nat) : Option Nat := (s.calls w).lease

@[simp] theorem State.leases_goto (s : State K V) (w : Nat) (p : Phase) :
    (s.goto w p).leases = Function.update s.leases w p.lease := by
  funext u
  by_cases h : u = w
  · subst h
    simp [State.leases, State.goto]
  · simp [State.leases, State.goto, h]

theorem State.leases_keep {s : State K V} {w : Nat} {p : Phase}
    (h : p.lease = (s.calls w).lease) : (s.goto w p).leases = s.leases := by
  rw [State.leases_goto, h]
  exact Function.update_eq_self w s.leases

theorem State.leases_back (s : State K V) (owner : Option Nat) {phase : Job → Locals → Phase}
    (h : ∀ job l, (phase job l).lease = some job.generation) :
    (s.back owner phase).leases = s.leases := by
  cases owner with
  | none => rfl
  | some w =>
    unfold State.back
    dsimp only
    split
    · next job l hw => exact State.leases_keep (by rw [h, hw]; rfl)
    · rfl

theorem workerGeneration_pause (b : Bool) (p : Progress) :
    (p.pause b).workerGeneration = p.workerGeneration := by
  unfold Progress.pause
  split <;> rfl

theorem workerGeneration_recordBatch (g elapsed budget : Nat) (p : Progress) :
    (p.recordBatch g elapsed budget).workerGeneration = p.workerGeneration := by
  unfold Progress.recordBatch
  split <;> rfl

theorem workerGeneration_release (g : Nat) (p : Progress) :
    (p.releaseWorker g).workerGeneration =
      if p.workerGeneration = some g then none else p.workerGeneration := by
  unfold Progress.releaseWorker
  split
  · next h => rfl
  · rfl

theorem claim_some {alreadyComplete : Bool} {current target : Nat} {options : RebalanceOptions}
    {s s' : State K V} {job : Job}
    (h : s.claim alreadyComplete current target options = some (s', job)) :
    s.tracker.workerGeneration = none ∧
      s' = { s with tracker := { s.tracker with
        workerGeneration := some s.tracker.telemetry.generation } } ∧
      job.generation = s.tracker.telemetry.generation ∧ job.alreadyComplete = alreadyComplete ∧
      job.target = target := by
  obtain ⟨tracker, hc, h⟩ := Option.map_eq_some_iff.mp h
  obtain ⟨rfl, rfl⟩ := Prod.mk.inj h
  unfold Progress.claimWorker at hc
  split at hc
  · cases hc
  · next hn =>
    cases hc
    exact ⟨by simpa using hn, rfl, rfl, rfl, rfl⟩

/-- A reservation joins a migration, finds its layout in place, or starts a generation. -/
theorem reserve_some {target len now : Nat} {options : RebalanceOptions} {s s' : State K V}
    {job : Job} {fresh : Bool} (h : reserve target len now options s = some (s', job, fresh)) :
    (fresh = false ∧ (s.tracker.migrating ∨ s.tables.shardCount = target) ∧
        s.claim (!s.tracker.migrating) s.tables.shardCount target options = some (s', job)) ∨
      (fresh = true ∧ s.tracker.migrating = false ∧ s.tables.shardCount ≠ target ∧
        (s.begin target len now).claim false s.tables.shardCount target options =
          some (s', job)) := by
  unfold reserve at h
  split at h
  · cases h
  split at h
  · cases h
  next hm =>
  obtain ⟨⟨s₁, job₁⟩, hc, h⟩ := Option.map_eq_some_iff.mp h
  obtain ⟨hs, h⟩ := Prod.mk.inj h
  obtain ⟨hj, hf⟩ := Prod.mk.inj h
  subst hs hj hf
  cases hmig : s.tracker.migrating with
  | true => exact .inl (by simpa [hmig] using hc)
  | false =>
    by_cases ht : s.tables.shardCount = target
    · exact .inl (by simpa [hmig, ht] using hc)
    · exact .inr (by simpa [hmig, ht] using hc)

theorem reserve_slot {target len now : Nat} {options : RebalanceOptions} {s s' : State K V}
    {job : Job} {fresh : Bool} (h : reserve target len now options s = some (s', job, fresh)) :
    s.tracker.workerGeneration = none ∧ s'.tracker.workerGeneration = some job.generation ∧
      s'.calls = s.calls := by
  rcases reserve_some h with ⟨_, _, hc⟩ | ⟨_, _, _, hc⟩
  · obtain ⟨hn, rfl, hg, _, _⟩ := claim_some hc
    exact ⟨hn, by rw [hg], rfl⟩
  · obtain ⟨hn, rfl, hg, _, _⟩ := claim_some hc
    exact ⟨hn, by rw [hg], rfl⟩

theorem reserve_batch {target len now : Nat} {options : RebalanceOptions} {s s' : State K V}
    {job : Job} {fresh : Bool} (h : reserve target len now options s = some (s', job, fresh)) :
    s'.batch = s.batch := by
  rcases reserve_some h with ⟨_, _, hc⟩ | ⟨_, _, _, hc⟩
  · obtain ⟨_, rfl, _⟩ := claim_some hc
    rfl
  · obtain ⟨_, rfl, _⟩ := claim_some hc
    rfl

/-- What one step does to the worker slot and to the leases. -/
inductive Moves : Label K V → State K V → State K V → Prop where
  | claim {s s'} {w g : Nat} {fresh : Bool} : s.tracker.workerGeneration = none →
      s'.tracker.workerGeneration = some g →
      s'.leases = Function.update s.leases w (some g) → Moves (.claim w fresh) s s'
  /-- A lease is dropped. -/
  | drop {l s s'} {w g : Nat} : s.leases w = some g →
      s'.tracker.workerGeneration =
        (if s.tracker.workerGeneration = some g then none else s.tracker.workerGeneration) →
      s'.leases = Function.update s.leases w none → Moves l s s'
  /-- The error path releases the generation without a lease. -/
  | release {s s' w job} : s.calls w = .refused job →
      s'.tracker.workerGeneration = (if s.tracker.workerGeneration = some job.generation then none
        else s.tracker.workerGeneration) →
      s'.leases = s.leases → Moves (.release w) s s'
  | keep {l s s'} : s'.tracker.workerGeneration = s.tracker.workerGeneration →
      s'.leases = s.leases → Moves l s s'

variable [DecidableEq K] {hash : K → Nat}

theorem Step.moves {l : Label K V} {s s' : State K V} (h : Step hash l s s') : Moves l s s' := by
  cases h with
  | claim w target options n len now hw hb ht hr =>
    obtain ⟨hnone, hsome, hcalls⟩ := reserve_slot hr
    refine .claim hnone hsome ?_
    rw [State.leases_goto]
    unfold State.leases
    rw [hcalls]
    rfl
  | reject options n len now hw hb ht hr => exact .keep rfl (State.leases_keep (by rw [hw]; rfl))
  | spawned hw | absorb hw | crash hw | report _ hw _ =>
    exact .keep rfl (State.leases_keep (by rw [hw]; first | rfl | (split <;> rfl)))
  | proceed hw _ _ _ _ | stop hw _ =>
    exact .keep rfl (State.leases_keep (by rw [hw]; rfl))
  | refuse hw | ended hw | dropped hw =>
    exact .drop (by rw [State.leases, hw]; rfl) (workerGeneration_release _ _)
      (State.leases_goto s _ _)
  | release hw =>
    exact .release hw (workerGeneration_release _ _) (State.leases_keep (by rw [hw]; rfl))
  | enterWorker job hw hb =>
    split
    · exact .keep rfl (State.leases_keep (by rw [hw]; rfl))
    · split
      · exact .keep rfl (State.leases_keep (by rw [hw]; rfl))
      · exact .keep rfl (State.leases_keep (by rw [hw]; rfl))
  | enterManual _ _ _ hb => split <;> exact .keep rfl rfl
  | leave elapsed hb hd =>
    refine .keep ?_ (State.leases_back _ _ fun _ _ => rfl)
    rw [State.back_tracker]
    exact workerGeneration_recordBatch _ _ _ _
  | unwind elapsed hb hd =>
    refine .keep ?_ (State.leases_back _ _ fun _ _ => rfl)
    rw [State.back_tracker]
    exact workerGeneration_recordBatch _ _ _ _
  | pause | resume => exact .keep (workerGeneration_pause _ _) rfl
  | exit | select | move | skip | retire | keep | drained | judge | start | started | staged
  | inPlace | cancel | clear | wipe | insert | remove => exact .keep rfl rfl

/-- Every lease that is held owns the slot, and only one is held. -/
structure Owned (s : State K V) : Prop where
  slot : ∀ w g, s.leases w = some g → s.tracker.workerGeneration = some g
  unique : ∀ u w, (s.leases u).isSome → (s.leases w).isSome → u = w

/-- The error path of a refused spawn runs while no claim of its generation is in the slot. -/
def Uncontended (l : Label K V) (s : State K V) : Prop :=
  ∀ w job, l = .release w → s.calls w = .refused job →
    s.tracker.workerGeneration ≠ some job.generation

omit [DecidableEq K] in
theorem Owned.new (count : Nat) : Owned (State.new K V count) :=
  ⟨fun _ _ h => (by cases h), fun _ _ h => (by cases h)⟩

theorem Owned.step {l : Label K V} {s s' : State K V} (h : Owned s) (hs : Step hash l s s')
    (hu : Uncontended l s) : Owned s' := by
  cases hs.moves with
  | claim hnone hsome hl =>
    have hfree (u : Nat) : s.leases u = none := by
      cases hc : s.leases u with
      | none => rfl
      | some g =>
        have := h.slot u g hc
        rw [hnone] at this
        cases this
    rename_i w g fresh
    refine ⟨fun u g' hg => ?_, fun u v hu hv => ?_⟩
    · rw [hl] at hg
      by_cases hw : u = w
      · subst hw
        rw [Function.update_self] at hg
        rw [hsome, hg]
      · rw [Function.update_of_ne hw, hfree] at hg
        cases hg
    · rw [hl] at hu hv
      have hw (x : Nat) (hx : (Function.update s.leases w (some g) x).isSome) : x = w := by
        by_contra hne
        rw [Function.update_of_ne hne, hfree] at hx
        cases hx
      rw [hw u hu, hw v hv]
  | drop hw hslot hl =>
    rename_i w g
    have hkeep (u : Nat) (hu : (s'.leases u).isSome) : u = w → False := by
      rintro rfl
      rw [hl, Function.update_self] at hu
      cases hu
    have hold (u : Nat) (hu : (s'.leases u).isSome) : (s.leases u).isSome := by
      have hne := hkeep u hu
      rwa [hl, Function.update_of_ne hne] at hu
    have hnone (u : Nat) (hu : (s'.leases u).isSome) : False :=
      hkeep u hu (h.unique u w (hold u hu) (by rw [hw]; rfl))
    exact ⟨fun u g' hg => (hnone u (by rw [hg]; rfl)).elim, fun u v hu _ => (hnone u hu).elim⟩
  | release hc hslot hl =>
    rw [if_neg (hu _ _ rfl hc)] at hslot
    exact ⟨fun u g hg => by rw [hslot]; exact h.slot u g (by rwa [hl] at hg),
      fun u v hu hv => h.unique u v (by rwa [hl] at hu) (by rwa [hl] at hv)⟩
  | keep hslot hl =>
    exact ⟨fun u g hg => by rw [hslot]; exact h.slot u g (by rwa [hl] at hg),
      fun u v hu hv => h.unique u v (by rwa [hl] at hu) (by rwa [hl] at hv)⟩

theorem Owned.run {ls : List (Label K V)} {s s' : State K V} (h : Owned s)
    (hr : Replay (fun l s s' => Step hash l s s' ∧ Uncontended l s) s ls s') : Owned s' := by
  induction hr with
  | nil => exact h
  | cons hs _ ih => exact ih (h.step hs.1 hs.2)

/-- While no error path meets the claim of another call, a claim stays in the slot
until its own lease is dropped, and at most one spawned worker is unfinished. -/
theorem spawn_rebalance_owns_map {count : Nat} {ls : List (Label K V)} {s : State K V}
    (h : Replay (fun l s s' => Step hash l s s' ∧ Uncontended l s) (State.new K V count) ls s) :
    (∀ w g, (s.calls w).lease = some g → s.tracker.workerGeneration = some g) ∧
      (∀ u w, (s.calls u).running → (s.calls w).running → u = w) := by
  have ho := (Owned.new count).run h
  refine ⟨ho.slot, fun u w hu hw => ho.unique u w ?_ ?_⟩
  · obtain ⟨g, hg⟩ := Phase.lease_of_running hu
    rw [State.leases, hg]
    rfl
  · obtain ⟨g, hg⟩ := Phase.lease_of_running hw
    rw [State.leases, hg]
    rfl

theorem spawn_rebalance_owns_map_once :
    ∃ s : State Nat Nat, (s.calls 0).running = false ∧ (s.calls 1).running ∧
      s.tracker.workerGeneration = some 1 ∧
      (∀ u w, (s.calls u).running → (s.calls w).running → u = w) := by
  have hr : ∃ s : State Nat Nat, Replay (fun l s s' => Step (fun k => k) l s s' ∧ Uncontended l s)
      (State.new Nat Nat 1)
      [.claim 0 true, .refuse 0, .release 0, .claim 1 false, .spawned 1] s ∧
        (s.calls 0).running = false ∧ (s.calls 1).running ∧ (s.calls 1).lease = some 1 :=
    ⟨_, .cons ⟨.claim _ _ ⟨false, 1, 0⟩ 2 0 0 rfl rfl rfl rfl, fun _ _ h => by cases h⟩
      (.cons ⟨.refuse rfl, fun _ _ h => by cases h⟩
      (.cons ⟨.release rfl, fun _ _ _ _ hslot => by cases hslot⟩
      (.cons ⟨.claim _ _ ⟨false, 1, 0⟩ 2 0 0 rfl rfl rfl rfl, fun _ _ h => by cases h⟩
      (.cons ⟨.spawned rfl, fun _ _ h => by cases h⟩ .nil)))), rfl, rfl, rfl⟩
  obtain ⟨s, hs, h₀, hw, hl⟩ := hr
  exact ⟨s, h₀, hw, (spawn_rebalance_owns_map hs).1 1 1 hl, (spawn_rebalance_owns_map hs).2⟩

/-- Three calls: the first is refused, the second claims the freed generation, the
error path of the first releases it, the third claims it again. -/
theorem spawn_rebalance_two_workers :
    ¬ ∀ (ls : List (Label Nat Nat)) (s : State Nat Nat),
      Replay (Step fun k => k) (State.new Nat Nat 1) ls s →
        (∀ w g, (s.calls w).lease = some g → s.tracker.workerGeneration = some g) ∧
          (∀ u w, (s.calls u).running → (s.calls w).running → u = w) := by
  intro h
  have hr : ∃ s : State Nat Nat, Replay (Step fun k => k) (State.new Nat Nat 1)
      [.claim 0 true, .refuse 0, .claim 1 false, .spawned 1, .release 0, .claim 2 false,
        .spawned 2] s ∧ (s.calls 1).running ∧ (s.calls 2).running :=
    ⟨_, .cons (.claim _ _ ⟨false, 1, 0⟩ 2 0 0 rfl rfl rfl rfl)
      (.cons (.refuse rfl)
      (.cons (.claim _ _ ⟨false, 1, 0⟩ 2 0 0 rfl rfl rfl rfl)
      (.cons (.spawned rfl) (.cons (.release rfl)
      (.cons (.claim _ _ ⟨false, 1, 0⟩ 2 0 0 rfl rfl rfl rfl)
      (.cons (.spawned rfl) .nil)))))), rfl, rfl⟩
  obtain ⟨s, hs, h₁, h₂⟩ := hr
  exact absurd ((h _ s hs).2 1 2 h₁ h₂) (by decide)

end Starshard.Worker
