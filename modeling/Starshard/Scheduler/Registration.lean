import Starshard.Scheduler.Lease

/-! What every interleaving of starts, stops and workers keeps true. -/
namespace Starshard.Scheduler

open Concurrent

/-- The start call has a valid interval and, for a task, a runtime with a timer. -/
def Attempt.valid : Attempt → Bool
  | .sync interval representable => decide (interval ≠ 0) && representable
  | .async interval representable runtime timer =>
    decide (interval ≠ 0) && representable && runtime && timer

theorem State.start_of_valid {a : Attempt} (h : a.valid = true) (s : State) :
    ∃ r, s.start a = s.claim r := by
  cases a with
  | sync interval representable =>
    simp only [Attempt.valid, Bool.and_eq_true, decide_eq_true_eq] at h
    exact ⟨_, by simp [State.start, validateInterval, h.1, h.2]; rfl⟩
  | async interval representable runtime timer =>
    simp only [Attempt.valid, Bool.and_eq_true, decide_eq_true_eq] at h
    obtain ⟨⟨⟨hi, hr⟩, hrun⟩, ht⟩ := h
    exact ⟨_, by simp [State.start, validateInterval, hi, hr, hrun, ht]; rfl⟩

/-- A request that reaches an open lease first is its stop reason. -/
theorem Step.requested {ls : List Label} {l : Label} {s s' : State} (h : Inv ls s)
    (hs : Step l s s') {c : Nat} {r : EvictionWorkerStop} (hl : l.requests = some (c, r))
    (hu : Unasked c ls) (hrun : (s.controls c).running = true) :
    (s'.controls c).stopReason = some r := by
  have hnone := h.asked c hrun hu
  have hset : ((s.progress c (.cancel r)).controls c).stopReason = some r := by
    simp [EvictionWorkerStatus.cancel, hrun, hnone]
  cases hs with
  | cancel _ | dropHandle _ | deliver _ =>
    obtain ⟨rfl, rfl⟩ := Prod.mk.inj (Option.some.inj hl)
    exact hset
  | _ => cases hl

theorem Inv.publish_active {ls : List Label} {s : State} (h : Inv ls s) {c : Nat}
    {status : EvictionWorkerStatus} {completing : Bool}
    (hp : s.phases c = .publishing status completing) :
    (s.publish c status completing).active = none := by
  obtain ⟨_, _, _, hgen⟩ := h.publishing hp
  unfold State.publish
  dsimp only
  rw [if_pos (by split <;> exact hgen)]

/-- The registration changes hands at a claim and at the end of its own `finish`. -/
theorem Step.registration {ls : List Label} {l : Label} {s s' : State} (h : Inv ls s)
    (hs : Step l s s') :
    (s'.active = s.active ∧ s'.last = s.last ∧ s'.generation = s.generation) ∨
      (∃ c, l = .claim c ∧ s.active = none ∧ s'.active = some c ∧ s'.last = s.last ∧
        s'.generation = (s.generation + 1) % 2 ^ 64 ∧
        (s'.controls c).generation = s'.generation) ∨
      ∃ c, l = .publish c ∧ s.active = some c ∧ s'.active = none ∧ s'.last = s.controls c ∧
        s'.generation = s.generation := by
  cases hs with
  | fail a he =>
    rw [State.start_error he]
    exact .inl ⟨rfl, rfl, rfl⟩
  | claim a hc =>
    obtain ⟨r, he, rfl, hu⟩ := State.start_ok hc
    rw [he, State.claim, if_neg (by rw [hu]; simp)]
    exact .inr (.inl ⟨_, rfl, h.upgrade_eq ▸ hu, rfl, rfl, rfl, by
      simp [EvictionWorkerStatus.new]⟩)
  | complete | drop | again =>
    unfold State.finish
    split <;> exact .inl ⟨rfl, rfl, rfl⟩
  | publish hp =>
    obtain ⟨hact, _, hst, hgen⟩ := h.publishing hp
    refine .inr (.inr ⟨_, rfl, hact, ?_⟩)
    unfold State.publish
    dsimp only
    rw [if_pos (by split <;> exact hgen)]
    exact ⟨rfl, hst, by split <;> rfl⟩
  | spawned | refuse | tick | returned | record | exit | overflow | abandon | panic | dropped
  | cancel | dropHandle | ownersDropped | deliver => exact .inl ⟨rfl, rfl, rfl⟩

theorem scheduler_registration {ls : List Label} {s : State} (h : Replay Step .new ls s) :
    -- at most one lease is active
    (∀ c d, (s.leases c).active = true → (s.leases d).active = true → c = d) ∧
    -- a failed start changes nothing
    (∀ a e, (s.start a).2 = .error e → (s.start a).1 = s) ∧
    -- claims are numbered one after the other, by a wrapping `u64`
    (∀ c < s.claims, (s.controls c).generation = (c + 1) % 2 ^ 64) ∧
    (∀ c s', Step (.claim c) s s' → c = s.claims ∧ s'.claims = s.claims + 1) ∧
    -- a lease is finished once, for its own generation, and a new start succeeds then
    (∀ c < s.claims, ls.countP (Label.finishes c) = if (s.leases c).active then 0 else 1) ∧
    (∀ l s', Step l s s' → (∀ c, l ≠ .publish c) →
      s'.last = s.last ∧ (s.active = none ∨ s'.active = s.active)) ∧
    (∀ c s', Step (.publish c) s s' →
      s.active = some c ∧ s'.active = none ∧ s'.last = s.controls c ∧
        s.generation = (s.controls c).generation) ∧
    (∀ a, a.valid = true → (∀ c, (s.phases c).held = false) → (s.start a).2 = .ok s.claims) ∧
    -- a stop reason stays, but for a panic, and the first request is the one reported
    (∀ c < s.claims, ∀ r l s', Step l s s' → (s.controls c).stopReason = some r →
      (s'.controls c).stopReason = some r ∨ (s'.controls c).stopReason = some .panicked) ∧
    (∀ c r l s₁ post s₂, Unasked c ls → (s.controls c).running = true →
      l.requests = some (c, r) → Step l s s₁ → Replay Step s₁ post s₂ → .finish c true ∉ post →
      (s₂.controls c).stopReason = some r) ∧
    -- the ticks that returned are counted, by saturating counters
    (∀ c, (s.phases c).unrecorded = [] →
      (s.controls c).ticks = min (returns c ls).length (2 ^ 64 - 1) ∧
        (s.controls c).evicted = min (returns c ls).sum (2 ^ 64 - 1)) := by
  have hi := Inv.run h
  have hclaim (c : Nat) (s' : State) (hs : Step (.claim c) s s') :
      c = s.claims ∧ s'.claims = s.claims + 1 := by
    cases hs with
    | claim a hc =>
      obtain ⟨r, he, rfl, hu⟩ := State.start_ok hc
      rw [he, State.claim, if_neg (by rw [hu]; simp)]
      exact ⟨rfl, rfl⟩
  refine ⟨fun c d hc hd => ?_, fun a e he => State.start_error he, hi.number, hclaim,
    fun c hc => ?_, fun l s' hs hne => ?_, fun c s' hs => ?_, fun a ha hheld => ?_,
    fun c hc r l s' hs hr => ?_, fun c r l s₁ post s₂ hu hrun hl hs hpost hp => ?_,
    fun c hc => ?_⟩
  · rw [hi.lease] at hc hd
    have h₁ := hi.owned c (Phase.held_of_isOpen hc)
    have h₂ := hi.owned d (Phase.held_of_isOpen hd)
    omega
  · rw [hi.finished c, hi.lease c]
    cases (s.phases c).isOpen <;> simp [hc]
  · rcases hs.registration hi with ⟨ha, hl, _⟩ | ⟨c, _, hn, _, hl, _⟩ | ⟨c, hp, _⟩
    · exact ⟨hl, .inr ha⟩
    · exact ⟨hl, .inl hn⟩
    · exact absurd hp (hne c)
  · generalize hl : Label.publish c = l at hs
    cases hs with
    | publish hp =>
      cases hl
      obtain ⟨hact, _, hst, hgen⟩ := hi.publishing hp
      rcases (Step.publish hp).registration hi with ⟨ha, _⟩ | ⟨d, hd, _⟩ | ⟨d, hd, hact', hn, hlast, _⟩
      · rw [hi.publish_active hp, hact] at ha
        cases ha
      · cases hd
      · cases hd
        exact ⟨hact', hn, hlast, hgen.trans (by rw [hst])⟩
    | _ => cases hl
  · obtain ⟨r, he⟩ := State.start_of_valid ha s
    have hnone : s.active = none := by
      cases hact : s.active with
      | none => rfl
      | some c =>
        have := hi.active c hact
        rw [hheld c] at this
        cases this
    rw [he, State.claim, if_neg (by rw [hi.upgrade_eq, hnone]; simp)]
  · rcases hs.stopReason hc hr with hr | ⟨_, hr⟩
    · exact .inl hr
    · exact .inr hr
  · have hlt : c < s.claims := by
      rw [hi.running] at hrun
      exact hi.isOpen_lt hrun
    exact stopReason_run (Nat.lt_of_lt_of_le hlt hs.claims_le) (hs.requested hi hl hu hrun) hpost hp
  · have hret := hi.returned c
    rw [hc, List.append_nil] at hret
    rw [hret]
    exact ⟨hi.ticks c, hi.evicted c⟩

/-- One tick of a synchronous worker, a cancellation, and the end of the worker. -/
theorem scheduler_registration_once :
    ∃ s : State, (s.controls 0).stopReason = some .cancelled ∧ (s.controls 0).ticks = 1 ∧
      (s.controls 0).evicted = 3 ∧ (s.start (.sync 1 true)).2 = .ok 1 := by
  have hr : ∃ s, Replay Step .new [.claim 0, .spawned 0, .tick 0, .returned 0 3, .record 0 3,
      .cancel 0, .exit 0, .finish 0 false, .publish 0, .again 0] s ∧
        (s.controls 0).stopReason = some .cancelled ∧ (s.phases 0).unrecorded = [] ∧
        s.claims = 1 ∧ ∀ c, (s.phases c).held = false := by
    refine ⟨_, .cons (.claim (.sync 1 true) rfl) (.cons (.spawned rfl) (.cons (.tick rfl rfl)
      (.cons (.returned 0 3 rfl) (.cons (.record rfl) (.cons (.cancel rfl)
      (.cons (.exit rfl (by decide)) (.cons (.complete rfl) (.cons (.publish rfl)
      (.cons (.again rfl) .nil))))))))), rfl, rfl, rfl, fun c => ?_⟩
    cases c <;> rfl
  obtain ⟨s, hrun, hstop, hrec, hclaims, hheld⟩ := hr
  obtain ⟨_, _, _, _, _, _, _, hstart, _, _, hcount⟩ := scheduler_registration hrun
  have hticks := hcount 0 hrec
  have hok := hstart (.sync 1 true) rfl hheld
  rw [hclaims] at hok
  exact ⟨s, hstop, hticks.1, hticks.2, hok⟩

theorem ticks_run (evicted : Nat) : ∀ n, ∃ ls s, Replay Step .new ls s ∧ s.phases 0 = .waiting ∧
    (s.controls 0).stopReason = none ∧ returns 0 ls = List.replicate n evicted
  | 0 => ⟨[.claim 0, .spawned 0], _, .cons (.claim (.sync 1 true) rfl) (.cons (.spawned rfl) .nil),
      rfl, rfl, rfl⟩
  | n + 1 => by
    obtain ⟨ls, s, hr, hp, hn, hret⟩ := ticks_run evicted n
    have htick : Replay Step s [.tick 0, .returned 0 evicted, .record 0 evicted] _ :=
      .cons (.tick hp hn) (.cons (.returned 0 evicted rfl) (.cons (.record rfl) .nil))
    refine ⟨_, _, hr.append htick, rfl, hn, ?_⟩
    rw [returns, List.flatMap_append, ← returns, hret, List.replicate_succ']
    rfl

theorem claims_run : ∀ n, ∃ ls s, Replay Step .new ls s ∧ s.claims = n ∧ s.active = none
  | 0 => ⟨[], _, .nil, rfl, rfl⟩
  | n + 1 => by
    obtain ⟨ls, s, hr, hc, hn⟩ := claims_run n
    have hi := Inv.run hr
    have hu : s.upgrade = none := by rw [hi.upgrade_eq, hn]
    have hs : (s.start (.sync 1 true)).2 = .ok s.claims ∧
        ((s.start (.sync 1 true)).1.phases s.claims) = .claimed ∧
        (s.start (.sync 1 true)).1.claims = s.claims + 1 := by
      change (s.claim .spawnFailed).2 = _ ∧ (s.claim .spawnFailed).1.phases _ = _ ∧
        (s.claim .spawnFailed).1.claims = _
      rw [State.claim, if_neg (by rw [hu]; simp)]
      exact ⟨rfl, Function.update_self .., rfl⟩
    have hclaim := Step.claim (.sync 1 true) hs.1
    have hi₁ := hi.step hclaim
    set s₁ := (s.start (.sync 1 true)).1
    have hrefuse := Step.refuse false hs.2.1
    have hi₂ := hi₁.step hrefuse
    have hp₂ : (s₁.goto s.claims (.dropping false)).phases s.claims = .dropping false :=
      Function.update_self ..
    have hdrop := Step.drop hp₂
    have hi₃ := hi₂.step hdrop
    have hact : ((s₁.goto s.claims (.dropping false)).leases s.claims).active = true :=
      (hi₂.lease _).trans (by rw [hp₂]; rfl)
    have hp₃ : ∃ status, ((s₁.goto s.claims (.dropping false)).finish s.claims false false).phases
        s.claims = .publishing status false := by
      unfold State.finish
      rw [if_pos hact]
      exact ⟨_, Function.update_self ..⟩
    obtain ⟨status, hp₃⟩ := hp₃
    have hpub := Step.publish hp₃
    refine ⟨_, _, hr.append (.cons hclaim (.cons hrefuse (.cons hdrop (.cons hpub .nil)))), ?_,
      hi₃.publish_active hp₃⟩
    rw [State.publish_claims, State.finish, if_pos hact, ← hc]
    exact hs.2.2

/-- The counters saturate and the generation wraps. -/
theorem counters_saturate :
    (∃ ls s, Replay Step .new ls s ∧ (s.phases 0).unrecorded = [] ∧
      (s.controls 0).evicted ≠ (returns 0 ls).sum) ∧
    (∃ ls s, Replay Step .new ls s ∧ (s.phases 0).unrecorded = [] ∧
      (s.controls 0).ticks ≠ (returns 0 ls).length) ∧
    ∃ ls s c s', Replay Step .new ls s ∧ Step (.claim c) s s' ∧
      (s'.controls c).generation ≠ s.generation + 1 := by
  refine ⟨?_, ?_, ?_⟩
  · obtain ⟨ls, s, hr, hp, _, hret⟩ := ticks_run (2 ^ 64 - 1) 2
    refine ⟨ls, s, hr, by rw [hp]; rfl, ?_⟩
    have := (Inv.run hr).evicted 0
    have hrec := (Inv.run hr).returned 0
    rw [hp] at hrec
    have hrec : returns 0 ls = records 0 ls := hrec.trans (List.append_nil _)
    rw [this, ← hrec, hret]
    simp
  · obtain ⟨ls, s, hr, hp, _, hret⟩ := ticks_run 0 (2 ^ 64)
    refine ⟨ls, s, hr, by rw [hp]; rfl, ?_⟩
    have := (Inv.run hr).ticks 0
    have hrec := (Inv.run hr).returned 0
    rw [hp] at hrec
    have hrec : returns 0 ls = records 0 ls := hrec.trans (List.append_nil _)
    rw [this, ← hrec, hret, List.length_replicate]
    omega
  · obtain ⟨ls, s, hr, hc, hn⟩ := claims_run (2 ^ 64 - 1)
    have hi := Inv.run hr
    have hu : s.upgrade = none := by rw [hi.upgrade_eq, hn]
    have hs : (s.start (.sync 1 true)).2 = .ok s.claims := by
      change (s.claim .spawnFailed).2 = _
      rw [State.claim, if_neg (by rw [hu]; simp)]
    have hclaim := Step.claim (.sync 1 true) hs
    refine ⟨ls, s, _, _, hr, hclaim, ?_⟩
    have hlt := (hclaim.claims_le)
    have hnum := (hi.step hclaim).number s.claims ?_
    · rw [hnum, hi.generation, hc]
      omega
    · change s.claims < (s.claim .spawnFailed).1.claims
      rw [State.claim, if_neg (by rw [hu]; simp)]
      exact Nat.lt_succ_self _

end Starshard.Scheduler
