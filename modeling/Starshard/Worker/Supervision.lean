import Mathlib.Data.List.Induction
import Starshard.Worker.Layout

/-! A supervised worker moves entries of its own migration only. -/
namespace Starshard.Worker

open Data Concurrent

variable {K V : Type}

@[simp] theorem telemetry_releaseWorker (g : Nat) (p : Progress) :
    (p.releaseWorker g).telemetry = p.telemetry := by
  unfold Progress.releaseWorker
  split <;> rfl

@[simp] theorem migrating_releaseWorker (g : Nat) (p : Progress) :
    (p.releaseWorker g).migrating = p.migrating := by
  unfold Progress.releaseWorker
  split <;> rfl

@[simp] theorem migrating_recordBatch (g elapsed budget : Nat) (p : Progress) :
    (p.recordBatch g elapsed budget).migrating = p.migrating := by
  unfold Progress.recordBatch
  split <;> rfl

@[simp] theorem generation_recordBatch (g elapsed budget : Nat) (p : Progress) :
    (p.recordBatch g elapsed budget).telemetry.generation = p.telemetry.generation := by
  unfold Progress.recordBatch
  split <;> rfl

@[simp] theorem paused_recordBatch (g elapsed budget : Nat) (p : Progress) :
    (p.recordBatch g elapsed budget).telemetry.paused = p.telemetry.paused := by
  unfold Progress.recordBatch
  split <;> rfl

@[simp] theorem complete_recordBatch (g elapsed budget : Nat) (p : Progress) :
    (p.recordBatch g elapsed budget).telemetry.complete = p.telemetry.complete := by
  unfold Progress.recordBatch
  split <;> rfl

@[simp] theorem migrating_pause (b : Bool) (p : Progress) :
    (p.pause b).migrating = p.migrating := by
  unfold Progress.pause
  split <;> rfl

@[simp] theorem generation_pause (b : Bool) (p : Progress) :
    (p.pause b).telemetry.generation = p.telemetry.generation := by
  unfold Progress.pause
  split <;> rfl

@[simp] theorem complete_pause (b : Bool) (p : Progress) :
    (p.pause b).telemetry.complete = p.telemetry.complete := by
  unfold Progress.pause
  split <;> rfl

def Phase.job : Phase → Option Job
  | .claimed job | .refused job | .failed job | .waiting job _ | .ready job _ | .batching job _
  | .returned job _ _ | .reporting job _ | .reported job _ | .panicking job | .ended job _ =>
    some job
  | .idle | .rejected => none

def State.jobs (s : State K V) (w : Nat) : Option Job := (s.calls w).job

/-- The worker saw its migration complete. -/
def Phase.sure : Phase → Prop
  | .waiting _ l | .ready _ l | .batching _ l | .reporting _ l => l.completed = true
  | .returned _ l report => l.completed = true ∨ report.complete = true
  | _ => False

theorem State.jobs_goto {s : State K V} {w : Nat} {p : Phase} (h : p.job = (s.calls w).job) :
    (s.goto w p).jobs = s.jobs := by
  funext u
  by_cases hu : u = w
  · subst hu
    simp [State.jobs, State.goto, h]
  · simp [State.jobs, State.goto, hu]

theorem State.sure_goto {s : State K V} {w u : Nat} {p : Phase}
    (h : ((s.goto w p).calls u).sure) : (u = w ∧ p.sure) ∨ (s.calls u).sure := by
  change (Function.update s.calls w p u).sure at h
  by_cases hne : u = w
  · rw [hne, Function.update_self] at h
    exact .inl ⟨hne, h⟩
  · rw [Function.update_of_ne hne] at h
    exact .inr h

theorem State.jobs_back (s : State K V) (owner : Option Nat) {phase : Job → Locals → Phase}
    (h : ∀ job l, (phase job l).job = some job) : (s.back owner phase).jobs = s.jobs := by
  cases owner with
  | none => rfl
  | some w =>
    unfold State.back
    dsimp only
    split
    · next job l hw => exact State.jobs_goto (by rw [h, hw]; rfl)
    · rfl

/-- A batch runs in the generation it checked, which is not paused, and a supervised
batch in the generation its worker claimed. -/
structure Bound (s : State K V) (b : Batch K) : Prop where
  generation : b.telemetry.generation = s.tracker.telemetry.generation
  paused : s.tracker.telemetry.paused = false
  owner : ∀ w, b.owner = some w → ∃ job l, s.calls w = .batching job l ∧
    job.generation = s.tracker.telemetry.generation

namespace Bound

variable {s s' : State K V} {b b' : Batch K}

theorem keep (h : Bound s b) (ht : b'.telemetry = b.telemetry) (ho : b'.owner = b.owner)
    (hg : s'.tracker.telemetry.generation = s.tracker.telemetry.generation)
    (hp : s'.tracker.telemetry.paused = false)
    (hc : ∀ w job l, s.calls w = .batching job l → s'.calls w = .batching job l) :
    Bound s' b' where
  generation := by rw [ht, hg]; exact h.generation
  paused := hp
  owner w hw := by
    rw [ho] at hw
    obtain ⟨job, l, hj, hg'⟩ := h.owner w hw
    exact ⟨job, l, hc w job l hj, by rw [hg, hg']⟩

theorem goto (h : Bound s b) {w : Nat} {p : Phase} (hw : ∀ job l, s.calls w ≠ .batching job l) :
    Bound (s.goto w p) b :=
  h.keep rfl rfl rfl h.paused fun u job l hu => by
    by_cases hne : u = w
    · subst hne
      exact absurd hu (hw job l)
    · simpa [State.goto, hne] using hu

theorem released (h : Bound s b) {w g : Nat} {p : Phase}
    (hw : ∀ job l, s.calls w ≠ .batching job l) :
    Bound { s.goto w p with tracker := s.tracker.releaseWorker g } b :=
  (h.goto (p := p) hw).keep rfl rfl (by simp [State.goto]) (by simpa using h.paused)
    fun _ _ _ hj => hj

end Bound

theorem refuses_false {expected : Option Nat} {cancelled : Bool} {n : Nat} {p : Progress}
    (h : ¬ refuses expected cancelled n p = true) :
    (∀ g, expected = some g → g = p.telemetry.generation) ∧ p.telemetry.paused = false ∧
      cancelled = false := by
  simp only [refuses, Bool.or_eq_true, not_or, Bool.not_eq_true] at h
  refine ⟨fun g hg => ?_, h.1.1.2, h.1.2⟩
  subst hg
  simpa using h.1.1.1

theorem Batch.judge_report {K : Type} (b : Batch K) (empty elapsed : Bool) :
    (b.judge empty elapsed).report.complete = b.report.complete ∧
      (b.judge empty elapsed).telemetry = b.telemetry ∧
      (b.judge empty elapsed).owner = b.owner := by
  unfold Batch.judge
  split <;> exact ⟨rfl, rfl, rfl⟩

variable [DecidableEq K] {hash : K → Nat}

theorem paused_resume (p : Progress) (h : p.telemetry.paused = false) :
    (p.pause false).telemetry.paused = false := by
  unfold Progress.pause
  split
  · rfl
  · exact h

theorem Bound.step {l : Label K V} {s s' : State K V}
    (h : ∀ b, s.batch = some b → Bound s b) (hs : Step hash l s s') :
    ∀ b, s'.batch = some b → Bound s' b := by
  intro b' hb'
  cases hs with
  | claim w target options n len now hw hb ht hr =>
    have hb' := (reserve_batch hr).symm.trans hb'
    rw [hb] at hb'
    cases hb'
  | reject _ _ _ _ hw | spawned hw | proceed hw | stop hw | absorb hw | crash hw | report _ hw =>
    exact (h b' hb').goto fun job l hj => by rw [hw] at hj; cases hj
  | refuse hw | release hw | ended hw | dropped hw =>
    exact (h b' hb').released fun job l hj => by rw [hw] at hj; cases hj
  | enterWorker job hw hb =>
    have hn : s.batch ≠ some b' := by simp [hb]
    revert hb'
    split
    · exact fun hb' => absurd hb' hn
    · next hr =>
      split
      · exact fun hb' => absurd hb' hn
      · intro hb'
        cases hb'
        obtain ⟨hg, hp, _⟩ := refuses_false hr
        refine ⟨rfl, hp, fun u hu => ?_⟩
        cases hu
        exact ⟨_, _, Function.update_self .., hg _ rfl⟩
  | enterManual maxShards maxEntries pauseNs hb =>
    revert hb'
    split
    · intro hb'
      rw [hb] at hb'
      cases hb'
    · next hr =>
      intro hb'
      cases hb'
      exact ⟨rfl, (refuses_false fun hf => hr (.inl hf)).2.1, fun u hu => by cases hu⟩
  | exit hb _ _ | select _ hb _ _ _ _ _ | move hb _ _ _ _ | skip hb _ _ | retire hb _ _ | keep hb _ _ _ =>
    cases hb'
    exact (h _ hb).keep rfl rfl rfl (h _ hb).paused fun _ _ _ hj => hj
  | drained now hb hst heq =>
    cases hb'
    exact (h _ hb).keep rfl rfl rfl rfl fun _ _ _ hj => hj
  | judge elapsed hb hst hne he =>
    cases hb'
    exact (h _ hb).keep (Batch.judge_report _ _ _).2.1 (Batch.judge_report _ _ _).2.2 rfl
      (h _ hb).paused fun _ _ _ hj => hj
  | leave elapsed hb hd | unwind elapsed hb hd =>
    rw [State.back_batch] at hb'
    cases hb'
  | resume =>
    exact (h b' hb').keep rfl rfl (generation_pause _ _) (paused_resume _ (h b' hb').paused)
      fun _ _ _ hj => hj
  | cancel w => exact (h b' hb').keep rfl rfl rfl (h b' hb').paused fun _ _ _ hj => hj
  | started n hb _ _ | inPlace n hb _ _ _ | start n len now hb _ _ _ | staged n elapsed hb _ _
  | pause hb | clear now hb | wipe n hb | insert k v hb | remove k hb =>
    have hb' : s.batch = some b' := hb'
    rw [hb] at hb'
    cases hb'

/-- Generation `g` finished in the run, by draining or by `clear` or `drain`. -/
def Finished (ls : List (Label K V)) (g : Nat) : Prop := ∃ l ∈ ls, l.finishes g

/-- At the claim of call `w` the target layout was in place. -/
def InPlace (hash : K → Nat) (s₀ : State K V) (ls : List (Label K V)) (w target : Nat) : Prop :=
  ∃ pre post s, ls = pre ++ .claim w false :: post ∧ Replay (Step hash) s₀ pre s ∧
    s.tracker.migrating = false ∧ s.tables.shardCount = target

omit [DecidableEq K] in
theorem Finished.snoc {ls : List (Label K V)} {g : Nat} (h : Finished ls g) (l : Label K V) :
    Finished (ls ++ [l]) g := by
  obtain ⟨m, hm, hg⟩ := h
  exact ⟨m, List.mem_append_left _ hm, hg⟩

theorem InPlace.snoc {s₀ : State K V} {ls : List (Label K V)} {w target : Nat}
    (h : InPlace hash s₀ ls w target) (l : Label K V) :
    InPlace hash s₀ (ls ++ [l]) w target := by
  obtain ⟨pre, post, s, rfl, hr, hm⟩ := h
  exact ⟨pre, post ++ [l], s, by simp, hr, hm⟩

/-- What the run so far says about the claims. -/
structure Sound (hash : K → Nat) (s₀ : State K V) (ls : List (Label K V)) (s : State K V) :
    Prop where
  count : s.tracker.telemetry.generation = ls.countP Label.begins
  bound : ∀ w job, s.jobs w = some job → job.generation ≤ s.tracker.telemetry.generation
  place : ∀ w job, s.jobs w = some job → job.alreadyComplete = true →
    InPlace hash s₀ ls w job.target
  ended : ∀ w job, s.jobs w = some job → job.alreadyComplete = false →
    job.generation = s.tracker.telemetry.generation → s.tracker.migrating = false →
      Finished ls job.generation
  sure : ∀ w job, s.jobs w = some job → (s.calls w).sure →
    job.alreadyComplete = true ∨ Finished ls job.generation
  batch : ∀ b, s.batch = some b → b.report.complete = true →
    Finished ls s.tracker.telemetry.generation
  open' : s.tracker.migrating = true → s.tracker.telemetry.complete = false

theorem Sound.new (hash : K → Nat) (count : Nat) :
    Sound hash (State.new K V count) [] (State.new K V count) where
  count := rfl
  bound _ _ hw := by cases hw
  place _ _ hw := by cases hw
  ended _ _ hw := by cases hw
  sure _ _ hw := by cases hw
  batch _ hb := by cases hb
  open' hm := by cases hm

namespace Sound

variable {s₀ s s' : State K V} {ls : List (Label K V)} {l : Label K V}

theorem keep (h : Sound hash s₀ ls s) (hl : l.begins = false)
    (hg : s'.tracker.telemetry.generation = s.tracker.telemetry.generation)
    (hm : s'.tracker.migrating = s.tracker.migrating)
    (hc : s'.tracker.telemetry.complete = s.tracker.telemetry.complete) (hj : s'.jobs = s.jobs)
    (hs : ∀ w job, s.jobs w = some job → (s'.calls w).sure →
      (s.calls w).sure ∨ job.alreadyComplete = true ∨ Finished ls job.generation)
    (hb : ∀ b, s'.batch = some b → b.report.complete = true →
      ∃ b', s.batch = some b' ∧ b'.report.complete = true) :
    Sound hash s₀ (ls ++ [l]) s' where
  count := by
    rw [hg, h.count, List.countP_append]
    simp [hl]
  bound w job hw := by
    rw [hj] at hw
    rw [hg]
    exact h.bound w job hw
  place w job hw ha := by
    rw [hj] at hw
    exact (h.place w job hw ha).snoc l
  ended w job hw ha hgen hmig := by
    rw [hj] at hw
    rw [hg] at hgen
    rw [hm] at hmig
    exact (h.ended w job hw ha hgen hmig).snoc l
  sure w job hw hsure := by
    rw [hj] at hw
    rcases hs w job hw hsure with hsure | ha | hf
    · exact (h.sure w job hw hsure).imp_right fun hf => hf.snoc l
    · exact .inl ha
    · exact .inr (hf.snoc l)
  batch b hb' hcomp := by
    obtain ⟨b', hb', hcomp⟩ := hb b hb' hcomp
    rw [hg]
    exact (h.batch b' hb' hcomp).snoc l
  open' hmig := by
    rw [hm] at hmig
    rw [hc]
    exact h.open' hmig

/-- The current generation ends and says so. -/
theorem finish (h : Sound hash s₀ ls s) (hl : l.begins = false)
    (hg : s'.tracker.telemetry.generation = s.tracker.telemetry.generation)
    (hm : s'.tracker.migrating = false)
    (hf : s.tracker.migrating = true → l.finishes s.tracker.telemetry.generation)
    (hc : s'.calls = s.calls)
    (hb : ∀ b, s'.batch = some b → s.tracker.migrating = true) :
    Sound hash s₀ (ls ++ [l]) s' := by
  have hj : s'.jobs = s.jobs := by
    funext w
    rw [State.jobs, hc]
    rfl
  refine ⟨?_, fun w job hw => ?_, fun w job hw ha => ?_, fun w job hw ha hgen _ => ?_,
    fun w job hw hsure => ?_, fun b hb' _ => ?_, fun hmig => ?_⟩
  · rw [hg, h.count, List.countP_append]
    simp [hl]
  · rw [hj] at hw
    rw [hg]
    exact h.bound w job hw
  · rw [hj] at hw
    exact (h.place w job hw ha).snoc l
  · rw [hj] at hw
    rw [hg] at hgen
    cases hmig : s.tracker.migrating with
    | true => exact ⟨l, by simp, hgen ▸ hf hmig⟩
    | false => exact (h.ended w job hw ha hgen hmig).snoc l
  · rw [hj] at hw
    rw [hc] at hsure
    exact (h.sure w job hw hsure).imp_right fun hf => hf.snoc l
  · rw [hg]
    exact ⟨l, by simp, hf (hb b hb')⟩
  · rw [hm] at hmig
    cases hmig

/-- A new generation: no claim so far is of it. -/
theorem advance (h : Sound hash s₀ ls s) (hl : l.begins = true)
    (hg : s'.tracker.telemetry.generation = s.tracker.telemetry.generation + 1)
    (hm : s'.tracker.migrating = true → s'.tracker.telemetry.complete = false)
    (hc : s'.calls = s.calls) (hb : s'.batch = none) : Sound hash s₀ (ls ++ [l]) s' := by
  have hj : s'.jobs = s.jobs := by
    funext w
    rw [State.jobs, hc]
    rfl
  refine ⟨?_, fun w job hw => ?_, fun w job hw ha => ?_, fun w job hw ha hgen _ => ?_,
    fun w job hw hsure => ?_, fun b hb' _ => ?_, hm⟩
  · rw [hg, h.count, List.countP_append]
    simp [hl]
  · rw [hj] at hw
    have := h.bound w job hw
    omega
  · rw [hj] at hw
    exact (h.place w job hw ha).snoc l
  · rw [hj] at hw
    have := h.bound w job hw
    omega
  · rw [hj] at hw
    rw [hc] at hsure
    exact (h.sure w job hw hsure).imp_right fun hf => hf.snoc l
  · rw [hb] at hb'
    cases hb'

theorem goto (h : Sound hash s₀ ls s) (hl : l.begins = false) {w : Nat} {p : Phase}
    (hj : p.job = (s.calls w).job)
    (hs : ∀ job, p.job = some job → p.sure →
      (s.calls w).sure ∨ job.alreadyComplete = true ∨ Finished ls job.generation) :
    Sound hash s₀ (ls ++ [l]) (s.goto w p) := by
  refine h.keep hl rfl rfl rfl (State.jobs_goto hj) (fun u job hu hsure => ?_)
    fun b hb hcomp => ⟨b, hb, hcomp⟩
  rcases State.sure_goto hsure with ⟨rfl, hp⟩ | hsure
  · exact hs job (hj.trans hu) hp
  · exact .inl hsure

theorem retrack {p : Progress} (h : Sound hash s₀ ls s)
    (hg : p.telemetry.generation = s.tracker.telemetry.generation)
    (hm : p.migrating = s.tracker.migrating)
    (hc : p.telemetry.complete = s.tracker.telemetry.complete) :
    Sound hash s₀ ls { s with tracker := p } :=
  ⟨hg.trans h.count, fun w job hw => by rw [hg]; exact h.bound w job hw, h.place,
    fun w job hw ha hgen hmig => h.ended w job hw ha (hgen.trans hg) (hm.symm.trans hmig), h.sure,
    fun b hb hcomp => by rw [hg]; exact h.batch b hb hcomp,
    fun hmig => hc.trans (h.open' (hm.symm.trans hmig))⟩

theorem released (h : Sound hash s₀ ls s) (hl : l.begins = false) {w g : Nat} {p : Phase}
    (hj : p.job = (s.calls w).job) (hs : ¬ p.sure) :
    Sound hash s₀ (ls ++ [l]) { s.goto w p with tracker := s.tracker.releaseWorker g } :=
  (h.goto hl hj fun _ _ hsure => absurd hsure hs).retrack
    (congrArg _ (telemetry_releaseWorker _ _)) (migrating_releaseWorker _ _)
    (congrArg _ (telemetry_releaseWorker _ _))

theorem claimed (h : Sound hash s₀ ls s) {w : Nat} {job : Job} {g : Option Nat}
    (hg : job.generation = s.tracker.telemetry.generation)
    (ha : job.alreadyComplete = true → InPlace hash s₀ ls w job.target)
    (hm : job.alreadyComplete = false → s.tracker.migrating = true) :
    Sound hash s₀ ls (State.goto { s with
      tracker := { s.tracker with workerGeneration := g } } w (.claimed job)) := by
  have hcases (P : Nat → Job → Prop) (hw : P w job)
      (hold : ∀ u job, s.jobs u = some job → P u job) (u : Nat) (job' : Job)
      (hu : (State.goto { s with tracker := { s.tracker with workerGeneration := g } } w
        (.claimed job)).jobs u = some job') : P u job' := by
    by_cases hne : u = w
    · subst hne
      simp only [State.jobs, State.goto, Function.update_self, Phase.job, Option.some.injEq] at hu
      rwa [← hu]
    · simp only [State.jobs, State.goto, Function.update_of_ne hne] at hu
      exact hold u job' hu
  refine ⟨h.count, hcases _ (Nat.le_of_eq hg) h.bound, hcases _ ha h.place,
    hcases (fun _ job => job.alreadyComplete = false →
      job.generation = s.tracker.telemetry.generation → s.tracker.migrating = false →
        Finished ls job.generation) (fun hf _ hmig => ?_) h.ended, fun u job' hu hsure => ?_,
    h.batch, h.open'⟩
  · rw [hm hf] at hmig
    cases hmig
  · by_cases hne : u = w
    · subst hne
      simp [State.goto, Phase.sure] at hsure
    · simp only [State.jobs, State.goto, Function.update_of_ne hne] at hu hsure
      exact h.sure u job' hu hsure

end Sound

omit [DecidableEq K] in
theorem State.back_calls (s : State K V) (owner : Option Nat) (phase : Job → Locals → Phase)
    (u : Nat) : (s.back owner phase).calls u = s.calls u ∨
      ∃ job l, owner = some u ∧ s.calls u = .batching job l ∧
        (s.back owner phase).calls u = phase job l := by
  cases owner with
  | none => exact .inl rfl
  | some w =>
    unfold State.back
    dsimp only
    split
    · next job l hw =>
      by_cases hne : u = w
      · subst hne
        exact .inr ⟨job, l, rfl, hw, Function.update_self ..⟩
      · exact .inl (Function.update_of_ne hne ..)
    · exact .inl rfl

theorem nextGeneration_eq {g : Nat} (h : g + 1 < 2 ^ 64) : Progress.nextGeneration g = g + 1 :=
  Nat.mod_eq_of_lt h

theorem Sound.step {s₀ s s' : State K V} {ls : List (Label K V)} {l : Label K V}
    (h : Sound hash s₀ ls s) (hrun : Replay (Step hash) s₀ ls s)
    (hbound : ∀ b, s.batch = some b → Bound s b) (hlaid : Laid hash s)
    (hwrap : (ls ++ [l]).countP Label.begins < 2 ^ 64) (hs : Step hash l s s') :
    Sound hash s₀ (ls ++ [l]) s' := by
  have hnext (hl : l.begins = true) : Progress.nextGeneration s.tracker.telemetry.generation =
      s.tracker.telemetry.generation + 1 := by
    refine nextGeneration_eq ?_
    rw [h.count]
    simpa [hl] using hwrap
  cases hs with
  | claim w target options n len now hw hb ht hr =>
    rcases reserve_some hr with ⟨rfl, hm, hc⟩ | ⟨rfl, hm, _, hc⟩
    · obtain ⟨_, rfl, hg, ha, htarget⟩ := claim_some hc
      have hk : Sound hash s₀ (ls ++ [.claim w false]) s :=
        h.keep rfl rfl rfl rfl rfl (fun _ _ _ hs => .inl hs) fun b hb hc => ⟨b, hb, hc⟩
      refine hk.claimed hg (fun hac => ?_) fun hac => by simpa [ha] using hac
      have hmig : s.tracker.migrating = false := by simpa [ha] using hac
      refine ⟨ls, [], s, rfl, hrun, hmig, ?_⟩
      rw [htarget]
      exact hm.resolve_left (by simp [hmig])
    · obtain ⟨_, rfl, hg, ha, _⟩ := claim_some hc
      have hk : Sound hash s₀ (ls ++ [.claim w true]) (s.begin target len now) :=
        h.advance rfl (hnext rfl) (fun _ => rfl) rfl hb
      exact hk.claimed hg (fun hac => by rw [ha] at hac; cases hac) fun _ => rfl
  | reject _ _ _ _ hw =>
    exact h.goto rfl (by rw [hw]; rfl) fun _ _ hsure => hsure.elim
  | spawned hw =>
    refine h.goto rfl (by rw [hw]; rfl) fun job hj hsure => ?_
    cases hj
    exact .inr (.inl hsure)
  | proceed hw | stop hw | crash hw =>
    exact h.goto rfl (by rw [hw]; rfl) fun _ _ hsure => by
      first | exact hsure.elim | (rw [hw]; exact .inl hsure)
  | absorb hw =>
    refine h.goto rfl (by rw [hw]; split <;> rfl) fun job hj hsure => .inl ?_
    rw [hw]
    split at hsure
    · next hc => exact .inr hc
    · exact .inl hsure
  | report _ hw _ => exact h.goto rfl (by rw [hw]; rfl) fun _ _ hsure => hsure.elim
  | refuse hw | release hw | ended hw | dropped hw =>
    exact h.released rfl (by rw [hw]; rfl) fun hsure => hsure
  | enterWorker job hw hb =>
    split
    · refine h.goto rfl (by rw [hw]; rfl) fun _ _ hsure => .inl ?_
      rw [hw]
      exact hsure.resolve_right (by simp [RebalanceBatchReport.default])
    · next hr =>
      split
      · next hm =>
        refine h.goto rfl (by rw [hw]; rfl) fun job' hj _ => .inr ?_
        cases hj
        cases ha : job.alreadyComplete with
        | true => exact .inl rfl
        | false =>
          refine .inr (h.ended _ _ (by rw [State.jobs, hw]; rfl) ha ?_ hm)
          exact (refuses_false hr).1 _ rfl
      · refine h.keep rfl rfl rfl rfl (State.jobs_goto (by rw [hw]; rfl)) (fun u job' hu hsure => ?_)
          fun b hb' hc => by cases hb'; cases hc
        refine .inl ((State.sure_goto hsure).elim (fun hp => ?_) id)
        rw [hp.1, hw]
        exact hp.2
  | enterManual maxShards maxEntries pauseNs hb =>
    split
    · exact h.keep rfl rfl rfl rfl rfl (fun _ _ _ hs => .inl hs) fun b hb hc => ⟨b, hb, hc⟩
    · refine h.keep rfl rfl rfl rfl rfl (fun _ _ _ hs => .inl hs) fun b hb' hc => ?_
      cases hb'
      cases hc
  | exit hb _ _ | select _ hb _ _ _ _ _ | move hb _ _ _ _ | skip hb _ _ | retire hb _ _ | keep hb _ _ _ =>
    refine h.keep rfl rfl rfl rfl rfl (fun _ _ _ hs => .inl hs) fun b hb' hc => ?_
    cases hb'
    exact ⟨_, hb, hc⟩
  | drained now hb hst heq =>
    have hfit := hlaid.stage _ hb
    rw [hst] at hfit
    exact h.finish rfl rfl rfl (fun _ => rfl) rfl fun _ _ => hfit
  | judge elapsed hb hst hne he =>
    refine h.keep rfl rfl rfl rfl rfl (fun _ _ _ hs => .inl hs) fun b hb' hc => ?_
    cases hb'
    rw [(Batch.judge_report _ _ _).1] at hc
    exact ⟨_, hb, hc⟩
  | unwind elapsed hb hd =>
    refine h.keep rfl (by simp) (by simp) (by simp) (State.jobs_back _ _ fun _ _ => rfl)
      (fun u job hu hsure => ?_) fun b' hb' => by rw [State.back_batch] at hb'; cases hb'
    rcases State.back_calls _ _ _ u with hsame | ⟨job', l, ho, hj, hnew⟩
    · rw [hsame] at hsure
      exact .inl hsure
    · rw [hnew] at hsure
      exact hsure.elim
  | leave elapsed hb hd =>
    refine h.keep rfl (by simp) (by simp) (by simp) (State.jobs_back _ _ fun _ _ => rfl)
      (fun u job hu hsure => ?_) fun b' hb' => by rw [State.back_batch] at hb'; cases hb'
    rcases State.back_calls _ _ _ u with hsame | ⟨job', l, ho, hj, hnew⟩
    · rw [hsame] at hsure
      exact .inl hsure
    · rw [hnew] at hsure
      have hj : s.calls u = .batching job' l := hj
      rcases hsure with hsure | hsure
      · exact .inl (by rw [hj]; exact hsure)
      · obtain ⟨job'', l', hj', hg⟩ := (hbound _ hb).owner u ho
        rw [hj] at hj'
        cases hj'
        rw [State.jobs, hj] at hu
        cases hu
        exact .inr (.inr (by rw [hg]; exact h.batch _ hb hsure))
  | resume =>
    exact h.keep rfl (generation_pause _ _) (migrating_pause _ _) (complete_pause _ _) rfl
      (fun _ _ _ hs => .inl hs) fun b hb hc => ⟨b, hb, hc⟩
  | pause hb =>
    exact h.keep rfl (generation_pause _ _) (migrating_pause _ _) (complete_pause _ _) rfl
      (fun _ _ _ hs => .inl hs) fun b hb hc => ⟨b, hb, hc⟩
  | started | inPlace | cancel | wipe | insert | remove =>
    exact h.keep rfl rfl rfl rfl rfl (fun _ _ _ hs => .inl hs) fun b hb hc => ⟨b, hb, hc⟩
  | start n len now hb _ _ _ => exact h.advance rfl (hnext rfl) (fun _ => rfl) rfl hb
  | staged n elapsed hb _ _ => exact h.advance rfl (hnext rfl) (fun hm => by cases hm) rfl hb
  | clear now hb =>
    refine h.finish rfl rfl rfl (fun hm => ?_) rfl fun b hb' => ?_
    · simp [Label.finishes, hm]
    · rw [hb] at hb'
      cases hb'

/-- A commit belongs to the batch that owns routing. -/
theorem Step.of_commits {l : Label K V} {s s' : State K V} (hs : Step hash l s s')
    {owner : Option Nat} (hl : l.commits = some owner) :
    ∃ b, s.batch = some b ∧ b.owner = owner := by
  cases hs with
  | move hb _ _ _ _ | retire hb _ _ | drained _ hb _ _ =>
    exact ⟨_, hb, Option.some.inj hl⟩
  | _ => cases hl

/-- A batch is opened by `enter` only. -/
theorem Step.batch_owner {l : Label K V} {s s' : State K V} (hs : Step hash l s s') {b' : Batch K}
    (hb' : s'.batch = some b') :
    l = .enter b'.owner ∨ ∃ b, s.batch = some b ∧ b.owner = b'.owner := by
  cases hs with
  | claim w target options n len now hw hb ht hr =>
    exact .inr ⟨b', (reserve_batch hr).symm.trans hb', rfl⟩
  | enterWorker job hw hb =>
    revert hb'
    split
    · exact fun hb' => .inr ⟨b', hb', rfl⟩
    · split
      · exact fun hb' => .inr ⟨b', hb', rfl⟩
      · intro hb'
        cases hb'
        exact .inl rfl
  | enterManual maxShards maxEntries pauseNs hb =>
    revert hb'
    split
    · exact fun hb' => .inr ⟨b', hb', rfl⟩
    · intro hb'
      cases hb'
      exact .inl rfl
  | exit hb _ _ | select _ hb _ _ _ _ _ | move hb _ _ _ _ | skip hb _ _ | retire hb _ _ | keep hb _ _ _
  | drained _ hb _ _ =>
    cases hb'
    exact .inr ⟨_, hb, rfl⟩
  | judge elapsed hb hst hne he =>
    cases hb'
    exact .inr ⟨_, hb, (Batch.judge_report _ _ _).2.2.symm⟩
  | leave elapsed hb hd | unwind elapsed hb hd =>
    rw [State.back_batch] at hb'
    cases hb'
  | _ => exact .inr ⟨b', hb', rfl⟩

/-- Nothing of `w` runs until it enters a batch again. -/
theorem owner_run {w : Nat} {ls : List (Label K V)} {s s' : State K V}
    (hr : Replay (Step hash) s ls s') (hn : .enter (some w) ∉ ls)
    (h : ∀ b, s.batch = some b → b.owner ≠ some w) :
    ∀ b, s'.batch = some b → b.owner ≠ some w := by
  induction hr with
  | nil => exact h
  | cons hs _ ih =>
    refine ih (fun hm => hn (List.mem_cons_of_mem _ hm)) fun b hb ho => ?_
    rcases hs.batch_owner hb with hl | ⟨b₀, hb₀, ho₀⟩
    · rw [hl, ho] at hn
      exact hn List.mem_cons_self
    · exact h b₀ hb₀ (ho₀.trans ho)

/-- No batch owns routing and none is admitted. -/
structure Held (s : State K V) : Prop where
  batch : s.batch = none
  stopped : s.tracker.telemetry.paused = true ∨ s.tracker.migrating = false

theorem Held.step {l : Label K V} {s s' : State K V} (h : Held s) (hs : Step hash l s s')
    (hr : l ≠ .resume) (hb : l.begins = false) : Held s' := by
  cases hs with
  | claim w target options n len now hw hb' ht hres =>
    refine ⟨(reserve_batch hres).trans h.batch, ?_⟩
    rcases reserve_some hres with ⟨_, _, hc⟩ | ⟨hf, _, _, _⟩
    · obtain ⟨_, rfl, _⟩ := claim_some hc
      exact h.stopped
    · rw [hf] at hb
      cases hb
  | refuse | release | ended | dropped =>
    exact ⟨h.batch, by simpa using h.stopped⟩
  | enterWorker job hw hb' =>
    split
    · exact ⟨h.batch, h.stopped⟩
    · next hr =>
      split
      · exact ⟨h.batch, h.stopped⟩
      · next hm =>
        rcases h.stopped with hp | hp
        · rw [(refuses_false hr).2.1] at hp
          cases hp
        · exact absurd hp hm
  | enterManual maxShards maxEntries pauseNs hb' =>
    split
    · exact h
    · next hm =>
      rcases h.stopped with hp | hp
      · rw [(refuses_false fun hf => hm (.inl hf)).2.1] at hp
        cases hp
      · exact absurd (.inr hp) hm
  | exit hb' _ _ | select _ hb' _ _ _ _ _ | move hb' _ _ _ _ | skip hb' _ _ | retire hb' _ _
  | keep hb' _ _ _ | drained _ hb' _ _ | judge _ hb' _ _ _ | leave _ hb' _ | unwind _ hb' _ =>
    rw [h.batch] at hb'
    cases hb'
  | pause =>
    refine ⟨h.batch, ?_⟩
    unfold Progress.pause
    split
    · exact .inl rfl
    · next hm => exact .inr (by simpa using hm)
  | clear => exact ⟨h.batch, .inr rfl⟩
  | resume => exact absurd rfl hr
  | start | staged => cases hb
  | reject | spawned | proceed | stop | absorb | crash | report | started | inPlace | cancel | wipe
  | insert | remove => exact ⟨h.batch, h.stopped⟩

theorem Held.run {ls : List (Label K V)} {s s' : State K V} (h : Held s)
    (hr : Replay (Step hash) s ls s') (hl : ∀ l ∈ ls, l ≠ .resume ∧ l.begins = false) :
    Held s' := by
  induction hr with
  | nil => exact h
  | cons hs _ ih =>
    have hhead := hl _ List.mem_cons_self
    exact ih (h.step hs hhead.1 hhead.2) fun l hm => hl l (List.mem_cons_of_mem _ hm)

/-- What holds after every run. -/
structure Supervised (hash : K → Nat) (s₀ : State K V) (ls : List (Label K V)) (s : State K V) :
    Prop where
  laid : Laid hash s
  bound : ∀ b, s.batch = some b → Bound s b
  sound : Sound hash s₀ ls s

theorem Supervised.run {count : Nat} (hcount : 0 < count) {ls : List (Label K V)} {s : State K V}
    (hr : Replay (Step hash) (State.new K V count) ls s)
    (hwrap : ls.countP Label.begins < 2 ^ 64) : Supervised hash (State.new K V count) ls s := by
  induction ls using List.reverseRecOn generalizing s with
  | nil =>
    rw [hr.nil_eq]
    exact ⟨.new hcount, fun b hb => (by cases hb), .new hash count⟩
  | append_singleton ls l ih =>
    obtain ⟨s₁, hr₁, hl⟩ := hr.of_append
    cases hl with
    | cons hs hnil =>
      cases hnil
      have hwrap₁ : ls.countP Label.begins < 2 ^ 64 := by
        rw [List.countP_append] at hwrap
        omega
      have h := ih hr₁ hwrap₁
      exact ⟨h.laid.step hs, Bound.step h.bound hs, h.sound.step hr₁ h.bound h.laid hwrap hs⟩

theorem supervised_rebalance {count : Nat} (hcount : 0 < count) {ls : List (Label K V)}
    {s : State K V} (hr : Replay (Step hash) (State.new K V count) ls s)
    (hwrap : ls.countP Label.begins < 2 ^ 64) :
    -- an entry is moved in the generation its worker claimed
    (∀ w k s', Step hash (.move (some w) k) s s' → ∃ job l, s.calls w = .batching job l ∧
      s.tracker.telemetry.generation = job.generation ∧ s.tracker.telemetry.paused = false ∧
      s.tracker.migrating = true) ∧
    -- a batch that observes cancellation at its start commits nothing
    (∀ w s₁ mid s₂ l s₃, Step hash (.enter (some w)) s s₁ → s.cancelled w = true →
      Replay (Step hash) s₁ mid s₂ → .enter (some w) ∉ mid → Step hash l s₂ s₃ →
      l.commits ≠ some (some w)) ∧
    -- nor does any batch while a pause holds
    (∀ s₁ mid s₂ l s₃, Step hash (.pause true) s s₁ → Replay (Step hash) s₁ mid s₂ →
      (∀ l ∈ mid, l ≠ .resume ∧ l.begins = false) → Step hash l s₂ s₃ → l.commits = none) ∧
    -- a completed outcome means the layout was in place or the generation finished
    (∀ w outcome s', Step hash (.report w outcome) s s' → outcome.completed = true →
      ∃ job l, s.calls w = .reporting job l ∧
        (InPlace hash (State.new K V count) ls w job.target ∨ Finished ls job.generation)) ∧
    -- every stored entry is found, and only foreground writes change what is found
    (∀ k v, s.tables.Stores k v ↔ s.tables.lookup hash k = some v) ∧
    (∀ l s', Step hash l s s' → l.writes = false →
      ∀ k, s'.tables.lookup hash k = s.tables.lookup hash k) := by
  have h := Supervised.run hcount hr hwrap
  refine ⟨fun w k s' hs => ?_, fun w s₁ mid s₂ l s₃ hs hc hm hn hl hcom => ?_,
    fun s₁ mid s₂ l s₃ hs hm hq hl => ?_, fun w outcome s' hs hc => ?_,
    fun k v => h.laid.placed.stores_iff, fun l s' hs hw k => h.laid.lookup_step hs hw k⟩
  · generalize hl : Label.move (some w) k = l at hs
    cases hs with
    | move hb hst _ _ _ =>
      obtain ⟨ho, _⟩ := Label.move.inj hl
      have hfit := h.laid.stage _ hb
      rw [hst] at hfit
      obtain ⟨job, l, hj, hg⟩ := (h.bound _ hb).owner w ho.symm
      exact ⟨job, l, hj, hg.symm, (h.bound _ hb).paused, hfit.1⟩
    | _ => cases hl
  · obtain ⟨b, hb, ho⟩ := hl.of_commits hcom
    refine owner_run hm hn (fun b hb ho => ?_) b hb ho
    cases hs with
    | enterWorker job hw hfree =>
      have href : refuses (some job.generation) (s.cancelled w) (2 ^ 64 - 1) s.tracker = true := by
        simp [refuses, hc]
      rw [if_pos href] at hb
      have hb : s.batch = some b := hb
      rw [hfree] at hb
      cases hb
  · generalize hlp : Label.pause true = lp at hs
    cases hs with
    | pause hb =>
      have hmig : s.tracker.migrating = true := (Label.pause.inj hlp).symm
      have hheld : Held { s with tracker := s.tracker.pause true } :=
        ⟨hb, .inl (by simp [Progress.pause, hmig])⟩
      have hheld := hheld.run hm hq
      cases hcom : l.commits with
      | none => rfl
      | some owner =>
        obtain ⟨b, hb, _⟩ := hl.of_commits hcom
        rw [hheld.batch] at hb
        cases hb
    | _ => cases hlp
  · generalize hlr : Label.report w outcome = lr at hs
    cases hs with
    | report elapsedMs hw ho =>
      obtain ⟨rfl, rfl⟩ := Label.report.inj hlr
      refine ⟨_, _, hw, ?_⟩
      have hjob : s.jobs w = some _ := (congrArg Phase.job hw).trans rfl
      have hdone := h.sound.place w _ hjob
      rw [ho] at hc
      rcases (Bool.or_eq_true _ _).mp hc with hl | hfin
      · exact (h.sound.sure w _ hjob (by rw [hw]; exact hl)).imp_left hdone
      · obtain ⟨hg, hcomp⟩ := (Bool.and_eq_true _ _).mp hfin
        have hmig : s.tracker.migrating = false := by
          cases hm : s.tracker.migrating with
          | false => rfl
          | true =>
            rw [h.sound.open' hm] at hcomp
            cases hcomp
        rename_i job l
        cases ha : job.alreadyComplete with
        | true => exact .inl (hdone ha)
        | false => exact .inr (h.sound.ended w _ hjob ha (of_decide_eq_true hg).symm hmig)
    | _ => cases hlr

/-- One entry, one worker, and the batch that moves the entry. -/
theorem supervised_rebalance_moves :
    ∃ (s s' : State Nat Nat) (job : Job) (l : Locals),
      Step (fun k => k) (.move (some 0) 3) s s' ∧ s.calls 0 = .batching job l ∧
        s.tracker.telemetry.generation = job.generation ∧ s.tracker.telemetry.paused = false ∧
        s.tracker.migrating = true ∧ s.tables.lookup (fun k => k) 3 = some 7 := by
  have hr : ∃ l m, ∃ s s' : State Nat Nat, Replay (Step fun k => k) (State.new Nat Nat 1)
      [.insert 3 7, .claim 0 true, .spawned 0, .proceed 0, .enter (some 0), m] s ∧
        Step (fun k => k) l s s' ∧ m = .select (some 0) ∧ l = .move (some 0) 3 ∧
        s.tables.Stores 3 7 := by
    refine ⟨_, _, _, _, .cons (.insert 3 7 rfl) (.cons (.claim 0 2 ⟨false, 1, 0⟩ 2 0 0 rfl rfl rfl rfl)
      (.cons (.spawned rfl) (.cons (.proceed rfl rfl rfl rfl rfl) (.cons (.enterWorker _ rfl rfl)
      (.cons (.select [3] rfl rfl ?_ ?_ rfl ?_) .nil))))),
      .move (v := 7) rfl rfl rfl rfl rfl, rfl, rfl, ?_⟩
    · exact Nat.zero_lt_succ _
    · exact Nat.zero_lt_succ _
    · exact ⟨[3], 1, .refl _, Nat.le_refl _, fun hlt => absurd hlt (Nat.lt_irrefl _), rfl⟩
    · exact .inr ⟨_, rfl, 0, rfl⟩
  obtain ⟨_, _, s, s', hrun, hs, rfl, rfl, hst⟩ := hr
  have h := supervised_rebalance (by decide) hrun (by decide)
  obtain ⟨job, l, hj⟩ := h.1 0 3 s' hs
  exact ⟨s, s', job, l, hs, hj.1, hj.2.1, hj.2.2.1, hj.2.2.2, (h.2.2.2.2.1 3 7).mp hst⟩

end Starshard.Worker
