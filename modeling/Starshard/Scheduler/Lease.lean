import Mathlib.Data.List.Induction
import Mathlib.Data.List.Basic
import Starshard.Scheduler.Registry

/-! One lease at a time, finished once, with an exact record of its ticks. -/
namespace Starshard.Scheduler

open Concurrent

/-- The lease was claimed and `finish` has not run yet. -/
def Phase.isOpen : Phase → Bool
  | .claimed | .waiting | .ticking | .recording _ | .leaving | .dropping _ => true
  | .absent | .publishing _ _ | .completed | .gone => false

/-- The registry still names the control. -/
def Phase.held : Phase → Bool
  | .publishing _ _ => true
  | p => p.isOpen

/-- The tick that returned and is not recorded yet. -/
def Phase.unrecorded : Phase → List Nat
  | .recording evicted => [evicted]
  | _ => []

theorem Phase.held_of_isOpen {p : Phase} (h : p.isOpen = true) : p.held = true := by
  cases p <;> first | exact h | rfl

namespace Label

def returns (c : Nat) : Label → List Nat
  | .returned d evicted => if d = c then [evicted] else []
  | _ => []

def records (c : Nat) : Label → List Nat
  | .record d evicted => if d = c then [evicted] else []
  | _ => []

def finishes (c : Nat) : Label → Bool
  | .finish d _ => decide (d = c)
  | _ => false

end Label

/-- What the ticks of `c` that returned in the run reported. -/
def returns (c : Nat) (ls : List Label) : List Nat := ls.flatMap (Label.returns c)

def records (c : Nat) (ls : List Label) : List Nat := ls.flatMap (Label.records c)

/-- No stop of `c` was requested in the run. -/
def Unasked (c : Nat) (ls : List Label) : Prop := ∀ l ∈ ls, ∀ r, l.requests ≠ some (c, r)

@[simp] theorem returns_snoc (c : Nat) (ls : List Label) (l : Label) :
    returns c (ls ++ [l]) = returns c ls ++ l.returns c := by
  simp [returns]

@[simp] theorem records_snoc (c : Nat) (ls : List Label) (l : Label) :
    records c (ls ++ [l]) = records c ls ++ l.records c := by
  simp [records]

theorem finishes_snoc {c : Nat} {ls : List Label} {l : Label} (h : l.finishes c = false) :
    (ls ++ [l]).countP (Label.finishes c) = ls.countP (Label.finishes c) := by
  simp [List.countP_append, h]

theorem unasked_snoc {c : Nat} {ls : List Label} {l : Label} :
    Unasked c (ls ++ [l]) ↔ Unasked c ls ∧ ∀ r, l.requests ≠ some (c, r) := by
  unfold Unasked
  simp only [List.mem_append, List.mem_singleton]
  constructor
  · exact fun h => ⟨fun m hm => h m (.inl hm), h l (.inr rfl)⟩
  · rintro ⟨h, hl⟩ m (hm | rfl)
    · exact h m hm
    · exact hl

theorem saturatingAdd_min (m n : Nat) :
    saturatingAdd (min m (2 ^ 64 - 1)) n = min (m + n) (2 ^ 64 - 1) := by
  unfold saturatingAdd
  omega

namespace EvictionWorkerStatus

@[simp] theorem cancel_running (r : EvictionWorkerStop) (p : EvictionWorkerStatus) :
    (p.cancel r).running = p.running := by
  unfold cancel
  split <;> rfl

@[simp] theorem cancel_generation (r : EvictionWorkerStop) (p : EvictionWorkerStatus) :
    (p.cancel r).generation = p.generation := by
  unfold cancel
  split <;> rfl

@[simp] theorem cancel_ticks (r : EvictionWorkerStop) (p : EvictionWorkerStatus) :
    (p.cancel r).ticks = p.ticks := by
  unfold cancel
  split <;> rfl

@[simp] theorem cancel_evicted (r : EvictionWorkerStop) (p : EvictionWorkerStatus) :
    (p.cancel r).evicted = p.evicted := by
  unfold cancel
  split <;> rfl

theorem cancel_of_ended {r : EvictionWorkerStop} {p : EvictionWorkerStatus}
    (h : p.running = false) : p.cancel r = p := by
  simp [cancel, h]

theorem cancel_of_stopped {r q : EvictionWorkerStop} {p : EvictionWorkerStatus}
    (h : p.stopReason = some q) : (p.cancel r).stopReason = some q := by
  simp [cancel, h]

end EvictionWorkerStatus

structure Inv (ls : List Label) (s : State) : Prop where
  known : ∀ c, (s.phases c).held = true → c < s.claims
  absent : ∀ c, s.claims ≤ c → s.phases c = .absent
  owned : ∀ c, (s.phases c).held = true → s.active = some c ∧ c + 1 = s.claims
  active : ∀ c, s.active = some c → (s.phases c).held = true
  lease : ∀ c, (s.leases c).active = (s.phases c).isOpen
  running : ∀ c, (s.controls c).running = (s.phases c).isOpen
  generation : s.generation = s.claims % 2 ^ 64
  number : ∀ c < s.claims, (s.controls c).generation = (c + 1) % 2 ^ 64
  status : ∀ c st b, s.phases c = .publishing st b → st = s.controls c
  ticks : ∀ c, (s.controls c).ticks = min (records c ls).length (2 ^ 64 - 1)
  evicted : ∀ c, (s.controls c).evicted = min (records c ls).sum (2 ^ 64 - 1)
  returned : ∀ c, returns c ls = records c ls ++ (s.phases c).unrecorded
  asked : ∀ c, (s.controls c).running = true → Unasked c ls → (s.controls c).stopReason = none
  ended : ∀ c < s.claims, (s.controls c).running = false → (s.controls c).stopReason ≠ none
  finished : ∀ c, ls.countP (Label.finishes c) =
    if c < s.claims ∧ (s.phases c).isOpen = false then 1 else 0
  unclaimed : ∀ c, s.claims ≤ c → records c ls = []

theorem Inv.new : Inv [] .new where
  known _ h := by cases h
  absent _ _ := rfl
  owned _ h := by cases h
  active _ h := by cases h
  lease _ := rfl
  running _ := rfl
  generation := rfl
  number _ h := by cases h
  status _ _ _ h := by cases h
  ticks _ := rfl
  evicted _ := rfl
  returned _ := rfl
  asked _ h := by cases h
  ended _ h := by cases h
  finished _ := rfl
  unclaimed _ _ := rfl

section Update

variable {s : State} {c d : Nat} {p : Phase}

@[simp] theorem State.phases_goto :
    (s.goto c p).phases d = if d = c then p else s.phases d := by
  by_cases h : d = c
  · subst h
    simp [State.goto]
  · simp [State.goto, h]

@[simp] theorem State.controls_progress {f : EvictionWorkerStatus → EvictionWorkerStatus} :
    (s.progress c f).controls d = if d = c then f (s.controls c) else s.controls d := by
  by_cases h : d = c
  · subst h
    simp [State.progress]
  · simp [State.progress, h]

@[simp] theorem State.publish_controls {status : EvictionWorkerStatus} {completing : Bool} :
    (s.publish c status completing).controls = s.controls := by
  unfold State.publish
  dsimp only
  split <;> split <;> rfl

@[simp] theorem State.publish_claims {status : EvictionWorkerStatus} {completing : Bool} :
    (s.publish c status completing).claims = s.claims := by
  unfold State.publish
  dsimp only
  split <;> split <;> rfl

end Update

namespace Inv

variable {ls : List Label} {l : Label} {s s' : State} {c : Nat} {p : Phase}

theorem move (h : Inv ls s) (ho : (s.phases c).isOpen = true) (hp : p.isOpen = true)
    (hrec : ∀ d, l.records d = [])
    (hret : ∀ d, (s.phases d).unrecorded ++ l.returns d = ((s.goto c p).phases d).unrecorded)
    (hfin : ∀ d, l.finishes d = false) : Inv (ls ++ [l]) (s.goto c p) := by
  have hopen (d : Nat) : ((s.goto c p).phases d).isOpen = (s.phases d).isOpen := by
    rw [State.phases_goto]
    split
    · next hd => rw [hd, ho, hp]
    · rfl
  have hheld (d : Nat) : ((s.goto c p).phases d).held = (s.phases d).held := by
    rw [State.phases_goto]
    split
    · next hd => rw [hd, Phase.held_of_isOpen ho, Phase.held_of_isOpen hp]
    · rfl
  refine ⟨fun d hd => h.known d (by rwa [hheld] at hd), fun d hd => ?_,
    fun d hd => h.owned d (by rwa [hheld] at hd), fun d hd => by rw [hheld]; exact h.active d hd,
    fun d => by rw [hopen]; exact h.lease d, fun d => by rw [hopen]; exact h.running d,
    h.generation, h.number, fun d st b hd => ?_, fun d => ?_, fun d => ?_, fun d => ?_,
    fun d hr hu => h.asked d hr (unasked_snoc.mp hu).1, h.ended, fun d => ?_,
    fun d hd => by rw [records_snoc, hrec, List.append_nil]; exact h.unclaimed d hd⟩
  · rw [State.phases_goto, if_neg]
    · exact h.absent d hd
    · rintro rfl
      rw [h.absent d hd] at ho
      cases ho
  · rw [State.phases_goto] at hd
    split at hd
    · rw [hd] at hp
      cases hp
    · exact h.status d st b hd
  · rw [records_snoc, hrec, List.append_nil]
    exact h.ticks d
  · rw [records_snoc, hrec, List.append_nil]
    exact h.evicted d
  · rw [returns_snoc, records_snoc, hrec, List.append_nil, h.returned, List.append_assoc, hret]
  · rw [finishes_snoc (hfin d), hopen]
    exact h.finished d

theorem request (h : Inv ls s) {r : EvictionWorkerStop} (hl : l.requests = some (c, r))
    (hrec : ∀ d, l.records d = []) (hret : ∀ d, l.returns d = [])
    (hfin : ∀ d, l.finishes d = false) : Inv (ls ++ [l]) (s.progress c (.cancel r)) := by
  have hcontrol {α : Type} (f : EvictionWorkerStatus → α) (hf : f ((s.controls c).cancel r) =
      f (s.controls c)) (d : Nat) : f ((s.progress c (.cancel r)).controls d) =
      f (s.controls d) := by
    rw [State.controls_progress]
    split
    · next hd => rw [hd, hf]
    · rfl
  have hrun := hcontrol (·.running) (by simp)
  refine ⟨h.known, h.absent, h.owned, h.active, h.lease, fun d => (hrun d).trans (h.running d),
    h.generation, fun d hd => (hcontrol (·.generation) (by simp) d).trans (h.number d hd),
    fun d st b hd => ?_, fun d => ?_, fun d => ?_, fun d => ?_, fun d hr hu => ?_,
    fun d hd hr => ?_, fun d => ?_,
    fun d hd => by rw [records_snoc, hrec, List.append_nil]; exact h.unclaimed d hd⟩
  · rw [h.status d st b hd, State.controls_progress]
    split
    · next hdc =>
      subst hdc
      have hd : s.phases d = .publishing st b := hd
      have : (s.controls d).running = false := by rw [h.running, hd]; rfl
      rw [EvictionWorkerStatus.cancel_of_ended this]
    · rfl
  · rw [records_snoc, hrec, List.append_nil]
    exact (hcontrol (·.ticks) (by simp) d).trans (h.ticks d)
  · rw [records_snoc, hrec, List.append_nil]
    exact (hcontrol (·.evicted) (by simp) d).trans (h.evicted d)
  · rw [returns_snoc, records_snoc, hrec, hret, List.append_nil, List.append_nil]
    exact h.returned d
  · have hne : d ≠ c := by
      rintro rfl
      exact (unasked_snoc.mp hu).2 r hl
    rw [State.controls_progress, if_neg hne] at hr ⊢
    exact h.asked d hr (unasked_snoc.mp hu).1
  · rw [hrun] at hr
    rw [State.controls_progress]
    split
    · next hdc =>
      subst hdc
      rw [EvictionWorkerStatus.cancel_of_ended hr]
      exact h.ended d hd hr
    · exact h.ended d hd hr
  · rw [finishes_snoc (hfin d)]
    exact h.finished d

theorem aside (h : Inv ls s) (handles : Nat → Bool) (pending : List Nat) :
    Inv ls { s with handles := handles, pending := pending } :=
  ⟨h.known, h.absent, h.owned, h.active, h.lease, h.running, h.generation, h.number, h.status,
    h.ticks, h.evicted, h.returned, h.asked, h.ended, h.finished, h.unclaimed⟩

theorem quiet (h : Inv ls s) (hrec : ∀ d, l.records d = [])
    (hret : ∀ d, l.returns d = []) (hfin : ∀ d, l.finishes d = false) : Inv (ls ++ [l]) s := by
  refine ⟨h.known, h.absent, h.owned, h.active, h.lease, h.running, h.generation, h.number,
    h.status, fun d => ?_, fun d => ?_, fun d => ?_,
    fun d hr hu => h.asked d hr (unasked_snoc.mp hu).1, h.ended, fun d => ?_,
    fun d hd => by rw [records_snoc, hrec, List.append_nil]; exact h.unclaimed d hd⟩
  · rw [records_snoc, hrec, List.append_nil]
    exact h.ticks d
  · rw [records_snoc, hrec, List.append_nil]
    exact h.evicted d
  · rw [returns_snoc, records_snoc, hrec, hret, List.append_nil, List.append_nil]
    exact h.returned d
  · rw [finishes_snoc (hfin d)]
    exact h.finished d

/-- `record_tick` counts the tick that returned. -/
theorem record (h : Inv ls s) {evicted : Nat} (hc : s.phases c = .recording evicted) :
    Inv (ls ++ [.record c evicted]) ((s.progress c (.recordTick evicted)).goto c .waiting) := by
  have hopen (d : Nat) : (((s.progress c (.recordTick evicted)).goto c .waiting).phases d).isOpen =
      (s.phases d).isOpen := by
    rw [State.phases_goto]
    split
    · next hd => rw [hd, hc]; rfl
    · rfl
  have hheld (d : Nat) : (((s.progress c (.recordTick evicted)).goto c .waiting).phases d).held =
      (s.phases d).held := by
    rw [State.phases_goto]
    split
    · next hd => rw [hd, hc]; rfl
    · rfl
  have hcontrol {α : Type} (f : EvictionWorkerStatus → α)
      (hf : f ((s.controls c).recordTick evicted) = f (s.controls c)) (d : Nat) :
      f ((s.progress c (.recordTick evicted)).controls d) = f (s.controls d) := by
    rw [State.controls_progress]
    split
    · next hd => rw [hd, hf]
    · rfl
  have hrun := hcontrol (·.running) rfl
  have hstop := hcontrol (·.stopReason) rfl
  refine ⟨fun d hd => h.known d (by rwa [hheld] at hd), fun d hd => ?_,
    fun d hd => h.owned d (by rwa [hheld] at hd), fun d hd => by rw [hheld]; exact h.active d hd,
    fun d => by rw [hopen]; exact h.lease d, fun d => by rw [hopen]; exact (hrun d).trans (h.running d),
    h.generation, fun d hd => (hcontrol (·.generation) rfl d).trans (h.number d hd),
    fun d st b hd => ?_, fun d => ?_, fun d => ?_, fun d => ?_,
    fun d hr hu => (hstop d).trans (h.asked d ((hrun d).symm.trans hr) (unasked_snoc.mp hu).1),
    fun d hd hr => ?_, fun d => ?_, fun d hd => ?_⟩
  · rw [State.phases_goto, if_neg]
    · exact h.absent d hd
    · rintro rfl
      rw [h.absent d hd] at hc
      cases hc
  · rw [State.phases_goto] at hd
    split at hd
    · cases hd
    · next hne =>
      change st = (s.progress c _).controls d
      rw [State.controls_progress, if_neg hne]
      exact h.status d st b hd
  · change ((s.progress c _).controls d).ticks = _
    rw [State.controls_progress, records_snoc]
    split
    · next hd =>
      subst hd
      simp only [EvictionWorkerStatus.recordTick, Label.records, if_true, h.ticks,
        saturatingAdd_min, List.length_append, List.length_singleton]
    · next hd => simp [Label.records, Ne.symm hd, h.ticks]
  · change ((s.progress c _).controls d).evicted = _
    rw [State.controls_progress, records_snoc]
    split
    · next hd =>
      subst hd
      simp only [EvictionWorkerStatus.recordTick, Label.records, if_true, h.evicted,
        saturatingAdd_min, List.sum_append, List.sum_singleton]
    · next hd => simp [Label.records, Ne.symm hd, h.evicted]
  · rw [returns_snoc, records_snoc, State.phases_goto, h.returned]
    by_cases hd : d = c
    · subst hd
      rw [hc]
      simp [Label.returns, Label.records, Phase.unrecorded]
    · simp [Label.returns, Label.records, Ne.symm hd, hd, State.progress]
  · have hr := (hrun d).symm.trans hr
    intro hs
    exact h.ended d hd hr ((hstop d).symm.trans hs)
  · rw [finishes_snoc rfl, hopen]
    exact h.finished d
  · have hne : c ≠ d := by
      rintro rfl
      rw [h.absent c hd] at hc
      cases hc
    simpa [Label.records, hne] using h.unclaimed d hd

theorem isOpen_lt (h : Inv ls s) (ho : (s.phases c).isOpen = true) : c < s.claims :=
  h.known c (Phase.held_of_isOpen ho)

/-- The lease of an open phase is finished, once. -/
theorem finish (h : Inv ls s) {panicking completing : Bool} (ho : (s.phases c).isOpen = true)
    (hu : (s.phases c).unrecorded = []) :
    Inv (ls ++ [.finish c panicking]) (s.finish c panicking completing) := by
  have hact : (s.leases c).active = true := (h.lease c).trans ho
  unfold State.finish
  rw [if_pos hact]
  dsimp only
  set status := (s.controls c).finish panicking (s.leases c).unexpectedStop with hstatus
  have hphase (d : Nat) : Function.update s.phases c (.publishing status completing) d =
      if d = c then .publishing status completing else s.phases d := by
    by_cases hd : d = c
    · subst hd; simp
    · simp [hd]
  have hcontrol (d : Nat) : Function.update s.controls c status d =
      if d = c then status else s.controls d := by
    by_cases hd : d = c
    · subst hd; simp
    · simp [hd]
  have hrec (d : Nat) : records d (ls ++ [.finish c panicking]) = records d ls := by
    simp [Label.records]
  have hheld (d : Nat) : (Function.update s.phases c (.publishing status completing) d).held =
      (s.phases d).held := by
    rw [hphase]
    split
    · next hd => rw [hd, Phase.held_of_isOpen ho]; rfl
    · rfl
  refine ⟨fun d hd => h.known d (by rwa [hheld] at hd), fun d hd => ?_,
    fun d hd => h.owned d (by rwa [hheld] at hd), fun d hd => by rw [hheld]; exact h.active d hd,
    fun d => ?_, fun d => ?_, h.generation, fun d hd => ?_, fun d st b hd => ?_, fun d => ?_,
    fun d => ?_, fun d => ?_, fun d hr hu => ?_, fun d hd hr => ?_, fun d => ?_,
    fun d hd => (hrec d).trans (h.unclaimed d hd)⟩
  · dsimp only
    rw [hphase, if_neg]
    · exact h.absent d hd
    · rintro rfl
      exact absurd (h.isOpen_lt ho) (Nat.not_lt.mpr hd)
  · dsimp only
    rw [hphase]
    by_cases hd : d = c
    · subst hd
      simp [Phase.isOpen]
    · simpa [hd] using h.lease d
  · dsimp only
    rw [hphase, hcontrol]
    by_cases hd : d = c
    · subst hd
      simp [hstatus, EvictionWorkerStatus.finish, Phase.isOpen]
    · simpa [hd] using h.running d
  · dsimp only
    rw [hcontrol]
    split
    · next hdc => rw [hdc] at hd ⊢; exact h.number c hd
    · exact h.number d hd
  · dsimp only at hd
    rw [hphase] at hd
    dsimp only
    rw [hcontrol]
    split at hd
    · next hdc =>
      rw [if_pos hdc]
      cases hd
      rfl
    · next hdc =>
      rw [if_neg hdc]
      exact h.status d st b hd
  · dsimp only
    rw [hcontrol, hrec]
    split
    · next hd => rw [hd]; exact h.ticks c
    · exact h.ticks d
  · dsimp only
    rw [hcontrol, hrec]
    split
    · next hd => rw [hd]; exact h.evicted c
    · exact h.evicted d
  · dsimp only
    rw [hrec, hphase, returns_snoc]
    split
    · next hd =>
      subst hd
      rw [h.returned d, hu]
      simp [Label.returns, Phase.unrecorded]
    · simpa [Label.returns] using h.returned d
  · dsimp only at hr ⊢
    rw [hcontrol] at hr ⊢
    split at hr
    · cases hr
    · next hd =>
      rw [if_neg hd]
      exact h.asked d hr (unasked_snoc.mp hu).1
  · dsimp only at hr ⊢
    rw [hcontrol] at hr ⊢
    split at hr
    · next hdc =>
      rw [if_pos hdc, hstatus, EvictionWorkerStatus.finish]
      dsimp only
      split
      · simp
      · split
        · simp
        · assumption
    · next hdc =>
      rw [if_neg hdc]
      exact h.ended d hd hr
  · dsimp only
    rw [List.countP_append, h.finished d]
    simp only [hphase]
    by_cases hd : d = c
    · subst hd
      rw [if_neg (by rw [ho]; simp), if_pos rfl, if_pos ⟨h.isOpen_lt ho, rfl⟩]
      simp [Label.finishes]
    · simp [hd, Label.finishes, Ne.symm hd]

theorem fade (h : Inv ls s) (ho : (s.phases c).held = false) (hc : c < s.claims)
    (hu : (s.phases c).unrecorded = []) (hp : p = .completed ∨ p = .gone)
    (hrec : ∀ d, l.records d = []) (hret : ∀ d, l.returns d = [])
    (hfin : ∀ d, l.finishes d = false) : Inv (ls ++ [l]) (s.goto c p) := by
  have hp' : p.held = false ∧ p.isOpen = false ∧ p.unrecorded = [] := by
    rcases hp with rfl | rfl <;> exact ⟨rfl, rfl, rfl⟩
  have hopen' : (s.phases c).isOpen = false := by
    cases hi : (s.phases c).isOpen with
    | false => rfl
    | true => rw [Phase.held_of_isOpen hi] at ho; cases ho
  have hopen (d : Nat) : ((s.goto c p).phases d).isOpen = (s.phases d).isOpen := by
    rw [State.phases_goto]
    split
    · next hd => rw [hd, hopen', hp'.2.1]
    · rfl
  have hheld (d : Nat) : ((s.goto c p).phases d).held = (s.phases d).held := by
    rw [State.phases_goto]
    split
    · next hd => rw [hd, ho, hp'.1]
    · rfl
  have hq := h.quiet hrec hret hfin
  refine ⟨fun d hd => h.known d (by rwa [hheld] at hd), fun d hd => ?_,
    fun d hd => h.owned d (by rwa [hheld] at hd), fun d hd => by rw [hheld]; exact h.active d hd,
    fun d => by rw [hopen]; exact h.lease d, fun d => by rw [hopen]; exact h.running d,
    h.generation, h.number, fun d st b hd => ?_, hq.ticks, hq.evicted, fun d => ?_, hq.asked,
    h.ended, fun d => by rw [hopen]; exact hq.finished d, hq.unclaimed⟩
  · rw [State.phases_goto, if_neg]
    · exact h.absent d hd
    · rintro rfl
      exact absurd hc (Nat.not_lt.mpr hd)
  · rw [State.phases_goto] at hd
    split at hd
    · rcases hp with rfl | rfl <;> cases hd
    · exact h.status d st b hd
  · rw [State.phases_goto]
    split
    · next hd => rw [hd, hq.returned c, hu, hp'.2.2]
    · exact hq.returned d

/-- The registry still has the generation of a lease that is being finished. -/
theorem publishing (h : Inv ls s) {status : EvictionWorkerStatus} {completing : Bool}
    (hc : s.phases c = .publishing status completing) :
    s.active = some c ∧ c < s.claims ∧ status = s.controls c ∧
      s.generation = status.generation := by
  have hheld : (s.phases c).held = true := by rw [hc]; rfl
  obtain ⟨hact, hlast⟩ := h.owned c hheld
  have hst := h.status c _ _ hc
  refine ⟨hact, by omega, hst, ?_⟩
  rw [hst, h.number c (by omega), h.generation, hlast]

/-- The registration is cleared and its status recorded. -/
theorem publish (h : Inv ls s) {status : EvictionWorkerStatus} {completing : Bool}
    (hc : s.phases c = .publishing status completing) :
    Inv (ls ++ [.publish c]) (s.publish c status completing) := by
  obtain ⟨hact, hlt, hst, hgen⟩ := h.publishing hc
  have hnone (d : Nat) (hd : d ≠ c) : (s.phases d).held = false := by
    cases hh : (s.phases d).held with
    | false => rfl
    | true =>
      have := (h.owned d hh).1
      rw [hact] at this
      exact absurd (Option.some.inj this).symm hd
  have hq := h.quiet (l := .publish c) (fun _ => rfl) (fun _ => rfl) fun _ => rfl
  set q : Phase := if completing then .completed else .gone with hqdef
  have hq' : q.held = false ∧ q.isOpen = false ∧ q.unrecorded = [] := by
    rw [hqdef]
    cases completing <;> exact ⟨rfl, rfl, rfl⟩
  have he : s.publish c status completing =
      { s.goto c q with active := none, last := status } := by
    unfold State.publish
    exact if_pos hgen
  have hphase (d : Nat) : (s.publish c status completing).phases d =
      if d = c then q else s.phases d := by
    rw [he]
    exact State.phases_goto
  have hheld (d : Nat) : ((s.publish c status completing).phases d).held = false := by
    rw [hphase]
    split
    · exact hq'.1
    · next hd => exact hnone d hd
  have hopen (d : Nat) : ((s.publish c status completing).phases d).isOpen =
      (s.phases d).isOpen := by
    rw [hphase]
    split
    · next hd => rw [hd, hc, hq'.2.1]; rfl
    · rfl
  refine ⟨fun d hd => (by rw [hheld] at hd; cases hd), fun d hd => ?_,
    fun d hd => (by rw [hheld] at hd; cases hd), fun d hd => (by rw [he] at hd; cases hd),
    fun d => by rw [hopen, he]; exact h.lease d, fun d => by rw [hopen, he]; exact h.running d,
    by rw [he]; exact h.generation, by rw [he]; exact h.number, fun d st b hd => ?_,
    by rw [he]; exact hq.ticks, by rw [he]; exact hq.evicted, fun d => ?_,
    by rw [he]; exact hq.asked, by rw [he]; exact h.ended, fun d => ?_,
    by rw [he]; exact hq.unclaimed⟩
  · rw [hphase, if_neg]
    · exact h.absent d (by rwa [he] at hd)
    · rintro rfl
      rw [he] at hd
      exact absurd hlt (Nat.not_lt.mpr hd)
  · have := hheld d
    rw [hd] at this
    cases this
  · rw [hphase, hq.returned d]
    split
    · next hd => rw [hd, hc, hq'.2.2]; rfl
    · rfl
  · rw [hopen, hq.finished d, he]
    rfl

theorem upgrade_eq (h : Inv ls s) : s.upgrade = s.active := by
  unfold State.upgrade
  cases ha : s.active with
  | none => rfl
  | some c =>
    have hh := h.active c ha
    rw [Option.filter_some, if_pos]
    unfold State.alive
    cases hp : s.phases c with
    | absent | gone => rw [hp] at hh; cases hh
    | _ => simp

theorem claim (h : Inv ls s) {r : EvictionWorkerStop} (hfree : s.active = none) :
    Inv (ls ++ [.claim s.claims]) (s.claim r).1 := by
  have hnone (d : Nat) : (s.phases d).held = false := by
    cases hh : (s.phases d).held with
    | false => rfl
    | true =>
      have := (h.owned d hh).1
      rw [hfree] at this
      cases this
  have habs := h.absent s.claims (Nat.le_refl _)
  have hq := h.quiet (l := .claim s.claims) (fun _ => rfl) (fun _ => rfl) fun _ => rfl
  unfold State.claim
  rw [if_neg (by rw [h.upgrade_eq, hfree]; simp)]
  dsimp only
  have hgen : Progress.nextGeneration s.generation = (s.claims + 1) % 2 ^ 64 := by
    rw [Progress.nextGeneration, h.generation]
    omega
  set g := Progress.nextGeneration s.generation with hg
  have hphase (d : Nat) : Function.update s.phases s.claims .claimed d =
      if d = s.claims then .claimed else s.phases d := by
    by_cases hd : d = s.claims <;> simp [hd]
  have hcontrol (d : Nat) : Function.update s.controls s.claims (.new g) d =
      if d = s.claims then .new g else s.controls d := by
    by_cases hd : d = s.claims <;> simp [hd]
  have hempty := hq.unclaimed s.claims (Nat.le_refl _)
  have hheld (d : Nat) (hd : (Function.update s.phases s.claims .claimed d).held = true) :
      d = s.claims := by
    rw [hphase] at hd
    split at hd
    · assumption
    · rw [hnone d] at hd
      cases hd
  refine ⟨fun d hd => ?_, fun d hd => ?_, fun d hd => ?_, fun d hd => ?_, fun d => ?_,
    fun d => ?_, hgen, fun d hd => ?_, fun d st b hd => ?_, fun d => ?_, fun d => ?_, fun d => ?_,
    fun d hr hu => ?_, fun d hd hr => ?_, fun d => ?_,
    fun d hd => hq.unclaimed d (Nat.le_of_succ_le hd)⟩
  · rw [hheld d hd]
    exact Nat.lt_succ_self _
  · have hd : s.claims + 1 ≤ d := hd
    dsimp only
    rw [hphase, if_neg (by omega)]
    exact h.absent d (by omega)
  · rw [hheld d hd]
    exact ⟨rfl, rfl⟩
  · cases hd
    simp [Phase.held, Phase.isOpen]
  · dsimp only
    rw [hphase]
    by_cases hd : d = s.claims
    · simp [hd, Phase.isOpen]
    · simpa [hd] using h.lease d
  · dsimp only
    rw [hphase, hcontrol]
    by_cases hd : d = s.claims
    · simp [hd, EvictionWorkerStatus.new, Phase.isOpen]
    · simpa [hd] using h.running d
  · dsimp only
    rw [hcontrol]
    split
    · next hdc => rw [hdc]; exact hgen
    · next hdc =>
      have hd : d < s.claims + 1 := hd
      exact h.number d (by omega)
  · have hd : Function.update s.phases s.claims .claimed d = .publishing st b := hd
    rw [hphase] at hd
    split at hd
    · cases hd
    · have := hnone d
      rw [hd] at this
      cases this
  · dsimp only
    rw [hcontrol]
    split
    · next hd => rw [hd, hempty]; rfl
    · exact hq.ticks d
  · dsimp only
    rw [hcontrol]
    split
    · next hd => rw [hd, hempty]; rfl
    · exact hq.evicted d
  · dsimp only
    rw [hphase, hq.returned d]
    split
    · next hd => rw [hd, habs]; rfl
    · rfl
  · have hr : (Function.update s.controls s.claims (.new g) d).running = true := hr
    dsimp only
    rw [hcontrol] at hr ⊢
    split
    · rfl
    · next hd =>
      rw [if_neg hd] at hr
      exact h.asked d hr (unasked_snoc.mp hu).1
  · have hd : d < s.claims + 1 := hd
    have hr : (Function.update s.controls s.claims (.new g) d).running = false := hr
    dsimp only
    rw [hcontrol] at hr ⊢
    split
    · next hdc =>
      rw [if_pos hdc] at hr
      cases hr
    · next hdc =>
      rw [if_neg hdc] at hr
      exact h.ended d (by omega) hr
  · rw [hq.finished d]
    simp only [hphase]
    by_cases hd : d = s.claims
    · simp [hd, Phase.isOpen]
    · have : d < s.claims + 1 ↔ d < s.claims := by omega
      simp [hd, this]

end Inv

/-- A start call is refused as it is or makes a claim. -/
theorem State.start_cases (a : Attempt) (s : State) :
    (∃ e, s.start a = (s, .error e)) ∨ ∃ r, s.start a = s.claim r := by
  cases a with
  | sync interval representable =>
    unfold State.start
    dsimp only
    split
    · exact .inl ⟨_, rfl⟩
    · exact .inr ⟨_, rfl⟩
  | async interval representable runtime timer =>
    unfold State.start
    dsimp only
    split
    · exact .inl ⟨_, rfl⟩
    · split
      · exact .inl ⟨_, rfl⟩
      · split
        · exact .inl ⟨_, rfl⟩
        · exact .inr ⟨_, rfl⟩

theorem State.claim_error {s : State} {r : EvictionWorkerStop} {e : EvictionSchedulerError}
    (h : (s.claim r).2 = .error e) : (s.claim r).1 = s := by
  unfold State.claim at *
  split at h
  · next hu => rw [if_pos hu]
  · cases h

theorem State.claim_ok {s : State} {r : EvictionWorkerStop} {c : Nat}
    (h : (s.claim r).2 = .ok c) : c = s.claims ∧ s.upgrade = none := by
  unfold State.claim at h
  split at h
  · cases h
  · next hu =>
    cases h
    exact ⟨rfl, by simpa using hu⟩

/-- A failed start leaves the registry as it was. -/
theorem State.start_error {s : State} {a : Attempt} {e : EvictionSchedulerError}
    (h : (s.start a).2 = .error e) : (s.start a).1 = s := by
  rcases State.start_cases a s with ⟨e', he⟩ | ⟨r, he⟩
  · rw [he]
  · rw [he] at h ⊢
    exact State.claim_error h

theorem State.start_ok {s : State} {a : Attempt} {c : Nat} (h : (s.start a).2 = .ok c) :
    ∃ r, s.start a = s.claim r ∧ c = s.claims ∧ s.upgrade = none := by
  rcases State.start_cases a s with ⟨e, he⟩ | ⟨r, he⟩
  · rw [he] at h
    cases h
  · rw [he] at h
    exact ⟨r, he, State.claim_ok h⟩

theorem Inv.step {ls : List Label} {l : Label} {s s' : State} (h : Inv ls s) (hs : Step l s s') :
    Inv (ls ++ [l]) s' := by
  cases hs with
  | fail a he =>
    rw [State.start_error he]
    exact h.quiet (fun _ => rfl) (fun _ => rfl) fun _ => rfl
  | claim a hc =>
    obtain ⟨r, he, rfl, hu⟩ := State.start_ok hc
    rw [he]
    exact h.claim (h.upgrade_eq ▸ hu)
  | spawned hp | refuse _ hp | tick hp _ | exit hp _ | overflow hp _ | abandon hp _ _ | panic hp =>
    refine h.move (by rw [hp]; rfl) rfl (fun _ => rfl) (fun d => ?_) fun _ => rfl
    rw [State.phases_goto]
    split
    · next hd => rw [hd, hp]; rfl
    · exact List.append_nil _
  | returned c evicted hp =>
    refine h.move (by rw [hp]; rfl) rfl (fun _ => rfl) (fun d => ?_) fun _ => rfl
    rw [State.phases_goto]
    by_cases hd : d = c
    · rw [if_pos hd, hd, hp]
      simp [Label.returns, Phase.unrecorded]
    · rw [if_neg hd]
      simp [Label.returns, Ne.symm hd]
  | dropped c _ hp _ =>
    have ho : (s.phases c).isOpen = true ∧ (s.phases c).unrecorded = [] := by
      rcases hp with hp | hp <;> rw [hp] <;> exact ⟨rfl, rfl⟩
    refine h.move ho.1 rfl (fun _ => rfl) (fun d => ?_) fun _ => rfl
    rw [State.phases_goto]
    split
    · next hd => rw [hd, ho.2]; rfl
    · exact List.append_nil _
  | record hp => exact h.record hp
  | complete hp | drop hp => exact h.finish (by rw [hp]; rfl) (by rw [hp]; rfl)
  | again hp =>
    have hopen : (s.leases _).active = false := (h.lease _).trans (by rw [hp]; rfl)
    unfold State.finish
    rw [if_neg (by rw [hopen]; simp)]
    refine h.fade (by rw [hp]; rfl) ?_ (by rw [hp]; rfl) (.inr rfl) (fun _ => rfl) (fun _ => rfl)
      fun _ => rfl
    by_contra hlt
    rw [h.absent _ (Nat.le_of_not_lt hlt)] at hp
    cases hp
  | publish hp => exact h.publish hp
  | cancel _ => exact h.request rfl (fun _ => rfl) (fun _ => rfl) fun _ => rfl
  | dropHandle _ =>
    exact (h.request (l := .dropHandle _) rfl (fun _ => rfl) (fun _ => rfl) fun _ => rfl).aside _ _
  | ownersDropped =>
    exact (h.quiet (l := .ownersDropped) (fun _ => rfl) (fun _ => rfl) fun _ => rfl).aside _ _
  | deliver _ =>
    exact (h.request (l := .deliver _) rfl (fun _ => rfl) (fun _ => rfl) fun _ => rfl).aside _ _

theorem Inv.run {ls : List Label} {s : State} (h : Replay Step .new ls s) : Inv ls s := by
  induction ls using List.reverseRecOn generalizing s with
  | nil =>
    rw [h.nil_eq]
    exact .new
  | append_singleton ls l ih =>
    obtain ⟨s₁, h₁, hl⟩ := h.of_append
    cases hl with
    | cons hs hnil =>
      cases hnil
      exact (ih h₁).step hs

/-- Only a panic replaces a stop reason. -/
theorem Step.stopReason {l : Label} {s s' : State} (hs : Step l s s') {c : Nat} {r : EvictionWorkerStop} (hc : c < s.claims)
    (hr : (s.controls c).stopReason = some r) :
    (s'.controls c).stopReason = some r ∨
      l = .finish c true ∧ (s'.controls c).stopReason = some .panicked := by
  have hrequest (d : Nat) (q : EvictionWorkerStop) :
      ((s.progress d (.cancel q)).controls c).stopReason = some r := by
    rw [State.controls_progress]
    split
    · next hd => exact EvictionWorkerStatus.cancel_of_stopped (hd ▸ hr)
    · exact hr
  have hfinish (d : Nat) (panicking completing : Bool) :
      ((s.finish d panicking completing).controls c).stopReason = some r ∨
        (panicking = true ∧ d = c ∧
          ((s.finish d panicking completing).controls c).stopReason = some .panicked) := by
    unfold State.finish
    split
    · by_cases hd : c = d
      · subst hd
        cases panicking with
        | true => exact .inr ⟨rfl, rfl, by simp [EvictionWorkerStatus.finish]⟩
        | false => exact .inl (by simp [EvictionWorkerStatus.finish, hr])
      · exact .inl (by simpa [hd] using hr)
    · exact .inl hr
  cases hs with
  | fail a he => rw [State.start_error he]; exact .inl hr
  | claim a hcl =>
    obtain ⟨q, he, rfl, hu⟩ := State.start_ok hcl
    rw [he]
    unfold State.claim
    rw [if_neg (by rw [hu]; simp)]
    left
    dsimp only
    rw [Function.update_of_ne (by omega)]
    exact hr
  | record hp =>
    left
    change ((State.progress _ _ s).controls c).stopReason = some r
    rw [State.controls_progress]
    split
    · next hd => rw [hd] at hr; exact hr
    · exact hr
  | complete hp =>
    rcases hfinish _ false true with hf | ⟨hf, _⟩
    · exact .inl hf
    · cases hf
  | drop hp =>
    rename_i d panicking
    rcases hfinish d panicking false with hf | ⟨rfl, rfl, hf⟩
    · exact .inl hf
    · exact .inr ⟨rfl, hf⟩
  | again hp =>
    rcases hfinish _ false false with hf | ⟨hf, _⟩
    · exact .inl hf
    · cases hf
  | publish hp =>
    left
    rw [State.publish_controls]
    exact hr
  | cancel _ | dropHandle _ | deliver _ => exact .inl (hrequest _ _)
  | spawned | refuse | tick | returned | exit | overflow | abandon | panic | dropped
  | ownersDropped => exact .inl hr

theorem Step.claims_le {l : Label} {s s' : State} (hs : Step l s s') : s.claims ≤ s'.claims := by
  cases hs with
  | fail a he =>
    exact Nat.le_of_eq (by rw [State.start_error he])
  | claim a hcl =>
    obtain ⟨q, he, rfl, hu⟩ := State.start_ok hcl
    rw [he, State.claim, if_neg (by rw [hu]; simp)]
    exact Nat.le_succ _
  | complete | drop | again =>
    unfold State.finish
    split <;> exact Nat.le_refl _
  | publish =>
    exact Nat.le_of_eq (by rw [State.publish_claims])
  | spawned | refuse | tick | returned | record | exit | overflow | abandon | panic | dropped
  | cancel | dropHandle | ownersDropped | deliver => exact Nat.le_refl _

/-- Without a panic a stop reason stays to the end. -/
theorem stopReason_run {post : List Label} {s s' : State} {c : Nat}
    {r : EvictionWorkerStop} (hc : c < s.claims) (hr : (s.controls c).stopReason = some r)
    (hrun : Replay Step s post s') (hp : .finish c true ∉ post) :
    (s'.controls c).stopReason = some r := by
  induction hrun with
  | nil => exact hr
  | cons hs _ ih =>
    rcases hs.stopReason hc hr with hr' | ⟨rfl, _⟩
    · exact ih (Nat.lt_of_lt_of_le hc hs.claims_le) hr'
        fun hm => hp (List.mem_cons_of_mem _ hm)
    · exact absurd List.mem_cons_self hp

end Starshard.Scheduler
