import Starshard.Retirement.Complete

/-! When all calls have returned, one further `drain_retired` returns what is left. -/
namespace Starshard.Retirement

variable {K : Type} {t : Nat} {s₀ s s' : State K}

/-- All calls have returned. -/
def State.Idle (s : State K) : Prop := ∀ t, s.calls t = none

theorem RemovalStep.calling {i : Stripe} {wrap : Removal K → Call K}
    (st : RemovalStep t i wrap s s') : ∃ stage, s.calls t = some (wrap stage) := by
  cases st with
  | lock hc _ | miss hc | push hc _ | publish hc | unlock hc => exact ⟨_, hc⟩

theorem Step.calling (st : Step t s s') : s.calls t ≠ none := by
  cases st with
  | remove hash st | evict hash st =>
    obtain ⟨stage, hc⟩ := st.calling
    simp [hc]
  | deferLock hc _ | deferPush hc | deferUnlock hc | deferPublish hc | insertLock hc _
  | insertPush hc | insertFound hc | insertUnlock hc | reconcileUnwind hc | reconcileLock _ hc _
  | reconcileBegin hc | reconcileReplace _ hc _ | reconcilePublish hc | reconcileUnlock _ hc
  | reconcileReturn hc | drainSwap hc | drainNext hc _ | drainLock hc _ | drainAppend hc
  | drainUnlock hc | drainReturn hc => simp [hc]

/-- Only call `t` may run, and it retires nothing. -/
structure Lone (t : Nat) (s₀ s : State K) : Prop where
  reach : Reachable s
  others : ∀ u, u ≠ t → s.calls u = none
  history : s.history = s₀.history

/-- Call `t` drains; once it has swapped the mask, nobody sets a bit. -/
def Running (t : Nat) (s₀ s : State K) : Prop :=
  ∃ stage r, s.calls t = some (.drain stage r) ∧ s.outputs = s₀.outputs ∧
    (stage = .entered ∨ s.mask = 0#64)

def Returned (t : Nat) (s₀ s : State K) : Prop :=
  s.calls t = none ∧ s.mask = 0#64 ∧ (∀ i, s.retired i = []) ∧ ∃ r, s.outputs = s₀.outputs ++ [r]

theorem Lone.others_go {c : Option (Call K)} (l : Lone t s₀ s) (hs : s'.calls = s.calls) :
    ∀ u, u ≠ t → (s'.goto t c).calls u = none := by
  intro u hu
  rw [goto_calls, Function.update_of_ne hu, hs]
  exact l.others u hu

/-- A lone drain with nothing to visit has left nothing. -/
theorem Lone.emptied {r : List (Handle K)} (l : Lone t s₀ s)
    (hc : s.calls t = some (.drain (.loop 0#64) r)) (hm : s.mask = 0#64) (i : Stripe) :
    s.retired i = [] := by
  apply List.eq_nil_iff_forall_not_mem.mpr
  intro x hx
  obtain hb | ⟨u, d, hu, ha⟩ := l.reach.covered i x hx
  · rw [hm] at hb
    simp at hb
  · by_cases hut : u = t
    · subst hut
      rw [hc] at hu
      cases Option.some.inj hu
      simp [Call.attends, Call.visits, Call.owes, Drain.visits] at ha
    · rw [l.others u hut] at hu
      exact absurd hu (by simp)

theorem Lone.step (l : Lone t s₀ s) (run : Running t s₀ s) (st : Step t s s') :
    Lone t s₀ s' ∧ (Running t s₀ s' ∨ Returned t s₀ s') := by
  obtain ⟨stage, r, hd, ho, hm⟩ := run
  have hr : Reachable s' := .step l.reach st
  cases st with
  | remove hash st | evict hash st =>
    obtain ⟨stage', hc⟩ := st.calling
    rw [hc] at hd
    exact absurd hd (by simp)
  | deferLock hc _ | deferPush hc | deferUnlock hc | deferPublish hc | insertLock hc _
  | insertPush hc | insertFound hc | insertUnlock hc | reconcileUnwind hc | reconcileLock _ hc _
  | reconcileBegin hc | reconcileReplace _ hc _ | reconcilePublish hc | reconcileUnlock _ hc
  | reconcileReturn hc =>
    rw [hc] at hd
    exact absurd hd (by simp)
  | drainSwap hc =>
    exact ⟨⟨hr, l.others_go rfl, l.history⟩, .inl ⟨_, _, goto_self _ _ _, ho, .inr rfl⟩⟩
  | drainNext hc _ | drainLock hc _ | drainAppend hc | drainUnlock hc =>
    rw [hc] at hd
    cases Option.some.inj hd
    have hz : s.mask = 0#64 := hm.resolve_left (by simp)
    exact ⟨⟨hr, l.others_go rfl, l.history⟩, .inl ⟨_, _, goto_self _ _ _, ho, .inr hz⟩⟩
  | drainReturn hc =>
    have hfinal := hc
    rw [hc] at hd
    cases Option.some.inj hd
    have hz : s.mask = 0#64 := hm.resolve_left (by simp)
    refine ⟨⟨hr, l.others_go rfl, l.history⟩, .inr ⟨goto_self _ _ _, hz, l.emptied hfinal hz, r, ?_⟩⟩
    exact congrArg (· ++ [r]) ho

theorem Lone.run (l : Lone t s₀ s) (run : Running t s₀ s) (al : Alone t s s') :
    Lone t s₀ s' ∧ (Running t s₀ s' ∨ Returned t s₀ s') := by
  induction al with
  | refl => exact ⟨l, .inl run⟩
  | step _ st ih =>
    obtain ⟨l', hr | hret⟩ := ih
    · exact l'.step hr st
    · exact absurd hret.1 st.calling

theorem Alone.head {s'' : State K} (st : Step t s s') (al : Alone t s' s'') : Alone t s s'' := by
  induction al with
  | refl => exact .step (.refl s) st
  | step _ st' ih => exact .step ih st'

/-- What a drain has still to do. -/
def Drain.todo : Drain → Nat
  | .entered => 4 * 2 ^ 64
  | .loop p => 4 * p.toNat
  | .waiting _ p => 4 * p.toNat + 3
  | .locked _ p => 4 * p.toNat + 2
  | .appended _ p => 4 * p.toNat + 1

/-- A lone drain waits for no guard and returns. -/
theorem Lone.returns : ∀ (n : Nat) (s : State K) (stage : Drain) (r : List (Handle K)),
    stage.todo ≤ n → Lone t s₀ s → s.calls t = some (.drain stage r) → Running t s₀ s →
    ∃ s', Alone t s s' ∧ s'.calls t = none := by
  intro n
  induction n with
  | zero =>
    intro s stage r hn l hc run
    cases stage with
    | loop p =>
      have hp : p = 0#64 := BitVec.eq_of_toNat_eq (by simp only [Drain.todo] at hn; simp; omega)
      subst hp
      exact ⟨_, .head (.drainReturn hc) (.refl _), goto_self _ _ _⟩
    | entered | waiting k p | locked k p | appended k p => simp [Drain.todo] at hn
  | succ n ih =>
    intro s stage r hn l hc run
    have hgo : ∀ (c : State K) (stage' : Drain) (r' : List (Handle K)), Step t s c →
        c.calls t = some (.drain stage' r') → stage'.todo < stage.todo →
        ∃ s', Alone t s s' ∧ s'.calls t = none := by
      intro c stage' r' st hc' hlt
      obtain ⟨l', hr⟩ := l.step run st
      have hrun : Running t s₀ c := hr.resolve_right fun hret => by
        rw [hret.1] at hc'
        exact absurd hc' (by simp)
      obtain ⟨s', al, hs'⟩ := ih c stage' r' (by omega) l' hc' hrun
      exact ⟨s', .head st al, hs'⟩
    cases stage with
    | entered =>
      have hlt := s.mask.isLt
      exact hgo _ _ _ (.drainSwap hc) (goto_self _ _ _) (by simp only [Drain.todo]; omega)
    | loop p =>
      by_cases hp : p = 0#64
      · subst hp
        exact ⟨_, .head (.drainReturn hc) (.refl _), goto_self _ _ _⟩
      · have hlt := Bits.clear_lt p hp
        exact hgo _ _ _ (.drainNext hc hp) (goto_self _ _ _) (by simp only [Drain.todo]; omega)
    | waiting k p =>
      have hfree : s.owner k = none := by
        by_contra hne
        obtain ⟨u, hu⟩ := Option.ne_none_iff_exists'.mp hne
        obtain ⟨d, hd, hh⟩ := l.reach.owned k u hu
        by_cases hut : u = t
        · subst hut
          rw [hc] at hd
          cases Option.some.inj hd
          exact hh
        · rw [l.others u hut] at hd
          exact absurd hd (by simp)
      exact hgo _ _ _ (.drainLock hc hfree) (goto_self _ _ _) (by simp [Drain.todo])
    | locked k p => exact hgo _ _ _ (.drainAppend hc) (goto_self _ _ _) (by simp [Drain.todo])
    | appended k p => exact hgo _ _ _ (.drainUnlock hc) (goto_self _ _ _) (by simp [Drain.todo])

theorem Lone.output (l : Lone t s₀ s) (ret : Returned t s₀ s) :
    ∃ out, s.outputs = s₀.outputs ++ [out] ∧
      ∀ x, x ∈ out ↔ x ∈ s₀.history ∧ ∀ o ∈ s₀.outputs, x ∉ o := by
  obtain ⟨hc, -, hr, out, ho⟩ := ret
  refine ⟨out, ho, fun x => ?_⟩
  have hidle : ∀ u, s.calls u = none := by
    intro u
    by_cases hu : u = t
    · rw [hu, hc]
    · exact l.others u hu
  have hlast : s.held (.output s₀.outputs.length) = out := by
    simp [ho, List.getD]
  have hfirst : ∀ n, n < s₀.outputs.length →
      s.held (.output n) = s₀.outputs.getD n [] := by
    intro n hn
    simp [ho, List.getD, List.getElem?_append_left hn]
  constructor
  · intro hx
    rw [← hlast] at hx
    refine ⟨?_, fun o ho' hxo => ?_⟩
    · rw [← l.history]
      exact (l.reach.sound.known x).mpr ⟨_, rfl, hx⟩
    · obtain ⟨n, hn, rfl⟩ := List.mem_iff_getElem.mp ho'
      have hxn : x ∈ s.held (.output n) := by
        rw [hfirst n hn]
        simpa [List.getD, hn] using hxo
      have he := Place.output.inj (l.reach.sound.apart.sole _ _ x hx hxn)
      omega
  · intro ⟨hx, hnot⟩
    rw [← l.history] at hx
    obtain ⟨p, hg, hxp⟩ := (l.reach.sound.known x).mp hx
    cases p with
    | live i => exact absurd hg (by simp [Place.gone])
    | retired i =>
      rw [held_retired, hr i] at hxp
      exact absurd hxp List.not_mem_nil
    | drain u =>
      rw [held_drain, hidle u] at hxp
      exact absurd hxp List.not_mem_nil
    | output n =>
      obtain hlt | rfl | hgt := Nat.lt_trichotomy n s₀.outputs.length
      · rw [hfirst n hlt] at hxp
        have hmem : s₀.outputs.getD n [] ∈ s₀.outputs := by
          simp [List.getD, hlt]
        exact absurd hxp (hnot _ hmem)
      · rw [hlast] at hxp
        exact hxp
      · have hge : s₀.outputs.length + 1 ≤ n := hgt
        have hnil : s.held (.output n) = [] := by
          rw [held_output, ho]
          exact List.getD_eq_default _ _ (by rw [List.length_append]; exact hge)
        rw [hnil] at hxp
        exact absurd hxp List.not_mem_nil

theorem Lone.enter (r : Reachable s) (hi : s.Idle) (t : Nat) :
    Lone t s (s.goto t (some Request.drain.enter)) ∧
      Running t s (s.goto t (some Request.drain.enter)) := by
  refine ⟨⟨.call .drain r (hi t), ?_, rfl⟩, .entered, [], goto_self s t _, rfl,
    .inl rfl⟩
  intro u hu
  rw [goto_calls, Function.update_of_ne hu]
  exact hi u

/-- Every key retired so far is in one retired list, whose bit is set, held in the
local mask of a drain or about to be set by the call that pushed it, or in what one
drain collected. When all calls have returned, the bit of every list that is not empty
is set, and a further drain returns every key that no drain has returned. -/
theorem retired_exactly_once (s : State K) (r : Reachable s) :
    (∀ x ∈ s.history, ∃! p : Place, p.gone = true ∧ x ∈ s.held p) ∧
    (∀ p, (s.held p).Nodup) ∧
    (∀ i, ∀ x ∈ s.retired i, s.mask.getLsbD i = true ∨
      (∃ t c, s.calls t = some c ∧ c.visits i) ∨ ∃ t c, s.calls t = some c ∧ c.owes i x) ∧
    (s.Idle → (∀ i, s.retired i ≠ [] → s.mask.getLsbD i = true) ∧
      ∀ t, (∃ s', Alone t (s.goto t (some Request.drain.enter)) s' ∧ s'.calls t = none) ∧
        ∀ s', Alone t (s.goto t (some Request.drain.enter)) s' → s'.calls t = none →
          s'.mask = 0#64 ∧ (∀ i, s'.retired i = []) ∧
          ∃ out, s'.outputs = s.outputs ++ [out] ∧
            ∀ x, x ∈ out ↔ x ∈ s.history ∧ ∀ o ∈ s.outputs, x ∉ o) := by
  refine ⟨?_, r.sound.apart.nodup, ?_, fun hi => ⟨?_, fun t => ⟨?_, ?_⟩⟩⟩
  · intro x hx
    obtain ⟨p, hg, hp⟩ := (r.sound.known x).mp hx
    exact ⟨p, ⟨hg, hp⟩, fun q hq => r.sound.apart.sole q p x hq.2 hp⟩
  · intro i x hx
    refine (r.covered i x hx).imp id fun ⟨t, c, hc, ha⟩ => ?_
    exact ha.imp (fun h => ⟨t, c, hc, h⟩) fun h => ⟨t, c, hc, h⟩
  · intro i hne
    obtain ⟨x, hx⟩ := List.exists_mem_of_ne_nil _ hne
    refine (r.covered i x hx).resolve_right fun ⟨t, c, hc, _⟩ => ?_
    rw [hi t] at hc
    exact absurd hc (by simp)
  · obtain ⟨l, run⟩ := Lone.enter r hi t
    exact Lone.returns _ _ .entered [] (Nat.le_refl _) l (goto_self s t _) run
  · intro s' al hret
    obtain ⟨l, run⟩ := Lone.enter r hi t
    obtain ⟨l', hrun | hreturned⟩ := l.run run al
    · obtain ⟨stage, d, hc, -, -⟩ := hrun
      rw [hret] at hc
      exact absurd hc (by simp)
    · exact ⟨hreturned.2.1, hreturned.2.2.1, l'.output hreturned⟩

/-- The key 8 is retired and its bit was set, the key 7 is retired and its bit is not yet set,
and a drain has taken the mask. -/
theorem draining : ∃ s : State Nat, Reachable s ∧ s.history = [⟨0, 8⟩, ⟨1, 7⟩] ∧
    s.calls 1 = some (.defer 0 7 (.pushed ⟨1, 7⟩)) ∧
    s.calls 2 = some (.drain (.waiting 1 0#64) []) ∧
    (∀ t, t ≠ 1 → t ≠ 2 → s.calls t = none) ∧ s.owner 1 = none ∧ s.retired 1 = [⟨0, 8⟩] ∧
    s.outputs = [] := by
  have r₀ := Reachable.call (t := 0) (.defer 1 8) (.new : Reachable (State.new Nat)) rfl
  have r₁ := r₀.step (.deferLock (t := 0) rfl rfl)
  have r₂ := r₁.step (.deferPush (t := 0) rfl)
  have r₃ := r₂.step (.deferUnlock (t := 0) rfl)
  have r₄ := r₃.step (.deferPublish (t := 0) rfl)
  have r₅ := Reachable.call (t := 1) (.defer 0 7) r₄ rfl
  have r₆ := r₅.step (.deferLock (t := 1) rfl rfl)
  have r₇ := r₆.step (.deferPush (t := 1) rfl)
  have r₈ := Reachable.call (t := 2) .drain r₇ rfl
  have r₉ := r₈.step (.drainSwap (t := 2) rfl)
  have r := r₉.step (.drainNext (t := 2) rfl (by decide))
  have hlowest : lowest (0#64 ||| bit (stripeOf 1)) = 1 := by decide +kernel
  have hrest : (0#64 ||| bit (stripeOf 1)) &&& ((0#64 ||| bit (stripeOf 1)) - 1) = 0#64 := by decide
  have hcall := congrArg₂ (fun i p => some (Call.drain (K := Nat) (.waiting i p) [])) hlowest hrest
  refine ⟨_, r, rfl, rfl, hcall, fun t h₁ h₂ => ?_, rfl, rfl, rfl⟩
  by_cases h₀ : t = 0
  · subst h₀
    rfl
  · simp [h₁, h₂, State.new, State.lock, State.defer, State.unlock, State.publish]

/-- The drain returns what it finds in the stripe, and the other call sets its bit. -/
theorem drained {s : State Nat} (r : Reachable s)
    (h₁ : s.calls 1 = some (.defer 0 7 (.pushed ⟨1, 7⟩)))
    (h₂ : s.calls 2 = some (.drain (.waiting 1 0#64) []))
    (hidle : ∀ t, t ≠ 1 → t ≠ 2 → s.calls t = none) (ho : s.owner 1 = none) :
    ∃ s' : State Nat, Reachable s' ∧ s'.history = s.history ∧
      s'.outputs = s.outputs ++ [s.retired 1] ∧ s'.Idle := by
  have r₁ := r.step (.drainLock (t := 2) h₂ ho)
  have r₂ := r₁.step (.drainAppend (goto_self _ _ _))
  have r₃ := r₂.step (.drainUnlock (goto_self _ _ _))
  have r₄ := r₃.step (.drainReturn (goto_self _ _ _))
  have r₅ := r₄.step (.deferUnlock (t := 1) (k := 7) (h := ⟨1, 7⟩) h₁)
  have r₆ := r₅.step (.deferPublish (goto_self _ _ _))
  refine ⟨_, r₆, rfl, rfl, fun t => ?_⟩
  by_cases ht₁ : t = 1
  · subst ht₁
    exact goto_self _ _ _
  · by_cases ht₂ : t = 2
    · subst ht₂
      rfl
    · have ht := hidle t ht₁ ht₂
      simpa [ht₁, ht₂, State.lock, State.collect, State.unlock, State.publish] using ht

theorem retired_exactly_once_draining : ∃ s : State Nat, Reachable s ∧
    s.calls 1 = some (.defer 0 7 (.pushed ⟨1, 7⟩)) ∧
    s.calls 2 = some (.drain (.waiting 1 0#64) []) ∧
    (∃! p : Place, p.gone = true ∧ (⟨0, 8⟩ : Handle Nat) ∈ s.held p) ∧
    (∃! p : Place, p.gone = true ∧ (⟨1, 7⟩ : Handle Nat) ∈ s.held p) ∧
    ∃ s' : State Nat, Reachable s' ∧ s'.Idle ∧ s'.outputs = [[⟨0, 8⟩]] ∧
      ∀ s'', Alone 3 (s'.goto 3 (some Request.drain.enter)) s'' → s''.calls 3 = none →
        ∃ out, s''.outputs = [[⟨0, 8⟩], out] ∧ ∀ x, x ∈ out ↔ x = ⟨1, 7⟩ := by
  obtain ⟨s, r, hhist, h₁, h₂, hidle, ho, hret, hout⟩ := draining
  obtain ⟨s', r', hhist', hout', hi⟩ := drained r h₁ h₂ hidle ho
  obtain ⟨hplace, -⟩ := retired_exactly_once s r
  obtain ⟨-, -, -, hlast⟩ := retired_exactly_once s' r'
  rw [hhist] at hplace hhist'
  rw [hout, hret] at hout'
  refine ⟨s, r, h₁, h₂, hplace _ (by simp), hplace _ (by simp), s', r', hi, hout',
    fun s'' hs hr => ?_⟩
  obtain ⟨-, -, out, hout'', hmem⟩ := ((hlast hi).2 3).2 s'' hs hr
  rw [hout'] at hout'' hmem
  refine ⟨out, hout'', fun x => (hmem x).trans ?_⟩
  rw [hhist']
  constructor
  · rintro ⟨hx, hnot⟩
    simp only [List.mem_cons, List.not_mem_nil, or_false] at hx
    rcases hx with rfl | rfl
    · exact absurd (List.mem_singleton.mpr rfl) (hnot _ (List.mem_singleton.mpr rfl))
    · rfl
  · rintro rfl
    simp

end Starshard.Retirement
