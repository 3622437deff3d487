import Starshard.Retirement.Once

/-! Every retired key is found by a drain: its bit is set, or somebody is about to. -/
namespace Starshard.Retirement

variable {K : Type}

@[simp] theorem goto_calls (s : State K) (t : Nat) (c : Option (Call K)) :
    (s.goto t c).calls = Function.update s.calls t c := rfl

theorem goto_self (s : State K) (t : Nat) (c : Option (Call K)) : (s.goto t c).calls t = c := by
  rw [goto_calls, Function.update_self]

@[simp] theorem lock_owner (s : State K) (t : Nat) (i : Stripe) :
    (s.lock t i).owner = Function.update s.owner i (some t) := rfl

@[simp] theorem unlock_owner (s : State K) (i : Stripe) :
    (s.unlock i).owner = Function.update s.owner i none := rfl

/-- The stripes a drain has still to visit. -/
def Drain.visits : Drain → Stripe → Prop
  | .entered, _ => False
  | .loop p, i | .appended _ p, i => p.getLsbD i = true
  | .waiting k p, i | .locked k p, i => i = k ∨ p.getLsbD i = true

/-- The bit of stripe `i` is in the local mask of the call. -/
def Call.visits : Call K → Stripe → Prop
  | .drain stage _, i => stage.visits i
  | _, _ => False

/-- The call pushed `x` and is about to set the bit of stripe `i`. -/
def Call.owes : Call K → Stripe → Handle K → Prop
  | .defer hash _ (.pushed y), i, x | .defer hash _ (.unpublished y), i, x
  | .remove hash (.pushed y), i, x | .evict hash (.pushed y), i, x => i = stripeOf hash ∧ x = y
  | .reconcile _ (.publishing _ m moved), i, x => m.getLsbD i = true ∧ x ∈ moved
  | _, _, _ => False

def Call.attends (c : Call K) (i : Stripe) (x : Handle K) : Prop := c.visits i ∨ c.owes i x

def Covered (s : State K) : Prop :=
  ∀ i, ∀ x ∈ s.retired i,
    s.mask.getLsbD i = true ∨ ∃ t c, s.calls t = some c ∧ c.attends i x

def Attended (c : Option (Call K)) (i : Stripe) (x : Handle K) : Prop :=
  ∃ d, c = some d ∧ d.attends i x

/-- What call `t` drops of the mask and of its own duties, the mask or `t` has after
the step. -/
theorem Covered.step {s s' : State K} {t : Nat} {c : Option (Call K)} (cv : Covered s)
    (hm : ∀ i x, x ∈ s'.retired i → s.mask.getLsbD i = true →
      s'.mask.getLsbD i = true ∨ Attended c i x)
    (hc : ∀ i x, x ∈ s'.retired i → Attended (s.calls t) i x →
      s'.mask.getLsbD i = true ∨ Attended c i x)
    (hr : ∀ i x, x ∈ s'.retired i → x ∈ s.retired i ∨ Attended c i x)
    (hs : s'.calls = s.calls) : Covered (s'.goto t c) := by
  intro i x hx
  have hgo : Attended c i x → ∃ u d, (s'.goto t c).calls u = some d ∧ d.attends i x := by
    intro ⟨d, hd, ha⟩
    refine ⟨t, d, ?_, ha⟩
    rw [goto_calls, Function.update_self, hd]
  obtain hx | ha := hr i x hx
  · obtain hb | ⟨u, d, hu, ha⟩ := cv i x hx
    · exact (hm i x ‹_› hb).imp id hgo
    · by_cases hut : u = t
      · subst hut
        exact (hc i x ‹_› ⟨d, hu, ha⟩).imp id hgo
      · refine .inr ⟨u, d, ?_, ha⟩
        rw [goto_calls, Function.update_of_ne hut, hs, hu]
  · exact .inr (hgo ha)

theorem Covered.keep {s s' : State K} {t : Nat} {c d : Option (Call K)} (cv : Covered s)
    (hc : s.calls t = c) (h : ∀ i x, Attended c i x → Attended d i x)
    (hm : s'.mask = s.mask) (hr : s'.retired = s.retired) (hs : s'.calls = s.calls) :
    Covered (s'.goto t d) := by
  apply cv.step
  · intro i x _ hb
    exact .inl (hm ▸ hb)
  · intro i x _ ha
    exact .inr (h i x (hc ▸ ha))
  · intro i x hx
    exact .inl (hr ▸ hx)
  · exact hs

theorem Covered.publish {s : State K} {t : Nat} {c d : Option (Call K)} {m : BitVec 64}
    (cv : Covered s) (hc : s.calls t = c)
    (h : ∀ i x, Attended c i x → m.getLsbD i = true) : Covered ((s.publish m).goto t d) := by
  have hor : ∀ i : Stripe, (s.publish m).mask.getLsbD i = (s.mask.getLsbD i || m.getLsbD i) :=
    fun i => BitVec.getLsbD_or
  apply cv.step
  · intro i x _ hb
    exact .inl (by rw [hor, hb, Bool.true_or])
  · intro i x _ ha
    exact .inl (by rw [hor, h i x (hc ▸ ha), Bool.or_true])
  · intro i x hx
    exact .inl hx
  · rfl

theorem Covered.push {s s' : State K} {t : Nat} {c d : Option (Call K)} {i : Stripe} {y : Handle K}
    (cv : Covered s) (hc : s.calls t = c) (h : ∀ i x, ¬ Attended c i x) (hd : Attended d i y)
    (hm : s'.mask = s.mask) (hr : s'.retired = Function.update s.retired i (s.retired i ++ [y]))
    (hs : s'.calls = s.calls) : Covered (s'.goto t d) := by
  apply cv.step
  · intro j x _ hb
    exact .inl (hm ▸ hb)
  · intro j x _ ha
    exact absurd (hc ▸ ha) (h j x)
  · intro j x hx
    rw [hr] at hx
    by_cases hj : j = i
    · subst hj
      rw [Function.update_self, List.mem_append, List.mem_singleton] at hx
      refine hx.imp id fun he => ?_
      rw [he]
      exact hd
    · rw [Function.update_of_ne hj] at hx
      exact .inl hx
  · exact hs

@[simp] theorem attended_none (i : Stripe) (x : Handle K) : ¬ Attended (none : Option (Call K)) i x := by
  intro ⟨d, hd, _⟩
  exact absurd hd (by simp)

@[simp] theorem attended_some (c : Call K) (i : Stripe) (x : Handle K) :
    Attended (some c) i x ↔ c.visits i ∨ c.owes i x := by
  simp [Attended, Call.attends]

theorem RemovalStep.covered {t : Nat} {i : Stripe} {wrap : Removal K → Call K} {s s' : State K}
    (hw : ∀ stage j x, Attended (some (wrap stage)) j x ↔ stage = .pushed x ∧ j = i)
    (cv : Covered s) (st : RemovalStep t i wrap s s') : Covered s' := by
  cases st with
  | lock hc _ =>
    apply cv.keep hc _ rfl rfl rfl
    intro j x
    simp only [hw]
    simp
  | miss hc =>
    apply cv.keep hc _ rfl rfl rfl
    intro j x
    simp only [hw]
    simp
  | push hc hp =>
    apply cv.push hc
    · intro j x
      simp only [hw]
      simp
    · exact (hw _ i _).mpr ⟨rfl, rfl⟩
    · rfl
    · rfl
    · rfl
  | publish hc =>
    apply cv.publish hc
    intro j x ha
    rw [getLsbD_bit]
    exact decide_eq_true ((hw _ j x).mp ha).2
  | unlock hc =>
    apply cv.keep hc _ rfl rfl rfl
    intro j x
    simp only [hw]
    simp

theorem Step.covered {t : Nat} {s s' : State K} (cv : Covered s) (st : Step t s s') :
    Covered s' := by
  cases st with
  | deferLock hc _ | deferUnlock hc | insertLock hc _ | insertFound hc | insertUnlock hc
  | reconcileUnwind hc | reconcileLock _ hc _ | reconcileBegin hc | reconcileUnlock _ hc
  | reconcileReturn hc | drainLock hc _ | drainUnlock hc =>
    apply cv.keep hc _ rfl rfl rfl
    intro i x
    simp [Call.visits, Call.owes, Drain.visits]
  | deferPush hc =>
    apply cv.push hc
    · intro i x
      simp [Call.visits, Call.owes]
    · exact (attended_some _ _ _).mpr (.inr ⟨rfl, rfl⟩)
    · rfl
    · rfl
    · rfl
  | deferPublish hc =>
    apply cv.publish hc
    intro i x
    simp only [attended_some, Call.visits, Call.owes, getLsbD_bit, decide_eq_true_eq]
    simp
    intro hi _
    exact hi
  | remove hash st =>
    apply st.covered _ cv
    intro stage j x
    cases stage <;> simp [Call.visits, Call.owes, eq_comm, and_comm]
  | evict hash st =>
    apply st.covered _ cv
    intro stage j x
    cases stage <;> simp [Call.visits, Call.owes, eq_comm, and_comm]
  | insertPush hc =>
    apply cv.keep hc _ rfl rfl rfl
    intro i x
    simp [Call.visits, Call.owes]
  | reconcileReplace hn hc hp =>
    rename_i staged n m moved old
    have hkeep : ∀ i : Stripe, m.getLsbD i = true → (if s.retired ⟨n, hn⟩ ++ old = [] then m
        else m ||| bit ⟨n, hn⟩).getLsbD i = true := by
      intro i hi
      split
      · exact hi
      · rw [BitVec.getLsbD_or, hi, Bool.true_or]
    apply cv.step
    · intro i x _ hb
      exact .inl hb
    · intro i x _ ha
      rw [hc, attended_some] at ha
      refine .inr ((attended_some _ i x).mpr (.inr ?_))
      have ho : m.getLsbD i = true ∧ x ∈ moved := ha.resolve_left id
      exact ⟨hkeep i ho.1, List.mem_append_left old ho.2⟩
    · intro i x hx
      change x ∈ Function.update s.retired ⟨n, hn⟩ (s.retired ⟨n, hn⟩ ++ old) i at hx
      by_cases hi : i = ⟨n, hn⟩
      · subst hi
        rw [Function.update_self] at hx
        have hne : ¬ (s.retired ⟨n, hn⟩ ++ old = []) := List.ne_nil_of_mem hx
        refine (List.mem_append.mp hx).imp id fun hold => ?_
        refine (attended_some _ _ x).mpr (.inr ⟨?_, List.mem_append_right moved hold⟩)
        rw [if_neg hne, BitVec.getLsbD_or, getLsbD_bit]
        simp
      · rw [Function.update_of_ne hi] at hx
        exact .inl hx
    · rfl
  | reconcilePublish hc =>
    apply cv.publish hc
    intro i x ha
    rw [attended_some] at ha
    exact (ha.resolve_left id).1
  | drainSwap hc =>
    apply cv.step
    · intro i x _ hb
      exact .inr ((attended_some _ i x).mpr (.inl hb))
    · intro i x _ ha
      rw [hc] at ha
      simp [Call.visits, Call.owes, Drain.visits] at ha
    · intro i x hx
      exact .inl hx
    · rfl
  | drainNext hc hp =>
    rename_i p r
    apply cv.keep hc _ rfl rfl rfl
    intro i x
    simp only [attended_some, Call.visits, Call.owes, Drain.visits, or_false, getLsbD_next p hp]
    intro hi
    by_cases he : i = lowest p
    · exact .inl he
    · simp [hi, he]
  | drainAppend hc =>
    rename_i k p r
    apply cv.step
    · intro i x _ hb
      exact .inl hb
    · intro i x hx ha
      rw [hc] at ha
      have hk : i ≠ k := by
        intro he
        subst he
        change x ∈ Function.update s.retired i [] i at hx
        rw [Function.update_self] at hx
        exact absurd hx List.not_mem_nil
      simp only [attended_some, Call.visits, Call.owes, Drain.visits, or_false] at ha
      refine .inr ((attended_some _ i x).mpr (.inl ?_))
      exact ha.resolve_left hk
    · intro i x hx
      change x ∈ Function.update s.retired k [] i at hx
      by_cases hk : i = k
      · subst hk
        rw [Function.update_self] at hx
        exact absurd hx List.not_mem_nil
      · rw [Function.update_of_ne hk] at hx
        exact .inl hx
    · rfl
  | drainReturn hc =>
    apply cv.keep hc _ rfl rfl rfl
    intro i x
    simp [Call.visits, Call.owes, Drain.visits]

theorem Reachable.covered {s : State K} (r : Reachable s) : Covered s := by
  induction r with
  | new =>
    intro i x hx
    exact absurd hx List.not_mem_nil
  | call request _ hc ih =>
    apply ih.keep hc _ rfl rfl rfl
    intro i x
    simp
  | step _ st ih => exact st.covered ih

/-! ### Guards -/

/-- The call holds the write guard of stripe `i`. -/
def Call.holds : Call K → Stripe → Prop
  | .defer hash _ .locked, i | .defer hash _ (.pushed _), i | .insert hash _ .locked, i
  | .insert hash _ .written, i | .remove hash .locked, i | .remove hash (.pushed _), i
  | .remove hash .published, i | .evict hash .locked, i | .evict hash (.pushed _), i
  | .evict hash .published, i => i = stripeOf hash
  | .reconcile _ (.acquiring n), i => i.val < n
  | .reconcile _ (.publishing _ _ _), _ => True
  | .reconcile _ (.releasing n), i => n ≤ i.val
  | .drain (.locked k _) _, i | .drain (.appended k _) _, i => i = k
  | _, _ => False

def Holds (c : Option (Call K)) (i : Stripe) : Prop := ∃ d, c = some d ∧ d.holds i

/-- A guard belongs to a running call. -/
def Owned (s : State K) : Prop := ∀ i t, s.owner i = some t → Holds (s.calls t) i

@[simp] theorem holds_none (i : Stripe) : ¬ Holds (none : Option (Call K)) i := by
  intro ⟨d, hd, _⟩
  exact absurd hd (by simp)

@[simp] theorem holds_some (c : Call K) (i : Stripe) : Holds (some c) i ↔ c.holds i := by
  simp [Holds]

theorem Owned.go {s s' : State K} {t : Nat} {c d : Option (Call K)} (ow : Owned s)
    (hc : s.calls t = c) (ho : ∀ i u, s'.owner i = some u → s.owner i = some u ∨ u = t ∧ Holds d i)
    (hd : ∀ i, s'.owner i = some t → Holds c i → Holds d i) (hs : s'.calls = s.calls) :
    Owned (s'.goto t d) := by
  intro i u hu
  have hold : s.owner i = some u → Holds (s.calls u) i := ow i u
  by_cases hut : u = t
  · subst hut
    rw [goto_calls, Function.update_self]
    cases ho i u hu with
    | inl h => exact hd i hu (hc ▸ hold h)
    | inr h => exact h.2
  · have hother : (s'.goto t d).calls u = s.calls u := by
      rw [← hs]
      exact Function.update_of_ne hut d s'.calls
    rw [hother]
    exact hold ((ho i u hu).resolve_right fun h => hut h.1)

theorem Owned.keep {s s' : State K} {t : Nat} {c d : Option (Call K)} (ow : Owned s)
    (hc : s.calls t = c) (ho : s'.owner = s.owner) (hd : ∀ i, Holds c i → Holds d i)
    (hs : s'.calls = s.calls) : Owned (s'.goto t d) := by
  apply ow.go hc
  · intro i u hu
    exact .inl (ho ▸ hu)
  · intro i _
    exact hd i
  · exact hs

theorem Owned.lock {s : State K} {t : Nat} {c d : Option (Call K)} {i : Stripe} (ow : Owned s)
    (hc : s.calls t = c) (hi : Holds d i) (hd : ∀ j, Holds c j → Holds d j) :
    Owned ((s.lock t i).goto t d) := by
  apply ow.go hc
  · intro j u hu
    rw [lock_owner] at hu
    by_cases hj : j = i
    · subst hj
      rw [Function.update_self] at hu
      exact .inr ⟨(Option.some.inj hu).symm, hi⟩
    · rw [Function.update_of_ne hj] at hu
      exact .inl hu
  · intro j _
    exact hd j
  · rfl

theorem Owned.unlock {s : State K} {t : Nat} {c d : Option (Call K)} {i : Stripe} (ow : Owned s)
    (hc : s.calls t = c) (hd : ∀ j, j ≠ i → Holds c j → Holds d j) :
    Owned ((s.unlock i).goto t d) := by
  have hne : ∀ j u, (s.unlock i).owner j = some u → j ≠ i := by
    intro j u hu hj
    subst hj
    rw [unlock_owner, Function.update_self] at hu
    exact absurd hu (by simp)
  apply ow.go hc
  · intro j u hu
    have hu' := hu
    rw [unlock_owner, Function.update_of_ne (hne j u hu)] at hu'
    exact .inl hu'
  · intro j hj
    exact hd j (hne j t hj)
  · rfl

theorem RemovalStep.owned {t : Nat} {i : Stripe} {wrap : Removal K → Call K} {s s' : State K}
    (hw : ∀ stage j, Holds (some (wrap stage)) j ↔ (match stage with | .waiting => False | _ => j = i))
    (ow : Owned s) (st : RemovalStep t i wrap s s') : Owned s' := by
  cases st with
  | lock hc _ =>
    apply ow.lock hc
    · simp [hw]
    · intro j hj
      exact ((hw _ j).mp hj).elim
  | miss hc =>
    apply ow.unlock hc
    intro j hj h
    exact absurd ((hw _ j).mp h) hj
  | push hc hp =>
    apply ow.keep hc rfl _ rfl
    intro j
    simp [hw]
  | publish hc =>
    apply ow.keep hc rfl _ rfl
    intro j
    simp [hw]
  | unlock hc =>
    apply ow.unlock hc
    intro j hj h
    exact absurd ((hw _ j).mp h) hj

theorem Step.owned {t : Nat} {s s' : State K} (ow : Owned s) (st : Step t s s') : Owned s' := by
  cases st with
  | deferPush hc | deferPublish hc | insertPush hc | reconcileUnwind hc | reconcileBegin hc
  | reconcileReplace _ hc _ | reconcilePublish hc | drainSwap hc | drainNext hc _
  | drainAppend hc | drainReturn hc =>
    apply ow.keep hc rfl _ rfl
    intro i
    simp [Call.holds]
  | deferLock hc _ | insertLock hc _ | drainLock hc _ =>
    apply ow.lock hc
    · simp [Call.holds]
    · intro j
      simp [Call.holds]
  | deferUnlock hc | insertFound hc | insertUnlock hc | drainUnlock hc =>
    apply ow.unlock hc
    intro j hj
    simp [Call.holds, hj]
  | remove hash st =>
    apply st.owned _ ow
    intro stage j
    cases stage <;> simp [Call.holds]
  | evict hash st =>
    apply st.owned _ ow
    intro stage j
    cases stage <;> simp [Call.holds]
  | reconcileLock hn hc _ =>
    apply ow.lock hc
    · simp [Call.holds]
    · intro j
      simp only [holds_some, Call.holds]
      omega
  | reconcileUnlock hn hc =>
    rename_i staged n
    apply ow.unlock hc
    intro j hj
    have hv : j.val ≠ n := fun he => hj (Fin.ext he)
    simp only [holds_some, Call.holds]
    omega
  | reconcileReturn hc =>
    apply ow.keep hc rfl _ rfl
    intro i
    have hi := i.isLt
    simp only [holds_some, Call.holds]
    omega

theorem Reachable.owned {s : State K} (r : Reachable s) : Owned s := by
  induction r with
  | new =>
    intro i t h
    exact absurd h (by simp [State.new])
  | call request _ hc ih =>
    apply ih.keep hc rfl _ rfl
    intro i
    simp
  | step _ st ih => exact st.owned ih

end Starshard.Retirement
