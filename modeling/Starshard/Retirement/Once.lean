import Starshard.Retirement.Machine

/-! No retired key is lost or returned twice, in any order of the steps of any number
of calls. -/
namespace Starshard.Retirement

open Places

variable {K : Type}

/-! ### Masks -/

theorem getLsbD_bit (i j : Stripe) : (bit i).getLsbD j = decide (j = i) := by
  have hj : j.val < 64 := j.isLt
  rw [bit, BitVec.getLsbD_shiftLeft, BitVec.getLsbD_one]
  by_cases h : j = i
  · subst h
    simp [hj]
  · have hv : j.val ≠ i.val := fun he => h (Fin.ext he)
    simp only [h, decide_false, hj, decide_true, Bool.true_and]
    by_cases hl : j.val < i.val
    · simp [hl]
    · have hd : j.val - i.val ≠ 0 := by omega
      simp [hd]

theorem lowest_val (p : BitVec 64) (h : p ≠ 0#64) : (lowest p).val = p.ctz.toNat := by
  apply Nat.mod_eq_of_lt
  have hlt := BitVec.ctz_lt_iff_ne_zero.mpr h
  simpa [BitVec.lt_def] using hlt

theorem getLsbD_next (p : BitVec 64) (h : p ≠ 0#64) (j : Stripe) :
    (p &&& (p - 1)).getLsbD j = (p.getLsbD j && decide (j ≠ lowest p)) := by
  have hj : (j.val ≠ p.ctz.toNat) ↔ j ≠ lowest p := by
    rw [← lowest_val p h]
    exact ⟨fun hne he => hne (congrArg Fin.val he), fun hne he => hne (Fin.ext he)⟩
  rw [Bits.getLsbD_clear p h]
  simp only [hj]

/-! ### Where handles are -/

inductive Place where
  | live (i : Stripe)
  | retired (i : Stripe)
  /-- The local list of a running drain. -/
  | drain (t : Nat)
  | output (n : Nat)
  deriving DecidableEq

/-- What lies there has been retired. -/
def Place.gone : Place → Bool
  | .live _ => false
  | _ => true

def holding : Option (Call K) → List (Handle K)
  | some (.drain _ r) => r
  | _ => []

def State.held (s : State K) : Place → List (Handle K)
  | .live i => s.live i
  | .retired i => s.retired i
  | .drain t => holding (s.calls t)
  | .output n => s.outputs.getD n []

theorem handles_id (ks : List K) : ∀ (n : Nat), ∀ h ∈ handles n ks, n ≤ h.id ∧ h.id < n + ks.length := by
  induction ks with
  | nil => intro n h hm; simp [handles] at hm
  | cons k ks ih =>
    intro n h hm
    simp only [handles, List.mem_cons] at hm
    cases hm with
    | inl he => subst he; simp
    | inr hm =>
      have hb := ih (n + 1) h hm
      simp only [List.length_cons]
      omega

theorem handles_nodup (ks : List K) : ∀ n, (handles n ks).Nodup := by
  induction ks with
  | nil => intro n; exact List.nodup_nil
  | cons k ks ih =>
    intro n
    simp only [handles, List.nodup_cons]
    refine ⟨fun hm => ?_, ih (n + 1)⟩
    have hb := (handles_id ks (n + 1) _ hm).1
    simp only at hb
    omega

/-- Every handle is in one place, has an id of the past, and is known as retired in
every place but the buckets. -/
structure Sound (s : State K) : Prop where
  apart : Apart s.held
  past : ∀ p, ∀ x ∈ s.held p, x.id < s.next
  known : ∀ x, x ∈ s.history ↔ ∃ p, p.gone = true ∧ x ∈ s.held p

/-- What a step does with the handles. -/
inductive Moves (s s' : State K) : Prop where
  | stay : s'.held = s.held → s'.next = s.next → s'.history = s.history → Moves s s'
  | add (p : Place) (ks : List K) :
      s'.held = Function.update s.held p (s.held p ++ handles s.next ks) →
      s'.next = s.next + ks.length →
      s'.history = s.history ++ (if p.gone then handles s.next ks else []) → Moves s s'
  | move (p q : Place) (xs rest : List (Handle K)) : p ≠ q → q.gone = true →
      (s.held p).Perm (xs ++ rest) →
      s'.held = Function.update (Function.update s.held p rest) q (s.held q ++ xs) →
      s'.next = s.next →
      s'.history = s.history ++ (if p.gone then [] else xs) → Moves s s'

theorem mem_add {held : Place → List (Handle K)} {p : Place} {xs : List (Handle K)} {x : Handle K}
    {q : Place} : x ∈ Function.update held p (held p ++ xs) q ↔ x ∈ held q ∨ x ∈ xs ∧ q = p := by
  by_cases h : q = p
  · subst h
    simp
  · simp [h]

theorem mem_rest {held : Place → List (Handle K)} {p : Place} {xs rest : List (Handle K)}
    {x : Handle K} {q : Place} (ap : Apart held) (hp : (held p).Perm (xs ++ rest)) :
    x ∈ Function.update held p rest q ↔ x ∈ held q ∧ x ∉ xs := by
  have hn := (hp.nodup_iff.mp (ap.nodup p))
  by_cases h : q = p
  · subst h
    rw [Function.update_self, hp.mem_iff, List.mem_append]
    constructor
    · intro hr
      exact ⟨.inr hr, fun hx => (List.nodup_append.mp hn).2.2 x hx x hr rfl⟩
    · intro hx
      exact hx.1.resolve_left hx.2
  · rw [Function.update_of_ne h]
    constructor
    · intro hx
      refine ⟨hx, fun hxs => h ?_⟩
      exact ap.sole q p x hx (hp.mem_iff.mpr (List.mem_append_left rest hxs))
    · exact fun hx => hx.1

theorem Sound.moves {s s' : State K} (sd : Sound s) (m : Moves s s') : Sound s' := by
  cases m with
  | stay hh hn hs =>
    constructor
    · rw [hh]
      exact sd.apart
    · rw [hh, hn]
      exact sd.past
    · rw [hh, hs]
      exact sd.known
  | add p ks hh hn hs =>
    have hfresh : ∀ x ∈ handles s.next ks, ∀ q, x ∉ s.held q := by
      intro x hx q hq
      have hlt := sd.past q x hq
      have hle := (handles_id ks s.next x hx).1
      omega
    constructor
    · rw [hh]
      exact sd.apart.add (handles_nodup ks s.next) hfresh
    · intro q x hx
      rw [hh, mem_add] at hx
      rw [hn]
      cases hx with
      | inl hx =>
        have := sd.past q x hx
        omega
      | inr hx => exact (handles_id ks s.next x hx.1).2
    · intro x
      rw [hs, hh, List.mem_append, sd.known]
      simp only [mem_add]
      cases hp : p.gone with
      | true =>
        rw [if_pos rfl]
        constructor
        · intro hx
          cases hx with
          | inl hx => exact hx.imp fun q hq => ⟨hq.1, .inl hq.2⟩
          | inr hx => exact ⟨p, hp, .inr ⟨hx, rfl⟩⟩
        · intro ⟨q, hq, hx⟩
          exact hx.imp (fun h => ⟨q, hq, h⟩) fun h => h.1
      | false =>
        rw [if_neg (by decide)]
        constructor
        · intro hx
          obtain ⟨q, hq, hx⟩ := hx.resolve_right List.not_mem_nil
          exact ⟨q, hq, .inl hx⟩
        · intro ⟨q, hq, hx⟩
          refine .inl ⟨q, hq, hx.resolve_right fun h => ?_⟩
          rw [h.2, hp] at hq
          exact absurd hq (by decide)
  | move p q xs rest hpq hg hp hh hn hs =>
    have hmem : ∀ r x, x ∈ s'.held r ↔ (x ∈ s.held r ∧ x ∉ xs) ∨ x ∈ xs ∧ r = q := by
      intro r x
      have hq : s.held q = Function.update s.held p rest q := (Function.update_of_ne hpq.symm _ _).symm
      rw [hh, hq, mem_add, mem_rest sd.apart hp]
    have hxs : ∀ x ∈ xs, x ∈ s.held p := fun x hx => hp.mem_iff.mpr (List.mem_append_left rest hx)
    constructor
    · rw [hh]
      exact sd.apart.move hpq hp
    · intro r x hx
      rw [hn]
      cases (hmem r x).mp hx with
      | inl h => exact sd.past r x h.1
      | inr h => exact sd.past p x (hxs x h.1)
    · intro x
      rw [hs, List.mem_append, sd.known]
      simp only [hmem]
      constructor
      · intro h
        by_cases hx : x ∈ xs
        · exact ⟨q, hg, .inr ⟨hx, rfl⟩⟩
        · have hnil : x ∉ (if p.gone then [] else xs) := by
            split
            · exact List.not_mem_nil
            · exact hx
          obtain ⟨r, hr, hm⟩ := h.resolve_right hnil
          exact ⟨r, hr, .inl ⟨hm, hx⟩⟩
      · intro ⟨r, hr, h⟩
        cases h with
        | inl h => exact .inl ⟨r, hr, h.1⟩
        | inr h =>
          cases hpg : p.gone with
          | true => exact .inl ⟨p, hpg, hxs x h.1⟩
          | false => exact .inr (by simpa using h.1)

/-! ### One step moves handles -/

@[simp] theorem held_live (s : State K) (i : Stripe) : s.held (.live i) = s.live i := rfl
@[simp] theorem held_retired (s : State K) (i : Stripe) : s.held (.retired i) = s.retired i := rfl
@[simp] theorem held_drain (s : State K) (t : Nat) : s.held (.drain t) = holding (s.calls t) := rfl
@[simp] theorem held_output (s : State K) (n : Nat) : s.held (.output n) = s.outputs.getD n [] := rfl

theorem held_goto (s : State K) (t : Nat) (c : Option (Call K)) :
    (s.goto t c).held = Function.update s.held (.drain t) (holding c) := by
  funext p
  cases p with
  | drain u =>
    by_cases h : u = t
    · subst h
      simp [State.goto]
    · have hp : Place.drain u ≠ .drain t := fun he => h (Place.drain.inj he)
      simp [State.goto, h, hp]
  | live i => simp [State.goto]
  | retired i => simp [State.goto]
  | output n => simp [State.goto]

theorem held_goto_same (s : State K) (t : Nat) (c : Option (Call K))
    (h : holding c = holding (s.calls t)) : (s.goto t c).held = s.held := by
  rw [held_goto, h]
  exact Function.update_eq_self (Place.drain t) s.held

theorem held_retire (s : State K) (i : Stripe) (x : Handle K) (rest : List (Handle K)) :
    (s.retire i x rest).held = Function.update (Function.update s.held (.live i) rest) (.retired i)
      (s.held (.retired i) ++ [x]) := by
  funext p
  cases p with
  | live j =>
    by_cases h : j = i
    · subst h
      simp [State.retire]
    · simp [State.retire, h]
  | retired j =>
    by_cases h : j = i
    · subst h
      simp [State.retire]
    · simp [State.retire, h]
  | drain u => simp [State.retire]
  | output n => simp [State.retire]

theorem held_defer (s : State K) (i : Stripe) (k : K) :
    (s.defer i k).held = Function.update s.held (.retired i)
      (s.held (.retired i) ++ handles s.next [k]) := by
  funext p
  cases p with
  | retired j =>
    by_cases h : j = i
    · subst h
      simp [State.defer, handles]
    · simp [State.defer, h]
  | live j => simp [State.defer]
  | drain u => simp [State.defer]
  | output n => simp [State.defer]

theorem held_track (s : State K) (i : Stripe) (k : K) :
    (s.track i k).held = Function.update s.held (.live i)
      (s.held (.live i) ++ handles s.next [k]) := by
  funext p
  cases p with
  | live j =>
    by_cases h : j = i
    · subst h
      simp [State.track, handles]
    · simp [State.track, h]
  | retired j => simp [State.track]
  | drain u => simp [State.track]
  | output n => simp [State.track]

/-- The first half of `replace`: the buckets are emptied into the retired list. -/
def State.empty (s : State K) (i : Stripe) (old : List (Handle K)) : State K :=
  { s with
    live := Function.update s.live i []
    retired := Function.update s.retired i (s.retired i ++ old)
    history := s.history ++ old }

theorem held_empty (s : State K) (i : Stripe) (old : List (Handle K)) :
    (s.empty i old).held = Function.update (Function.update s.held (.live i) []) (.retired i)
      (s.held (.retired i) ++ old) := by
  funext p
  cases p with
  | live j =>
    by_cases h : j = i
    · subst h
      simp [State.empty]
    · simp [State.empty, h]
  | retired j =>
    by_cases h : j = i
    · subst h
      simp [State.empty]
    · simp [State.empty, h]
  | drain u => simp [State.empty]
  | output n => simp [State.empty]

theorem held_replace (s : State K) (i : Stripe) (staged : List K) (old : List (Handle K)) :
    (s.replace i staged old).held = Function.update (s.empty i old).held (.live i)
      ((s.empty i old).held (.live i) ++ handles (s.empty i old).next staged) := by
  funext p
  cases p with
  | live j =>
    by_cases h : j = i
    · subst h
      simp [State.replace, State.empty]
    · simp [State.replace, State.empty, h]
  | retired j => simp [State.replace, State.empty]
  | drain u => simp [State.replace, State.empty]
  | output n => simp [State.replace, State.empty]

theorem held_collect (s : State K) (i : Stripe) :
    (s.collect i).held = Function.update s.held (.retired i) [] := by
  funext p
  cases p with
  | retired j =>
    by_cases h : j = i
    · subst h
      simp [State.collect]
    · simp [State.collect, h]
  | live j => simp [State.collect]
  | drain u => simp [State.collect]
  | output n => simp [State.collect]

theorem held_return (s : State K) (r : List (Handle K)) :
    ({ s with outputs := s.outputs ++ [r] } : State K).held =
      Function.update s.held (.output s.outputs.length) (s.held (.output s.outputs.length) ++ r) := by
  funext p
  cases p with
  | output n =>
    obtain hlt | rfl | hgt := Nat.lt_trichotomy n s.outputs.length
    · have hn : n ≠ s.outputs.length := by omega
      simp [List.getD, List.getElem?_append_left hlt, hn]
    · simp [List.getD]
    · have hn : n ≠ s.outputs.length := by omega
      have hge : s.outputs.length + 1 ≤ n := hgt
      simp [List.getD, hn, List.getElem?_eq_none, hge, Nat.le_of_lt hgt]
  | live j => simp
  | retired j => simp
  | drain u => simp

theorem Sound.quiet {s s' : State K} {t : Nat} {c : Option (Call K)} (sd : Sound s)
    (hl : s'.live = s.live) (hr : s'.retired = s.retired) (hc : s'.calls = s.calls)
    (ho : s'.outputs = s.outputs) (hn : s'.next = s.next) (hh : s'.history = s.history)
    (h : holding c = holding (s.calls t)) : Sound (s'.goto t c) := by
  have he : s'.held = s.held := by
    funext p
    cases p with
    | live i => exact congrFun hl i
    | retired i => exact congrFun hr i
    | drain u => simp [hc]
    | output n => simp [ho]
  apply sd.moves
  apply Moves.stay
  · rw [held_goto_same s' t c (by rw [h, hc]), he]
  · exact hn
  · exact hh

theorem Sound.go {s s' : State K} {t : Nat} {c : Option (Call K)} (sd : Sound s)
    (m : Moves s s') (h : holding c = holding (s'.calls t)) : Sound (s'.goto t c) := by
  apply (sd.moves m).moves
  exact .stay (held_goto_same s' t c h) rfl rfl

theorem Moves.retire {s : State K} {i : Stripe} {x : Handle K} {rest : List (Handle K)}
    (h : (s.live i).Perm (x :: rest)) : Moves s (s.retire i x rest) :=
  .move (.live i) (.retired i) [x] rest (by simp) rfl h (held_retire s i x rest) rfl rfl

theorem Moves.defer (s : State K) (i : Stripe) (k : K) : Moves s (s.defer i k) :=
  .add (.retired i) [k] (held_defer s i k) rfl rfl

theorem Moves.track (s : State K) (i : Stripe) (k : K) : Moves s (s.track i k) :=
  .add (.live i) [k] (held_track s i k) rfl (List.append_nil s.history).symm

theorem Sound.replace {s : State K} (sd : Sound s) {i : Stripe} {staged : List K}
    {old : List (Handle K)} (h : old.Perm (s.live i)) : Sound (s.replace i staged old) := by
  have hm : Moves s (s.empty i old) :=
    .move (.live i) (.retired i) old [] (by simp) rfl (by simpa using h.symm) (held_empty s i old)
      rfl rfl
  apply (sd.moves hm).moves
  exact .add (.live i) staged (held_replace s i staged old) rfl (List.append_nil _).symm

theorem RemovalStep.sound {t : Nat} {i : Stripe} {wrap : Removal K → Call K}
    (hw : ∀ stage, holding (some (wrap stage)) = []) {s s' : State K} (sd : Sound s)
    (st : RemovalStep t i wrap s s') : Sound s' := by
  cases st with
  | lock hc _ => exact sd.quiet rfl rfl rfl rfl rfl rfl (by rw [hc, hw, hw])
  | miss hc => exact sd.quiet rfl rfl rfl rfl rfl rfl (by rw [hc, hw]; rfl)
  | push hc hp =>
    apply sd.go (.retire hp)
    rw [hw]
    exact (congrArg holding hc |>.trans (hw _)).symm
  | publish hc => exact sd.quiet rfl rfl rfl rfl rfl rfl (by rw [hc, hw, hw])
  | unlock hc => exact sd.quiet rfl rfl rfl rfl rfl rfl (by rw [hc, hw]; rfl)

theorem Step.sound {t : Nat} {s s' : State K} (sd : Sound s) (st : Step t s s') : Sound s' := by
  cases st with
  | deferLock hc _ | deferUnlock hc | deferPublish hc | insertLock hc _ | insertFound hc
  | insertUnlock hc | reconcileUnwind hc | reconcileLock _ hc _ | reconcileBegin hc
  | reconcilePublish hc | reconcileUnlock _ hc | reconcileReturn hc | drainSwap hc
  | drainNext hc _ | drainLock hc _ | drainUnlock hc =>
    exact sd.quiet rfl rfl rfl rfl rfl rfl (by rw [hc]; rfl)
  | deferPush hc =>
    apply sd.go (.defer s _ _)
    exact (congrArg holding hc).symm
  | insertPush hc =>
    apply sd.go (.track s _ _)
    exact (congrArg holding hc).symm
  | remove hash st => exact st.sound (fun _ => rfl) sd
  | evict hash st => exact st.sound (fun _ => rfl) sd
  | reconcileReplace hn hc hp =>
    apply (sd.replace hp).moves
    exact .stay (held_goto_same _ t _ (congrArg holding hc).symm) rfl rfl
  | drainAppend hc =>
    rename_i i p r
    apply sd.moves
    apply Moves.move (.retired i) (.drain t) (s.retired i) []
    · simp
    · rfl
    · simp
    · rw [held_goto, held_collect, held_drain, hc]
      rfl
    · rfl
    · exact (List.append_nil _).symm
  | drainReturn hc =>
    rename_i r
    apply sd.moves
    apply Moves.move (.drain t) (.output s.outputs.length) r []
    · simp
    · rfl
    · rw [held_drain, hc]
      simp [holding]
    · rw [held_goto, held_return]
      exact (Function.update_comm (by simp) _ _ _)
    · rfl
    · exact (List.append_nil _).symm

theorem Sound.new : Sound (State.new K) := by
  have hn : ∀ p, (State.new K).held p = [] := by
    intro p
    cases p with
    | live i => rfl
    | retired i => rfl
    | drain t => rfl
    | output n => rfl
  constructor
  · constructor
    · intro p
      rw [hn]
      exact List.nodup_nil
    · intro p q x hp
      rw [hn] at hp
      exact absurd hp List.not_mem_nil
  · intro p x hx
    rw [hn] at hx
    exact absurd hx List.not_mem_nil
  · intro x
    simp only [hn]
    simp [State.new]

theorem holding_enter (request : Request K) : holding (some request.enter) = [] := by
  cases request <;> rfl

theorem Reachable.sound {s : State K} (r : Reachable s) : Sound s := by
  induction r with
  | new => exact Sound.new
  | call request _ hc ih =>
    exact ih.quiet rfl rfl rfl rfl rfl rfl (by rw [hc, holding_enter]; rfl)
  | step _ st ih => exact st.sound ih

end Starshard.Retirement
