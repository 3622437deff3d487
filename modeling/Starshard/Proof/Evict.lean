import Starshard.Proof.Whole

/-! Capacity maintenance. Every evicted entry is an event of its own, committed
before the lock of its shard is released. -/
namespace Starshard

open Data Concurrent
open Function (update)

section Guards

variable {K V : Type} {gs : Guards K V} {k : K} {x : V}

theorem SameLocks.retire (k : K) (x : V) : SameLocks gs (gs.map (Guard.retire k x)) :=
  .map (fun y hy => by cases y <;> exact hy) fun _ _ => rfl

theorem Guard.opened_retire (id : Nat) :
    Guard.opened (gs.map (Guard.retire k x)) id = Guard.opened gs id := by
  induction gs with
  | nil => rfl
  | cons y gs ih =>
    rw [List.map_cons]
    cases y with
    | mutation id' n c => simp only [Guard.retire, Guard.opened_mutation, ih]
    | lock l m => exact ih
    | batch started entries => exact ih
    | _ => exact ih

theorem Closed.retire (h : Closed gs) : Closed (gs.map (Guard.retire k x)) := fun id => by
  rw [Guard.opened_retire, h id]

theorem Ordered.retire (h : Ordered gs) : Ordered (gs.map (Guard.retire k x)) := by
  induction gs with
  | nil => trivial
  | cons y gs ih =>
    rw [List.map_cons]
    cases y with
    | lock l m =>
      exact ⟨fun hl l' hl' ho => h.1 hl l' hl' (((SameLocks.retire k x).owns l').mp ho),
        h.2.1.retire, ih h.2.2⟩
    | mutation id n c =>
      exact ⟨((SameLocks.retire k x).ownsExcl _).mpr h.1, (SameLocks.retire k x).pinned.mpr h.2.1,
        h.2.2.1.retire, ih h.2.2.2⟩
    | _ => exact ih h

theorem Stack.retire (h : Stack gs) : Stack (gs.map (Guard.retire k x)) where
  ordered := h.ordered.retire
  closed := h.closed.retire
  inner l hl ho := ((SameLocks.retire k x).owns _).mpr
    (h.inner l hl (((SameLocks.retire k x).owns _).mp ho))
  single hp hx := h.single ((SameLocks.retire k x).pinned.mp hp)
    ((SameLocks.retire k x).exclusive.mp hx)

/-- Evicted entries collect in the open batch of the stack. -/
def Retiring (F : List (K × V) → Guards K V) : Prop :=
  ∀ es k x, (F es).map (Guard.retire k x) = F (es ++ [(k, x)])

variable {F : List (K × V) → Guards K V}

theorem Retiring.lock (h : Retiring F) (l : LockId) (m : Mode) :
    Retiring fun es => .lock l m :: F es := fun es k x => by
  rw [List.map_cons, h es k x]
  rfl

theorem Retiring.ticket (h : Retiring F) : Retiring fun es => .ticket :: F es := fun es k x => by
  rw [List.map_cons, h es k x]
  rfl

end Guards

variable {K V : Type} [DecidableEq K] {env : Env K V} {L : Lifecycle K V} {alone : Prop}
  {v v' v₀ : View K V L.State} {α : Type} {Φ : α → View K V L.State → Prop}
  {sp : List (Event K V) → Prop} {gs gs' : Guards K V} {ds es : List (Event K V)}
  {cs cs' : List Metric} {c : Contents K V} {k : K} {x : V} {id : Nat}

def Event.isEviction (e : Event K V) : Prop := ∃ k x, e = Event.modify k (some x) none

/-- The task may take entries out of a shard of these directories: it is active and
locked, or the whole map is owned. -/
def Evictable (gs : Guards K V) (id : Nat) (active : Slots) (previous : Option Slots) : Prop :=
  (Pinned gs ∧ OwnsExcl gs (.shard id) ∧ ∃ i : Nat, active[i]? = some (some id)) ∨
    (Exclusive gs ∧ id ∈ allocatedShards active ++ allocatedShards (previous.getD []))

omit [DecidableEq K] in
theorem Evictable.owned {active : Slots} {previous : Option Slots}
    (h : Evictable gs id active previous) : Exclusive gs ∨ Owns gs (.shard id) :=
  h.elim (fun h => .inr h.2.1.owns) fun h => .inl h.1

namespace Calm

section Pinned

def evicted (v : View K V L.State) (id : Nat) (k : K) : View K V L.State :=
  { v with
    st := { v.st with
      heap := update v.st.heap id ((v.st.heap id).erase k)
      totalLen := v.st.totalLen - 1
      published := v.st.published + 1 }
    acc := update v.acc id (v.acc id - 1)
    fresh := true
    evs := v.evs ++ [Event.publish] }

variable (h : Calm env sp gs ds cs v) (hp : Pinned gs) (ho : OwnsExcl gs (.shard id)) {i : Nat}
  (hi : v.st.shards[i]? = some (some id)) (hx : (v.st.heap id).lookup k = some x)

include h hp ho hi hx

theorem shift_evicted (hsp : sp (ds ++ [Event.modify k (some x) none]))
    {Ψ : View K V L.State → Prop}
    (hΨ : ∀ v', Calm env sp gs (ds ++ [Event.modify k (some x) none]) cs v' →
      v'.st.shards = v.st.shards → v'.st.previous = v.st.previous → Ψ v') :
    (protocol env L alone).Shift (evicted v id k) Ψ := by
  have hw := h.wellFormed hp.owns
  have hid : id ∈ v.st.live := State.mem_live.mpr (.inl ⟨i, hi⟩)
  have hpv : Pinned v.gs := h.guards ▸ hp
  have hov : OwnsExcl v.gs (.shard id) := h.guards ▸ ho
  have hk : v.st.home env.hash k = some id := by
    rw [State.home_eq_some, hw.home_active i id hi k x hx]
    exact hi
  have hk' : (evicted v id k).st.home env.hash k = some id := hk
  have hreads : Reads env.hash v.gs v.st k := reads_home hpv hov.owns hk
  have hold : v.abs k = some x := (h.clean.contents k hreads).trans (hw.contents_some hid hx)
  have hsize : Assoc.size ((v.st.heap id).erase k) = (v.st.heap id).size - 1 := by
    rw [Assoc.size_erase, hx]
    rfl
  refine shift_emit (v := evicted v id k) (e := .modify k (some x) none) rfl ?_
    (c := update v.abs k none) ⟨hold, rfl⟩ (fun k' _ => ?_) ?_ fun abs habs => hΨ _ ?_ rfl rfl
  · intro k' hk'
    obtain rfl : k' = k := hk'
    exact hreads
  · by_cases hkk : k' = k
    · subst hkk
      exact .inr ⟨writes_home hpv hov hk', rfl⟩
    · exact .inl (Function.update_of_ne hkk _ _)
  · show v.spec (Starshard.visible (v.evs ++ [Event.publish]) ++ _)
    rw [visible_append, h.visible, visible_publish, List.append_nil, h.spec]
    exact hsp
  · refine ⟨⟨fun _ => ?_, fun hx' => absurd hx' (h.stack.single hpv), fun j hj => ?_,
      fun k' hk' => ?_⟩, h.stack, h.guards, h.spec, ?_, ?_, fun _ =>
      ⟨_, List.mem_append_right _ List.mem_cons_self, trivial⟩⟩
    · have hshrink := hw.shrink id (m := (v.st.heap id).erase k) fun k' => by
        by_cases hkk : k' = k
        · subst hkk
          exact .inl (AList.lookup_erase _ _)
        · exact .inr (AList.lookup_erase_ne hkk)
      exact State.SameTables.wellFormed (s := v.st.withHeap (update v.st.heap id
        ((v.st.heap id).erase k))) ⟨rfl, rfl, rfl, rfl, rfl, rfl, rfl⟩ hshrink
    · show update v.acc id (v.acc id - 1) j =
        (update v.st.heap id ((v.st.heap id).erase k) j).size
      by_cases hjj : j = id
      · subst hjj
        rw [Function.update_self, Function.update_self, hsize, h.clean.acc j (.inr hov.owns)]
      · rw [Function.update_of_ne hjj, Function.update_of_ne hjj]
        exact h.clean.acc j hj
    · have hread : Reads env.hash v.gs v.st k' := hk'
      show abs k' = (v.st.withHeap (update v.st.heap id ((v.st.heap id).erase k))).contents
        env.hash k'
      rw [habs k' hk', hw.contents_erase hid hx]
      by_cases hkk : k' = k
      · simp [hkk]
      · rw [Function.update_of_ne hkk, Function.update_of_ne hkk]
        exact h.clean.contents k' hread
    · show Starshard.visible (v.evs ++ [Event.publish] ++ [Event.modify k (some x) none]) = _
      rw [visible_append, visible_append, h.visible, visible_publish, List.append_nil]
      rfl
    · show Starshard.counted (v.evs ++ [Event.publish] ++ [Event.modify k (some x) none]) = _
      rw [counted_append, counted_append, h.counted, counted_publish, List.append_nil]
      exact List.append_nil _

theorem wp_evict_pinned (hsp : sp (ds ++ [Event.modify k (some x) none])) {g : Option V → Prog K V α}
    {b : Act K V} {f : Resp b → Prog K V α}
    (hg : g (some x) = Sync.recordRemoval >>= fun _ => act b >>= f)
    (hΦ : ∀ v', Calm env sp gs (ds ++ [Event.modify k (some x) none]) cs v' →
      v'.st.shards = v.st.shards → v'.st.previous = v.st.previous →
      (protocol env L alone).Wp (act b >>= f) v' Φ) :
    (protocol env L alone).Wp (act (.take id k) >>= g) v Φ := by
  have hw := h.wellFormed hp.owns
  have hpv : Pinned v.gs := h.guards ▸ hp
  have hov : OwnsExcl v.gs (.shard id) := h.guards ▸ ho
  have hk : v.st.home env.hash k = some id := by
    rw [State.home_eq_some, hw.home_active i id hi k x hx]
    exact hi
  have hle : 1 ≤ v.acc id := by
    rw [h.clean.acc id (.inr hov.owns)]
    exact Assoc.size_pos_of_lookup hx
  refine wp_quiet rfl (rule_take hpv hov (fun _ => hk) ?_)
  rw [hx, hg]
  refine Protocol.Wp.bind (wp_quiet rfl (rule_subLen (by exact hpv) (by exact hov)
    (by exact hle) (wp_last (wp_quiet rfl (rule_bump (.inr (by exact ⟨hpv, i, id, hi, hov⟩)) ?_)))))
  exact Protocol.Shift.wp (h.shift_evicted hp ho hi hx hsp hΦ)

end Pinned

theorem wp_evict (h : Calm env sp gs ds cs v) (he : Evictable gs id v.st.shards v.st.previous)
    (hsp : ∀ x, sp (ds ++ [Event.modify k (some x) none])) {g : Option V → Prog K V α}
    {b : Act K V} {f : V → Resp b → Prog K V α}
    (hg : ∀ x, g (some x) = Sync.recordRemoval >>= fun _ => act b >>= f x)
    (hnone : (protocol env L alone).Wp (g none) v Φ)
    (hsome : ∀ x v', Calm env sp gs (ds ++ [Event.modify k (some x) none]) cs v' →
      v'.st.shards = v.st.shards → v'.st.previous = v.st.previous →
      (protocol env L alone).Wp (act b >>= f x) v' Φ) :
    (protocol env L alone).Wp (act (.take id k) >>= g) v Φ := by
  cases hx : (v.st.heap id).lookup k with
  | none =>
    have hsame : { v with st := { v.st with
        heap := update v.st.heap id ((v.st.heap id).erase k) } } = v := by
      rw [Assoc.erase_of_lookup_none hx, Function.update_eq_self]
    refine wp_quiet rfl ?_
    rcases he with ⟨hp, ho, -⟩ | ⟨hx', -⟩
    · refine rule_take (h.guards ▸ hp) (h.guards ▸ ho) (fun hne => absurd hx hne) ?_
      rwa [hx, hsame]
    · refine rule_take_exclusive (h.guards ▸ hx') ?_
      rwa [hx, hsame]
  | some x =>
    rcases he with ⟨hp, ho, i, hi⟩ | ⟨hx', hid⟩
    · exact h.wp_evict_pinned hp ho hi hx (hsp x) (hg x) (hsome x)
    · have hw := Whole.start h hx'
      refine hw.wp_remove hid hx (hg x) fun v₁ h₁ hst₁ => Protocol.Shift.wp ?_
      refine h₁.commit h hx' (List.forall_mem_singleton.mpr rfl) ?_ (by simp [Event.changes]) (hsp x)
        fun v₂ h₂ hst => ?_
      · exact ⟨_, ⟨(h.wellFormed hx'.owns).contents_some hid hx, rfl⟩, rfl⟩
      · rw [List.append_nil] at h₂
        exact hsome x v₂ h₂ (by rw [hst, hst₁]) (by rw [hst, hst₁])

theorem wp_retire (h : Calm env sp gs ds cs v) {f : Unit → Prog K V α}
    (hΦ : ∀ v', Calm env sp (gs.map (Guard.retire k x)) ds cs v' → v'.st = v.st →
      (protocol env L alone).Wp (f ()) v' Φ) :
    (protocol env L alone).Wp (act (.retire k x) >>= f) v Φ := by
  refine wp_quiet rfl (rule_retire (hΦ _ ?_ rfl))
  exact ⟨h.clean.mono fun l m => (SameLocks.retire k x l m).mp, h.stack.retire,
    by rw [← h.guards], h.spec, h.visible, h.counted, h.quiet⟩

end Calm

/-- A task that evicts: its events and its batch grow, and the directories keep `Q`. -/
def Evicting (env : Env K V) (sp : List (Event K V) → Prop) (F : List (K × V) → Guards K V)
    (ds : List (Event K V)) (cs : List Metric) (Q : Slots → Option Slots → Prop)
    (v : View K V L.State) : Prop :=
  ∃ es ev, (∀ e ∈ ev, e.isEviction) ∧
    Calm env sp (F es) (ds ++ ev) (cs ++ List.replicate ev.length Metric.evictions) v ∧
    Q v.st.shards v.st.previous

variable {F : List (K × V) → Guards K V} {Q : Slots → Option Slots → Prop}

/-- The specification leaves room for evictions. -/
def Spares (sp : List (Event K V) → Prop) (ds : List (Event K V)) : Prop :=
  ∀ ev, (∀ e ∈ ev, e.isEviction) → sp (ds ++ ev)

namespace Evicting

variable (hF : Retiring F) (hsp : Spares sp ds)

include hF hsp

theorem wp_evictFrom (id : Nat) (hQ : ∀ es a p, Q a p → Evictable (F es) id a p)
    (h : Evicting env sp F ds cs Q v) (candidate : EvictionCandidate K) :
    (protocol env L alone).Wp (Sync.evictFrom id candidate) v fun _ v' =>
      Evicting env sp F ds cs Q v' := by
  obtain ⟨es, ev, hev, h, hq⟩ := h
  have hev' : ∀ x, ∀ e ∈ ev ++ [Event.modify candidate.key (some x) none], e.isEviction := by
    intro x e hmem
    rcases List.mem_append.mp hmem with hmem | hmem
    · exact hev e hmem
    · exact ⟨_, x, List.mem_singleton.mp hmem⟩
  refine wp_user h.settled (h.wp_evict (hQ es _ _ hq) (fun x => ?_) (b := .count .evictions)
    (fun x => rfl) ⟨es, ev, hev, h, hq⟩ fun x v₁ h₁ a₁ p₁ => ?_)
  · rw [List.append_assoc]
    exact hsp _ (hev' x)
  refine h₁.wp_count fun v₂ h₂ s₂ => h₂.wp_call fun _ v₃ h₃ s₃ => h₃.wp_retire fun v₄ h₄ s₄ => ?_
  rw [hF] at h₄
  refine ⟨es ++ [(candidate.key, x)], ev ++ [Event.modify candidate.key (some x) none], hev' x, ?_, ?_⟩
  · rw [List.append_assoc, List.append_assoc] at h₄
    rw [List.length_append, List.length_singleton, List.replicate_succ']
    exact h₄
  · rw [s₄, s₃.shards, s₃.previous, s₂.shards, s₂.previous, a₁, p₁]
    exact hq

theorem wp_trimShard (hQ : ∀ es a p, Q a p → Evictable (F es) id a p) (limit : Nat)
    (candidates : List (EvictionCandidate K)) :
    ∀ {v : View K V L.State} (evicted : List (K × V)), Evicting env sp F ds cs Q v →
      (protocol env L alone).Wp (Sync.trimShard id limit candidates evicted) v fun _ v' =>
        Evicting env sp F ds cs Q v' := by
  induction candidates with
  | nil => exact fun _ h => h
  | cons candidate candidates ih =>
    intro v evicted h
    obtain ⟨es, ev, hev, hc, hq⟩ := h
    refine wp_quiet rfl (rule_len (hc.guards ▸ (hQ es _ _ hq).owned) ?_)
    by_cases hlen : (v.st.heap id).size ≤ limit
    · rw [if_pos hlen]
      exact ⟨es, ev, hev, hc, hq⟩
    · rw [if_neg hlen]
      refine hc.wp_call fun valid v₁ h₁ s₁ => ?_
      have h₁ : Evicting env sp F ds cs Q v₁ :=
        ⟨es, ev, hev, h₁, by rw [s₁.shards, s₁.previous]; exact hq⟩
      cases (valid : Bool) with
      | false => exact ih evicted h₁
      | true =>
        refine Protocol.Wp.bind ((wp_evictFrom hF hsp id hQ h₁ candidate).mono fun r v₂ h₂ => ?_)
        cases r with
        | none => exact ih evicted h₂
        | some x => exact ih _ h₂

theorem wp_limitShard (hp : ∀ es, Pinned (F es)) (hfree : ∀ es l, l.inner → ¬ Owns (F es) l)
    (hQ : ∀ (a a' : Slots) p, Q a p → (∀ i id : Nat, a[i]? = some (some id) →
      a'[i]? = some (some id)) → Q a' p)
    (hid : ∀ a p, Q a p → ∃ i : Nat, a[i]? = some (some id))
    (policy : CapacityPolicy) (limit : Nat) (state : List (K × V) × Bool)
    (h : Evicting env sp F ds cs Q v) :
    (protocol env L alone).Wp (Sync.limitShard policy limit state id) v fun _ v' =>
      Evicting env sp F ds cs Q v' := by
  obtain ⟨es, ev, hev, h, hq⟩ := h
  have keep : ∀ {w w' : View K V L.State}, Keeps env (F es) w w' → Q w.st.shards w.st.previous →
      Q w'.st.shards w'.st.previous := fun {w w'} hk hw => by
    rw [Agree.previous hk (hp es).owns]
    exact hQ _ _ _ hw (Agree.slots hk (hp es).owns)
  have hroot : ∀ {w : View K V L.State} (j : Nat), LockId.shard id = .shard j → Pinned (F es) →
      Q w.st.shards w.st.previous → j ∈ w.st.live :=
    fun j hj _ hw => LockId.shard.inj hj ▸ State.mem_live.mpr (.inl (hid _ _ hw))
  refine wp_lock_calm h (fun _ => (hp es).owns) (free_of_not_owns (hfree es _ rfl)) nofun
    (fun j hj hpin => hroot j hj hpin hq) fun v₁ h₁ k₁ _ => ?_
  refine wp_quiet rfl (rule_len (.inr (h₁.owns ⟨.shared, List.mem_cons_self⟩)) ?_)
  refine wp_unlock_calm h₁ nofun fun v₂ h₂ w₂ _ => ?_
  rw [without_lock] at h₂
  have hq₂ := keep (k₁.trans (.of_eq w₂)) hq
  by_cases hlen : (v₁.st.heap id).size ≤ limit
  · rw [if_pos hlen]
    exact ⟨es, ev, hev, h₂, hq₂⟩
  rw [if_neg hlen]
  refine wp_lock_calm h₂ (fun _ => (hp es).owns) (free_of_not_owns (hfree es _ rfl)) nofun
    (fun j hj hpin => hroot j hj hpin hq₂) fun v₃ h₃ k₃ _ => ?_
  have hq₃ := keep k₃ hq₂
  refine wp_quiet rfl (rule_entries (.inr (h₃.owns ⟨.excl, List.mem_cons_self⟩)) fun entries _ => ?_)
  refine h₃.wp_call fun candidates v₄ h₄ s₄ => ?_
  have he : ∀ es a p, Q a p → Evictable (.lock (.shard id) .excl :: F es) id a p := fun es a p hq =>
    .inl ⟨List.mem_cons_of_mem _ (hp es), List.mem_cons_self, hid a p hq⟩
  refine Protocol.Wp.bind ((wp_trimShard (hF.lock (.shard id) .excl) hsp he limit candidates state.1
    ⟨es, ev, hev, h₄, by rw [s₄.shards, s₄.previous]; exact hq₃⟩).mono
    fun evicted v₅ ⟨es₅, ev₅, hev₅, h₅, hq₅⟩ => ?_)
  refine wp_quiet rfl (rule_len (.inr (h₅.owns ⟨.excl, List.mem_cons_self⟩)) ?_)
  refine wp_unlock_calm h₅ nofun fun v₆ h₆ w₆ _ => ?_
  rw [without_lock] at h₆
  exact ⟨es₅, ev₅, hev₅, h₆, by rw [w₆]; exact hq₅⟩

end Evicting

section Exclusive

variable (hx : Exclusive gs)

include hx

/-- Inside exclusive routing nothing moves while a lock is awaited. -/
theorem Calm.wp_lock_exclusive (h : Calm env sp gs ds cs v) {l : LockId} {m : Mode}
    (hl : l ≠ .routing) (hfree : ¬ Owns gs l) {f : Unit → Prog K V α}
    (hΦ : ∀ v', Calm env sp (.lock l m :: gs) ds cs v' → State.SameCore v.st v'.st →
      (alone → v'.toWorld = v.toWorld) → (protocol env L alone).Wp (f ()) v' Φ) :
    (protocol env L alone).Wp (act (.lock l m) >>= f) v Φ := by
  refine wp_lock_calm h (fun _ => hx.owns) (free_of_not_owns hfree) (fun hr => absurd hr hl)
    (fun _ _ hp => ?_) fun v₁ h₁ k₁ a₁ => hΦ v₁ h₁ ((Agree.exclusive k₁) hx).1 a₁
  exact absurd (h.guards ▸ hx) (h.stack.single (h.guards ▸ hp))

theorem Calm.wp_weighShard (h : Calm env sp gs ds cs v) (hfree : ¬ Owns gs (.shard id)) :
    (protocol env L alone).Wp (Sync.weighShard id) v fun _ v' =>
      Calm env sp gs ds cs v' ∧ State.SameCore v.st v'.st := by
  refine h.wp_lock_exclusive (l := .shard id) hx (fun he => by cases he) hfree
    fun v₁ h₁ s₁ _ => ?_
  refine wp_quiet rfl (rule_entries (.inr (h₁.owns ⟨.shared, List.mem_cons_self⟩))
    fun entries _ => Protocol.Wp.bind ?_)
  refine (Protocol.Wp.mapM (I := fun _ _ (w : View K V L.State) =>
    Calm env sp (.lock (.shard id) .shared :: gs) ds cs w ∧ State.SameCore v.st w.st)
    (fun _ e _ _ w _ hw => ?_) ⟨h₁, s₁⟩).mono fun _ v₂ h₂ => ?_
  · obtain ⟨hw, sw⟩ := hw
    exact hw.wp_call fun _ w' hw' sw' => wp_user hw'.settled ⟨hw', sw.trans sw'⟩
  · obtain ⟨h₂, s₂⟩ := h₂
    refine wp_unlock_calm h₂ (fun he => by cases he) fun v₃ h₃ w₃ _ => ?_
    rw [without_lock] at h₃
    exact ⟨h₃, by rw [w₃]; exact s₂⟩

theorem Calm.wp_reconcile (h : Calm env sp gs ds cs v) (hfree : ∀ l, l.inner → ¬ Owns gs l) :
    (protocol env L alone).Wp (Sync.reconcileEvictionMetadata) v fun _ v' =>
      Calm env sp gs ds cs v' ∧ State.SameCore v.st v'.st := by
  refine h.wp_call fun dirty v₁ h₁ s₁ => ?_
  cases (dirty : Bool) with
  | false => exact ⟨h₁, s₁⟩
  | true =>
    have hx' : Exclusive (.ticket :: gs) := List.mem_cons_of_mem _ hx
    have hfree' : ∀ l, l.inner → ¬ Owns (.ticket :: gs) l := fun l hl =>
      ((SameLocks.cons rfl).owns l).not.mpr (hfree l hl)
    refine Protocol.Wp.bind (h₁.wp_mutation.mono fun _ v₂ ⟨h₂, s₂⟩ => Protocol.Wp.bind ?_)
    refine (h₂.wp_allShards hx' (hfree' _ rfl) (hfree' _ rfl)).mono fun shards v₃ ⟨_, h₃, k₃, _⟩ => ?_
    have s₃ := ((Agree.exclusive k₃) hx').1
    refine Protocol.Wp.bind ((Protocol.Wp.mapM (I := fun _ _ (w : View K V L.State) =>
      Calm env sp (.ticket :: gs) ds cs w ∧ State.SameCore v.st w.st)
      (fun _ id _ _ w _ ⟨hw, sw⟩ => ?_) ⟨h₃, (s₁.trans s₂).trans s₃⟩).mono
      fun _ v₄ ⟨h₄, s₄⟩ => ?_)
    · exact (hw.wp_weighShard hx' (hfree' _ rfl)).mono fun _ w' ⟨hw', sw'⟩ => ⟨hw', sw.trans sw'⟩
    · refine h₄.wp_call fun _ v₅ h₅ s₅ => ?_
      exact h₅.wp_finish.mono fun _ v₆ ⟨h₆, s₆⟩ => ⟨h₆, (s₄.trans s₅).trans s₆⟩

theorem Calm.wp_countShard (h : Calm env sp gs ds cs v) (hfree : ¬ Owns gs (.shard id))
    (counts : Nat → Nat) : (protocol env L alone).Wp (Sync.countShard env counts id) v
      fun _ v' => Calm env sp gs ds cs v' := by
  refine h.wp_lock_exclusive (l := .shard id) hx (fun he => by cases he) hfree
    fun v₁ h₁ s₁ _ => ?_
  refine wp_quiet rfl (rule_entries (.inr (h₁.owns ⟨.shared, List.mem_cons_self⟩))
    fun entries _ => Protocol.Wp.bind ?_)
  refine (Protocol.Wp.foldlM (I := fun _ _ (w : View K V L.State) =>
    Calm env sp (.lock (.shard id) .shared :: gs) ds cs w)
    (fun _ e _ _ w _ hw => ?_) h₁).mono fun _ v₂ h₂ => ?_
  · refine Protocol.Wp.bind ((hw.wp_shardIndex (Exclusive.owns (List.mem_cons_of_mem _ hx)) e.1).mono
      fun index w' he => ?_)
    exact he.2 ▸ hw
  · refine wp_unlock_calm h₂ (fun he => by cases he) fun v₃ h₃ w₃ _ => ?_
    rwa [without_lock] at h₃

theorem Calm.wp_countShards (h : Calm env sp gs ds cs v) (hfree : ∀ l, l.inner → ¬ Owns gs l)
    (config : EvictionConfig) : (protocol env L alone).Wp (Sync.countShards env config) v
      fun _ v' => Calm env sp gs ds cs v' := by
  unfold Sync.countShards
  split
  · refine Protocol.Wp.bind ((h.wp_allShards hx (hfree _ rfl) (hfree _ rfl)).mono
      fun shards w hw => ?_)
    refine (Protocol.Wp.foldlM (I := fun _ (_ : Nat → Nat) (w : View K V L.State) =>
      Calm env sp gs ds cs w) (fun _ id _ counts w _ hw => ?_) hw.2.1).mono fun _ _ h => h
    exact hw.wp_countShard hx (hfree _ rfl) counts
  · exact h

end Exclusive

section Counters

theorem wp_totalLen {f : Nat → Prog K V α}
    (hΦ : ∀ n, (protocol env L alone).Wp (f n) v Φ) :
    (protocol env L alone).Wp (act .totalLen >>= f) v Φ :=
  wp_quiet rfl (rule_totalLen fun n _ => hΦ n)

theorem wp_overCount (target : Option Nat) :
    (protocol env L alone).Wp (Sync.overCount target) v fun _ v' => v' = v := by
  cases target with
  | none => exact rfl
  | some n => exact wp_totalLen fun _ => rfl

theorem wp_oneOver (target : Option Nat) :
    (protocol env L alone).Wp (Sync.oneOver target) v fun _ v' => v' = v := by
  cases target with
  | none => exact rfl
  | some n => exact wp_totalLen fun _ => rfl

theorem Calm.wp_selectCandidates (h : Calm env sp gs ds cs v) (config : EvictionConfig)
    (policy : CapacityPolicy) (target : Option Nat) (overEntries overWeight : Bool) :
    (protocol env L alone).Wp (Sync.selectCandidates config policy target overEntries overWeight) v
      fun _ v' => Calm env sp gs ds cs v' := by
  unfold Sync.selectCandidates
  split
  · refine Protocol.Wp.bind ((wp_oneOver target).mono fun one w he => ?_)
    subst he
    by_cases hone : config.maxItemsPerShard.isNone ∧ config.memoryBudget.isNone ∧ one
    · rw [if_pos hone]
      exact wp_last (h.wp_call fun _ w hw _ => hw)
    · rw [if_neg hone]
      exact wp_last (h.wp_call fun _ w hw _ => hw)
  · exact h

end Counters

namespace Evicting

variable (hF : Retiring F) (hsp : Spares sp ds)

include hF hsp

theorem wp_sweepShards (hx : ∀ es, Exclusive (F es)) (hfree : ∀ es l, l.inner → ¬ Owns (F es) l)
    (config : EvictionConfig) (index : Nat) (candidate : EvictionCandidate K) (shards : List Nat) :
    ∀ {v : View K V L.State} (state : Sync.Sweep K V),
      Evicting env sp F ds cs (fun a p => ∀ id ∈ shards,
        id ∈ allocatedShards a ++ allocatedShards (p.getD [])) v →
      (protocol env L alone).Wp (Sync.sweepShards config index candidate shards state) v
        fun _ v' => Evicting env sp F ds cs (fun _ _ => True) v' := by
  induction shards with
  | nil =>
    rintro _ _ ⟨es, ev, hev, h, _⟩
    exact ⟨es, ev, hev, h, trivial⟩
  | cons id shards ih =>
    rintro v state ⟨es, ev, hev, h, hq⟩
    refine h.wp_lock_exclusive (l := .shard id) (hx es) (fun he => by cases he) (hfree es _ rfl)
      fun v₁ h₁ s₁ _ => ?_
    have hq₁ : ∀ j ∈ id :: shards, j ∈ allocatedShards v₁.st.shards ++
        allocatedShards (v₁.st.previous.getD []) := by
      rw [s₁.shards, s₁.previous]
      exact hq
    refine wp_user h₁.settled (wp_quiet rfl (rule_get (.inr (h₁.owns ⟨.excl, List.mem_cons_self⟩)) ?_))
    have next : ∀ {w : View K V L.State}, Evicting env sp (fun es => .lock (.shard id) .excl :: F es)
        ds cs (fun a p => ∀ j ∈ id :: shards, j ∈ allocatedShards a ++ allocatedShards (p.getD [])) w →
        (protocol env L alone).Wp (act (.unlock (.shard id)) >>= fun _ =>
          Sync.sweepShards config index candidate shards state) w
          fun _ v' => Evicting env sp F ds cs (fun _ _ => True) v' := by
      rintro w ⟨es', ev', hev', hw, hqw⟩
      refine wp_unlock_calm hw (fun he => by cases he) fun w' hw' ew _ => ?_
      rw [without_lock] at hw'
      exact ih state ⟨es', ev', hev', hw', by rw [ew]; exact fun j hj => hqw j (by simp [hj])⟩
    have hopen : Evicting env sp (fun es => .lock (.shard id) .excl :: F es) ds cs
        (fun a p => ∀ j ∈ id :: shards, j ∈ allocatedShards a ++ allocatedShards (p.getD [])) v₁ :=
      ⟨es, ev, hev, h₁, hq₁⟩
    cases (v₁.st.heap id).lookup candidate.key with
    | none => exact next hopen
    | some x =>
      refine Protocol.Wp.bind ((wp_evictFrom (hF.lock (.shard id) .excl) hsp id
        (fun es a p hq => .inr ⟨List.mem_cons_of_mem _ (hx es), hq id (by simp)⟩) hopen
        candidate).mono fun r v₂ h₂ => ?_)
      cases r with
      | none => exact next h₂
      | some y =>
        obtain ⟨es₂, ev₂, hev₂, h₂, hq₂⟩ := h₂
        have close : ∀ {β : Type} (b : β) {w : View K V L.State},
            Calm env sp (.lock (.shard id) .excl :: F es₂) (ds ++ ev₂)
              (cs ++ List.replicate ev₂.length .evictions) w →
            (protocol env L alone).Wp (act (.unlock (.shard id)) >>= fun _ => pure b) w
              fun _ v' => Evicting env sp F ds cs (fun _ _ => True) v' := by
          intro β b w hw
          refine wp_unlock_calm hw (fun he => by cases he) fun w' hw' _ _ => ?_
          rw [without_lock] at hw'
          exact ⟨es₂, ev₂, hev₂, hw', trivial⟩
        by_cases hover : state.overWeight
        · simp only [hover, if_true]
          exact h₂.wp_call fun _ v₃ h₃ _ => close _ h₃
        · simp only [hover]
          exact close _ h₂

theorem wp_sweep (hx : ∀ es, Exclusive (F es)) (hfree : ∀ es l, l.inner → ¬ Owns (F es) l)
    (config : EvictionConfig) (target : Option Nat) (candidates : List (EvictionCandidate K)) :
    ∀ {v : View K V L.State} (state : Sync.Sweep K V),
      Evicting env sp F ds cs (fun _ _ => True) v →
      (protocol env L alone).Wp (Sync.sweep env config target candidates state) v
        fun _ v' => Evicting env sp F ds cs (fun _ _ => True) v' := by
  induction candidates with
  | nil => exact fun _ h => h
  | cons candidate candidates ih =>
    intro v state h
    refine Protocol.Wp.bind ((wp_overCount target).mono fun overEntries v₁ he => ?_)
    subst he
    split
    · exact h
    obtain ⟨es, ev, hev, h, -⟩ := h
    refine Protocol.Wp.bind ((h.wp_shardIndex (hx es).owns candidate.key).mono
      fun index v₂ ⟨hindex, he⟩ => ?_)
    subst he
    dsimp only
    split
    · exact ih state ⟨es, ev, hev, h, trivial⟩
    refine h.wp_call fun valid v₃ h₃ s₃ => ?_
    cases (valid : Bool) with
    | false => exact ih state ⟨es, ev, hev, h₃, trivial⟩
    | true =>
      refine Protocol.Wp.bind ((h₃.wp_activeSlots (hx es).owns (hfree es _ rfl)).mono
        fun slots v₄ ⟨hslots, h₄, k₄, _⟩ => ?_)
      have s₄ := ((Agree.exclusive k₄) (hx es)).1
      have hlen : index < slots.length := by
        rw [hslots, (h₄.wellFormed (hx es).owns).length, s₄.shardCount, s₃.shardCount, hindex]
        exact Nat.mod_lt _ (h.wellFormed (hx es).owns).count_pos
      rw [List.getElem?_eq_getElem hlen]
      refine Protocol.Wp.bind ((h₄.wp_previousShard (hx es).owns (hfree es _ rfl) candidate.key).mono
        fun previous v₅ ⟨hprevious, h₅, k₅, _⟩ => ?_)
      have s₅ := ((Agree.exclusive k₅) (hx es)).1
      refine Protocol.Wp.bind ((wp_sweepShards hF hsp hx hfree config index candidate _ state
        ⟨es, ev, hev, h₅, fun id hid => ?_⟩).mono fun state v₆ h₆ => ih state h₆)
      show id ∈ v₅.st.live
      rw [s₅.tables.live, State.mem_live]
      rcases List.mem_append.mp hid with hid | hid
      · refine .inl ⟨index, ?_⟩
        rw [← hslots, List.getElem?_eq_getElem hlen, Option.mem_toList.mp hid]
      · exact .inr ⟨_, (hprevious.symm.trans (Option.mem_toList.mp hid) : _)⟩

section Passes

variable (hlocks : ∀ es l, ¬ Owns (F es) l)

include hlocks

theorem wp_evictStable (policy : CapacityPolicy) (limit : Nat)
    (h : Evicting env sp F ds cs (fun _ _ => True) v) :
    (protocol env L alone).Wp (Sync.evictStable policy limit) v fun _ v' =>
      Evicting env sp F ds cs (fun _ _ => True) v' := by
  obtain ⟨es, ev, hev, h, -⟩ := h
  refine wp_lock_calm h nofun (free_of_not_owns (hlocks es _)) (fun _ l' _ => hlocks es l') nofun
    fun v₁ h₁ _ _ => ?_
  have hp : ∀ es, Pinned (.lock .routing .shared :: F es) := fun _ => List.mem_cons_self
  have hfree : ∀ es l, l.inner → ¬ Owns (.lock .routing .shared :: F es) l := by
    intro es l hl ho
    rcases (owns_lock _ _ _ _).mp ho with rfl | ho
    · cases hl
    · exact hlocks es l ho
  -- routing is released at the end of each branch
  have leave : ∀ {β : Type} (b : β) {w : View K V L.State},
      Evicting env sp (fun es => .lock .routing .shared :: F es) ds cs (fun _ _ => True) w →
      (protocol env L alone).Wp (act (.unlock .routing) >>= fun _ => pure b) w
        fun _ v' => Evicting env sp F ds cs (fun _ _ => True) v' := by
    intro β b w ⟨es', ev', hev', hw, _⟩
    refine wp_unlock_calm hw (fun _ l hl => hfree es' l hl) fun w' hw' _ _ => ?_
    rw [without_lock] at hw'
    exact ⟨es', ev', hev', hw', trivial⟩
  refine wp_quiet rfl (rule_previousShardCount (h₁.owns (hp es).owns) ?_)
  refine h₁.wp_call fun dirty v₂ h₂ _ => ?_
  split
  swap
  · exact leave _ ⟨es, ev, hev, h₂, trivial⟩
  refine Protocol.Wp.bind (h₂.wp_mutation.mono fun _ v₃ ⟨h₃, _⟩ => ?_)
  refine h₃.wp_call fun observed v₄ h₄ _ => ?_
  have hp' : ∀ es, Pinned (.ticket :: .lock .routing .shared :: F es) := fun es =>
    List.mem_cons_of_mem _ (hp es)
  have hfree' : ∀ es l, l.inner → ¬ Owns (.ticket :: .lock .routing .shared :: F es) l :=
    fun es l hl => ((SameLocks.cons rfl).owns l).not.mpr (hfree es l hl)
  have hF' : Retiring fun es => .ticket :: .lock .routing .shared :: F es :=
    (hF.lock .routing .shared).ticket
  refine Protocol.Wp.bind ((h₄.wp_activeSlots (hp' es).owns (hfree' es _ rfl)).mono
    fun slots v₅ ⟨hslots, h₅, _, _⟩ => Protocol.Wp.bind ?_)
  refine (Protocol.Wp.foldlM (I := fun _ _ (w : View K V L.State) =>
    Evicting env sp (fun es => .ticket :: .lock .routing .shared :: F es) ds cs
      (fun a _ => ∀ i id : Nat, slots[i]? = some (some id) → a[i]? = some (some id)) w)
    (fun pre id post b w hids hw => ?_) ⟨es, ev, hev, h₅, ?_⟩).mono
    fun state v₆ ⟨es₆, ev₆, hev₆, h₆, _⟩ => ?_
  · refine wp_limitShard hF' hsp hp' hfree' (fun a a' p ha h i j hi => h i j (ha i j hi))
      (fun a p ha => ?_) policy limit b hw
    have hid : id ∈ allocatedShards slots := by rw [hids]; simp
    obtain ⟨i, hi⟩ := mem_allocatedShards.mp hid
    exact ⟨i, ha i id hi⟩
  · rw [hslots]
    exact fun _ _ h => h
  refine Protocol.Wp.bind (h₆.wp_finish.mono fun _ v₇ ⟨h₇, _⟩ => ?_)
  refine h₇.wp_call fun dirty v₈ h₈ _ => ?_
  split
  · exact h₈.wp_call fun _ v₉ h₉ _ => leave _ ⟨es₆, ev₆, hev₆, h₉, trivial⟩
  · exact leave _ ⟨es₆, ev₆, hev₆, h₈, trivial⟩

theorem wp_evictGlobal (config : EvictionConfig) (policy : CapacityPolicy) (target : Option Nat)
    (evicted : List (K × V)) (h : Evicting env sp F ds cs (fun _ _ => True) v) :
    (protocol env L alone).Wp (Sync.evictGlobal env config policy target evicted) v fun _ v' =>
      Evicting env sp F ds cs (fun _ _ => True) v' := by
  obtain ⟨es, ev, hev, h, -⟩ := h
  refine wp_lock_calm h nofun (free_of_not_owns (hlocks es _)) (fun _ l' _ => hlocks es l') nofun
    fun v₁ h₁ _ _ => ?_
  have hfree : ∀ es l, l.inner → ¬ Owns (.lock .routing .excl :: F es) l := by
    intro es l hl ho
    rcases (owns_lock _ _ _ _).mp ho with rfl | ho
    · cases hl
    · exact hlocks es l ho
  have hx' : ∀ es, Exclusive (.ticket :: .lock .routing .excl :: F es) := fun es =>
    List.mem_cons_of_mem _ List.mem_cons_self
  have hfree' : ∀ es l, l.inner → ¬ Owns (.ticket :: .lock .routing .excl :: F es) l :=
    fun es l hl => ((SameLocks.cons rfl).owns l).not.mpr (hfree es l hl)
  have hF' : Retiring fun es => .ticket :: .lock .routing .excl :: F es :=
    (hF.lock .routing .excl).ticket
  refine Protocol.Wp.bind (h₁.wp_mutation.mono fun _ v₂ ⟨h₂, _⟩ => Protocol.Wp.bind ?_)
  refine (h₂.wp_reconcile (hx' es) (hfree' es)).mono fun _ v₃ ⟨h₃, _⟩ => ?_
  refine h₃.wp_call fun observed v₄ h₄ _ => ?_
  refine Protocol.Wp.bind ((h₄.wp_countShards (hx' es) (hfree' es) config).mono fun counts v₅ h₅ => ?_)
  refine h₅.wp_call fun overWeight v₆ h₆ _ => ?_
  refine Protocol.Wp.bind ((wp_overCount target).mono fun overEntries v₇ he => ?_)
  subst he
  refine Protocol.Wp.bind ((h₆.wp_selectCandidates config policy target overEntries overWeight).mono
    fun candidates v₈ h₈ => Protocol.Wp.bind ?_)
  refine (wp_sweep hF' hsp hx' hfree' config target candidates _
    ⟨es, ev, hev, h₈, trivial⟩).mono fun evicted v₉ ⟨es₉, ev₉, hev₉, h₉, _⟩ => ?_
  refine Protocol.Wp.bind (h₉.wp_finish.mono fun _ v₁₀ ⟨h₁₀, _⟩ => ?_)
  refine h₁₀.wp_call fun _ v₁₁ h₁₁ _ => ?_
  refine wp_unlock_calm h₁₁ (fun _ l hl => hfree es₉ l hl) fun v₁₂ h₁₂ _ _ => ?_
  rw [without_lock] at h₁₂
  exact ⟨es₉, ev₉, hev₉, h₁₂, trivial⟩

end Passes

end Evicting

section Maintenance

variable (hlocks : ∀ l, ¬ Owns gs l) (hretire : ∀ k x, gs.map (Guard.retire k x) = gs)

/-- Maintenance changes the map by evictions only, and only a configured one. -/
def Evictions (env : Env K V) (ev : List (Event K V)) : Prop :=
  (env.eviction = none → ev = []) ∧ ∀ e ∈ ev, e.isEviction

/-- The specification leaves room for the evictions of a configured map. -/
def Lenient (env : Env K V) (sp : List (Event K V) → Prop) (ds : List (Event K V)) : Prop :=
  ∀ ev, Evictions env ev → sp (ds ++ ev)

/-- What maintenance may have added. -/
def Maintained (env : Env K V) (sp : List (Event K V) → Prop) (gs : Guards K V)
    (ds : List (Event K V)) (cs : List Metric) (v : View K V L.State) : Prop :=
  ∃ ev, Evictions env ev ∧
    Calm env sp gs (ds ++ ev) (cs ++ List.replicate ev.length Metric.evictions) v

theorem Calm.maintained (h : Calm env sp gs ds cs v) : Maintained env sp gs ds cs v :=
  ⟨[], ⟨fun _ => rfl, by simp⟩, by simpa using h⟩

theorem wp_clock {f : Nat → Prog K V α} (hΦ : ∀ n, (protocol env L alone).Wp (f n) v Φ) :
    (protocol env L alone).Wp (act .clock >>= f) v Φ :=
  wp_quiet rfl (rule_clock hΦ)

include hlocks hretire

theorem Calm.wp_runEviction (h : Calm env sp gs ds cs v) (hsp : Lenient env sp ds)
    (requested : Option Nat) (policy : Option CapacityPolicy) :
    (protocol env L alone).Wp (Sync.runEviction env requested policy) v fun _ v' =>
      Maintained env sp gs ds cs v' := by
  unfold Sync.runEviction
  cases hconfig : env.eviction with
  | none => exact h.maintained
  | some config =>
    have hsp' : Spares sp ds := fun ev hev => hsp ev ⟨fun hn => (by simp [hconfig] at hn), hev⟩
    refine wp_clock fun started => h.wp_call fun observed v₁ h₁ _ => ?_
    have hwithin : ∀ {w : View K V L.State} target, Calm env sp gs ds cs w →
        (protocol env L alone).Wp (Sync.withinLimits config target) w fun _ w' =>
          Calm env sp gs ds cs w' := by
      intro w target hw
      refine hw.wp_call fun dirty w₁ hw₁ _ => ?_
      split
      · exact hw₁
      refine Protocol.Wp.bind ((wp_overCount target).mono fun overEntries w₂ he => ?_)
      subst he
      split
      · exact hw₁
      · exact hw₁.wp_call fun _ w₃ hw₃ _ => hw₃
    refine Protocol.Wp.bind ((hwithin _ h₁).mono fun within v₂ h₂ => ?_)
    split
    · exact h₂.wp_call fun _ v₃ h₃ _ => h₃.wp_call fun _ v₄ h₄ _ => h₄.maintained
    let F : List (K × V) → Guards K V := fun es => .batch started es :: gs
    have hF : Retiring F := fun es k x => by
      show Guard.retire k x (.batch started es) :: gs.map (Guard.retire k x) = _
      rw [hretire]
      rfl
    have hlocks' : ∀ es l, ¬ Owns (F es) l := fun es l =>
      ((SameLocks.cons rfl).owns l).not.mpr (hlocks l)
    refine h₂.wp_push rfl fun v₃ h₃ _ => h₃.wp_call fun dirty v₄ h₄ _ => ?_
    have h₄ : Evicting env sp F ds cs (fun _ _ => True) v₄ :=
      ⟨[], [], by simp, by simpa using h₄, trivial⟩
    have hdispatch : ∀ {w : View K V L.State} (evicted : List (K × V)),
        Evicting env sp F ds cs (fun _ _ => True) w →
        (protocol env L alone).Wp (Sync.dispatch started evicted) w fun _ v' =>
          Maintained env sp gs ds cs v' := by
      rintro w evicted ⟨es, ev, hev, hw, _⟩
      refine wp_clock fun now => hw.wp_pop rfl fun w₁ hw₁ _ => ?_
      refine hw₁.wp_call fun _ w₂ hw₂ _ => hw₂.wp_call fun _ w₃ hw₃ _ => ?_
      exact ⟨ev, ⟨fun hn => by simp [hconfig] at hn, hev⟩, hw₃⟩
    have hglobal : ∀ {w : View K V L.State} target (evicted : List (K × V)),
        Evicting env sp F ds cs (fun _ _ => True) w →
        (protocol env L alone).Wp (Sync.evictGlobal env config (policy.getD config.policy) target
          evicted >>= Sync.dispatch started) w fun _ v' => Maintained env sp gs ds cs v' :=
      fun target evicted hw => Protocol.Wp.bind
        ((Evicting.wp_evictGlobal hF hsp' hlocks' config _ target evicted hw).mono
          fun evicted _ hw => hdispatch evicted hw)
    split
    · refine Protocol.Wp.bind ((Evicting.wp_evictStable hF hsp' hlocks' _ _ h₄).mono
        fun r v₅ h₅ => ?_)
      obtain ⟨evicted, complete⟩ := r
      cases complete with
      | true => exact hdispatch evicted h₅
      | false => exact hglobal _ evicted h₅
    · exact hglobal _ [] h₄

end Maintenance

/-- The tail of an operation: routing is released, limits are kept. -/
theorem Calm.wp_leave {m : Mode} (h : Calm env sp [.lock .routing m, .operation] ds cs v)
    (hsp : Lenient env sp ds) {β : Type} (result : β) :
    (protocol env L alone).Wp (Sync.leave env result) v fun r v' =>
      r = result ∧ Maintained env sp [] ds cs v' := by
  refine wp_unlock_calm h (fun _ l hl => by cases l <;> simp_all [Owns, LockId.inner])
    fun v₁ h₁ _ _ => ?_
  rw [without_lock] at h₁
  refine Protocol.Wp.bind (Protocol.Wp.bind ((h₁.wp_runEviction (by simp [Owns])
    (by simp [Guard.retire]) hsp none none).mono fun _ v₂ h₂ => ?_))
  obtain ⟨ev, hev, h₂⟩ := h₂
  exact wp_user h₂.settled (h₂.wp_pop rfl fun v₃ h₃ _ => ⟨rfl, ev, hev, h₃⟩)

theorem Calm.wp_leaveRetiring {m : Mode} (h : Calm env sp [.lock .routing m, .operation] ds cs v)
    (hsp : Lenient env sp ds) :
    (protocol env L alone).Wp (Sync.leaveRetiring env) v fun _ v' =>
      Maintained env sp [] ds cs v' := by
  refine wp_unlock_calm h (fun _ l hl => by cases l <;> simp_all [Owns, LockId.inner])
    fun v₁ h₁ _ _ => ?_
  rw [without_lock] at h₁
  refine wp_user h₁.settled (Protocol.Wp.bind (Protocol.Wp.bind ((h₁.wp_runEviction
    (by simp [Owns]) (by simp [Guard.retire]) hsp none none).mono fun _ v₂ h₂ => ?_)))
  obtain ⟨ev, hev, h₂⟩ := h₂
  exact wp_last (h₂.wp_pop rfl fun v₃ h₃ _ => ⟨ev, hev, h₃⟩)

end Starshard
