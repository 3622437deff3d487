import Starshard.Proof.Exclusive

/-! Initialising a directory slot. -/
namespace Starshard

open Data Concurrent
open Function (update)

theorem allocatedShards_set {slots : Slots} {i n : Nat} (h : slots[i]? = some none) :
    (allocatedShards (slots.set i (some n))).Perm (n :: allocatedShards slots) := by
  induction slots generalizing i with
  | nil => simp at h
  | cons slot slots ih =>
    cases i with
    | zero =>
      have : slot = none := by simpa using h
      subst this
      exact .refl _
    | succ i =>
      have ih := ih (by simpa using h)
      cases slot with
      | none => exact ih
      | some m => exact (ih.cons m).trans (.swap n m _)

variable {K V : Type} [DecidableEq K]

namespace State

variable {E : Type} {hash : K → Nat} {s : State K V E} {i : Nat}

def withSlot (s : State K V E) (i : Nat) : State K V E :=
  { s with
    shards := s.shards.set i (some s.next)
    heap := update s.heap s.next ∅
    next := s.next + 1 }

omit [DecidableEq K] in
theorem withSlot_slots (hi : s.shards[i]? = some none) {j id : Nat}
    (hj : s.shards[j]? = some (some id)) : (s.withSlot i).shards[j]? = some (some id) := by
  have hne : i ≠ j := by
    rintro rfl
    rw [hi] at hj
    cases hj
  show (s.shards.set i (some s.next))[j]? = _
  rw [List.getElem?_set_ne hne, hj]

omit [DecidableEq K] in
theorem withSlot_self (hi : s.shards[i]? = some none) :
    (s.withSlot i).shards[i]? = some (some s.next) := by
  show (s.shards.set i (some s.next))[i]? = _
  rw [List.getElem?_set_self (List.getElem?_eq_some_iff.mp hi).1]

omit [DecidableEq K] in
theorem withSlot_home (hi : s.shards[i]? = some none) (k : K) : (s.withSlot i).home hash k =
    if hash k % s.shardCount = i then some s.next else s.home hash k := by
  split
  · next h => exact home_eq_some.mpr (h.symm ▸ withSlot_self hi)
  · next h =>
    show ((s.shards.set i (some s.next))[hash k % s.shardCount]?).join = _
    rw [List.getElem?_set_ne (Ne.symm h)]
    rfl

omit [DecidableEq K] in
theorem withSlot_home_some (hi : s.shards[i]? = some none) {k : K} {id : Nat}
    (hk : s.home hash k = some id) : (s.withSlot i).home hash k = some id :=
  home_eq_some.mpr (withSlot_slots hi (home_eq_some.mp hk))

omit [DecidableEq K] in
theorem withSlot_heap_ne {id : Nat} (h : id ≠ s.next) : (s.withSlot i).heap id = s.heap id :=
  Function.update_of_ne h _ _

omit [DecidableEq K] in
theorem withSlot_heap {id : Nat} (h : id < s.next) : (s.withSlot i).heap id = s.heap id :=
  withSlot_heap_ne (Nat.ne_of_lt h)

omit [DecidableEq K] in
theorem withSlot_live (hi : s.shards[i]? = some none) :
    (s.withSlot i).live.Perm (s.next :: s.live) :=
  (allocatedShards_set hi).append_right _

omit [DecidableEq K] in
@[simp] theorem withSlot_prevHome (k : K) : (s.withSlot i).prevHome hash k = s.prevHome hash k :=
  rfl

theorem withSlot_activeLookup (hw : s.WellFormed hash) (hi : s.shards[i]? = some none) (k : K) :
    (s.withSlot i).activeLookup hash k = s.activeLookup hash k := by
  rw [activeLookup, withSlot_home hi, activeLookup]
  split
  · next h =>
    have hk : s.home hash k = none := by simp [home, h, hi]
    simp [hk, withSlot]
  · cases hk : s.home hash k with
    | none => rfl
    | some id => simp [withSlot_heap (hw.bound id (live_of_home hk))]

theorem withSlot_prevLookup (hw : s.WellFormed hash) (k : K) :
    (s.withSlot i).prevLookup hash k = s.prevLookup hash k := by
  rw [prevLookup, withSlot_prevHome, prevLookup]
  cases hk : s.prevHome hash k with
  | none => rfl
  | some id => simp [withSlot_heap (hw.bound id (live_of_prevHome hk))]

theorem withSlot_contents (hw : s.WellFormed hash) (hi : s.shards[i]? = some none) (k : K) :
    (s.withSlot i).contents hash k = s.contents hash k := by
  rw [contents, withSlot_activeLookup hw hi, withSlot_prevLookup hw, contents]

theorem WellFormed.withSlot (hw : s.WellFormed hash) (hi : s.shards[i]? = some none) :
    (s.withSlot i).WellFormed hash := by
  have hnext : s.next ∉ s.live := fun h => Nat.lt_irrefl _ (hw.bound _ h)
  have hmem : ∀ id ∈ (s.withSlot i).live, id = s.next ∨ id ∈ s.live := fun id h =>
    List.mem_cons.mp ((withSlot_live hi).mem_iff.mp h)
  refine ⟨hw.count_pos, ?_, hw.previous_length, hw.previous_none, hw.migrating, hw.progress,
    hw.drained, ?_, fun id h => ?_, fun j id hj k x hx => ?_, fun j id hj k x hx => ?_,
    fun k => ?_⟩
  · exact List.length_set.trans hw.length
  · exact (withSlot_live hi).nodup_iff.mpr (List.nodup_cons.mpr ⟨hnext, hw.nodup⟩)
  · rcases hmem id h with rfl | h
    · exact Nat.lt_succ_self _
    · exact Nat.lt_succ_of_lt (hw.bound id h)
  · have hj : (s.shards.set i (some s.next))[j]? = some (some id) := hj
    by_cases hid : id = s.next
    · subst hid
      simp [State.withSlot] at hx
    · rw [withSlot_heap_ne hid] at hx
      refine hw.home_active j id ?_ k x hx
      by_cases hji : i = j
      · subst hji
        rw [List.getElem?_set_self (List.getElem?_eq_some_iff.mp hi).1] at hj
        exact absurd (by simpa using hj.symm) hid
      · rwa [List.getElem?_set_ne hji] at hj
  · have hid := hw.bound id (mem_live.mpr (.inr ⟨j, hj⟩))
    rw [withSlot_heap hid] at hx
    exact hw.home_previous j id hj k x hx
  · rw [withSlot_activeLookup hw hi, withSlot_prevLookup hw]
    exact hw.disjoint k

end State

variable {env : Env K V} {L : Lifecycle K V} {alone : Prop} {v : View K V L.State}

theorem rule_initSlot (hp : Pinned v.gs) (ha : OwnsExcl v.gs .active)
    (hone : ¬ Owns (without v.gs .active) .active) (hc : Clean env.hash v.gs v.toWorld)
    {i : Nat} (hi : i < v.st.shards.length)
    {Φ : Nat → View K V L.State → Prop}
    (h : ∀ (id : Nat) (w : World K V L.State), Agree env.hash (without v.gs .active) v.toWorld w →
      Clean env.hash v.gs w → w.st.shards[i]? = some (some id) →
      Φ id { v with toWorld := w }) :
    (protocol env L alone).Rule (.initSlot i) v Φ := by
  intro t (s : State K V L.State) (G : Nat → Guards K V) (g : Ghost K V) hv
  have hI := holds_inv hv
  have hA := holds_agree hv
  have hG := holds_guards hv
  have hcons : v.Consistent env.hash alone s g := hv.cons
  have hupd : update G t v.gs = G := by rw [← hG, Function.update_eq_self]
  have hpt : Pinned (G t) := hG.symm ▸ hp
  obtain ⟨hw, htot⟩ := hI.pinned hpt
  have hshards : s.shards = v.st.shards := hA.active hp.owns ha.owns
  have hx : ¬ Exclusive v.gs := hG ▸ hI.single t hpt
  obtain ⟨slot, hslot⟩ : ∃ slot, v.st.shards[i]? = some slot :=
    ⟨_, List.getElem?_eq_getElem hi⟩
  have hslot' : s.shards[i]? = some slot := by rw [hshards, hslot]
  cases slot with
  | some id =>
    refine ⟨.inr ⟨id, s, _, rfl, ?_⟩, fun r (s' : State K V L.State) gs he => ?_⟩
    · rw [hslot']
      exact ⟨rfl, rfl⟩
    · obtain ⟨rfl, he⟩ := he
      rw [hslot'] at he
      obtain ⟨hr, rfl⟩ := he
      have hr : r = id := hr
      rw [hr, hG]
      exact ⟨g, v, moves_refl hv, h id v.toWorld (.refl _ _) hc hslot⟩
  | none =>
    refine ⟨.inr ⟨s.next, s.withSlot i, _, rfl, ?_⟩, fun r (s' : State K V L.State) gs he => ?_⟩
    · rw [hslot']
      exact ⟨rfl, rfl⟩
    obtain ⟨rfl, he⟩ := he
    rw [hslot'] at he
    obtain ⟨hr, he⟩ := he
    have hr : r = s.next := hr
    have he : s' = s.withSlot i := he
    subst he
    rw [hr, hG]
    -- nobody owns the fresh shard
    have hfresh : ∀ u (w : View K V L.State), w.gs = G u → w.Consistent env.hash alone s g →
        ¬ Owns (G u) (.shard s.next) := by
      intro u w hw' hcw ho
      have hr := hI.inner u _ rfl ho
      have hxu : ¬ Exclusive (G u) := by
        by_cases hu : u = t
        · rw [hu]
          exact hI.single t hpt
        · exact hI.not_exclusive hpt.owns hu
      have hpu : Pinned w.gs := hw' ▸ (owns_routing.mp hr).resolve_right hxu
      have hlive := hcw.agree.live hpu.owns (hcw.rooted hpu _ (hw' ▸ ho))
      exact Nat.lt_irrefl _ (hw.bound _ hlive)
    have hown : ∀ u (w : View K V L.State), w.gs = G u → w.Consistent env.hash alone s g →
        ∀ id, Owns (G u) (.shard id) → (s.withSlot i).heap id = s.heap id ∧
          update g.acc s.next 0 id = g.acc id := by
      intro u w hw' hcw id ho
      have hne : id ≠ s.next := fun h => hfresh u w hw' hcw (h ▸ ho)
      exact ⟨State.withSlot_heap_ne hne, Function.update_of_ne hne _ _⟩
    have hagree : ∀ u (w : View K V L.State), w.gs = G u → w.Consistent env.hash alone s g →
        ∀ gs', (∀ l m, Guard.lock l m ∈ gs' → Guard.lock l m ∈ G u) → ¬ Owns gs' .active →
        Agree env.hash gs' ⟨s, g.abs.contents, g.acc⟩
          ⟨s.withSlot i, g.abs.contents, update g.acc s.next 0⟩ := by
      intro u w hw' hcw gs' hsub hact
      have hxu : ¬ Exclusive (G u) := by
        by_cases hu : u = t
        · rw [hu]
          exact hI.single t hpt
        · exact hI.not_exclusive hpt.owns hu
      exact {
        shardCount := fun _ => rfl
        previousShardCount := fun _ => rfl
        previous := fun _ => rfl
        layout := fun _ => rfl
        slots := fun _ j id hj => State.withSlot_slots hslot' hj
        active := fun _ ho => absurd ho hact
        heap := fun id ⟨m, hm⟩ => (hown u w hw' hcw id ⟨m, hsub _ _ hm⟩).1
        acc := fun id ⟨m, hm⟩ => (hown u w hw' hcw id ⟨m, hsub _ _ hm⟩).2
        prev := fun k _ => State.withSlot_prevLookup hw k
        abs := fun _ _ => rfl
        exclusive := fun hx' => absurd (hsub _ _ hx') hxu }
    let g' : Ghost K V := { g with acc := update g.acc s.next 0 }
    let v' : View K V L.State :=
      { v with toWorld := ⟨s.withSlot i, g.abs.contents, update g.acc s.next 0⟩ }
    have hI' : Inv env.hash (s.withSlot i) G g' := by
      refine ⟨hI.mutex, hI.single, hI.inner, fun _ => ⟨hw.withSlot hslot', ?_⟩, fun k hk => ?_,
        fun id hid => ?_, hI.version, hI.metrics, hI.labels, hI.cache⟩
      · have hlive : s.next ∉ s.live := fun h => Nat.lt_irrefl _ (hw.bound _ h)
        have hsum : (s.live.map (update g.acc s.next 0)).sum = (s.live.map g.acc).sum := by
          congr 1
          exact List.map_congr_left fun j hj =>
            Function.update_of_ne (fun h : j = s.next => hlive (h ▸ hj)) _ _
        show s.totalLen = ((s.withSlot i).live.map (update g.acc s.next 0)).sum
        rw [((State.withSlot_live hslot').map _).sum_nat, List.map_cons, List.sum_cons,
          Function.update_self, hsum, Nat.zero_add]
        exact htot
      · rw [State.withSlot_contents hw hslot']
        refine hI.contents k fun u hu => hk u ?_
        rcases hu with hu | ⟨hpu, id, hid, ho⟩
        · exact .inl hu
        · exact .inr ⟨hpu, id, State.withSlot_home_some hslot' hid, ho⟩
      · show update g.acc s.next 0 id = ((s.withSlot i).heap id).size
        by_cases hn : id = s.next
        · subst hn
          simp [State.withSlot]
        · rw [Function.update_of_ne hn, State.withSlot_heap_ne hn]
          exact hI.acc id hid
    refine ⟨g', v', moves_of (hupd.symm ▸ hI') rfl ?_ (fun u hu w hw' hcw => ?_) rfl le_rfl rfl
      (List.append_nil _).symm .nil, h _ _ ?_ ?_ (State.withSlot_self hslot')⟩
    · refine ⟨.refl _ _, fun hf => ⟨?_, (hcons.fresh hf).2⟩, hcons.known, fun hpv id ho => ?_,
        fun _ => ⟨rfl, rfl, rfl⟩, hcons.meets⟩
      · obtain ⟨hp', j, id, hj, ho⟩ := (hcons.fresh hf).1.resolve_left hx
        exact .inr ⟨hp', j, id, State.withSlot_slots hslot' (hshards ▸ hj), ho⟩
      · rw [(State.withSlot_live hslot').mem_iff]
        exact List.mem_cons_of_mem _ (hA.live hp.owns (hcons.rooted hp id ho))
    · refine hagree u w hw' hcw (G u) (fun _ _ h => h) fun ho => ?_
      exact hI.mutex t u .active (Ne.symm hu) (hG.symm ▸ ha) ho
    · exact (hA.mono fun _ _ => mem_of_mem_erase).trans
        (hagree t v hG.symm hcons _ (fun _ _ hm => hG.symm ▸ mem_of_mem_erase hm) hone)
    · refine ⟨fun _ => hw.withSlot hslot', fun hx' => absurd hx' hx, fun id hid => ?_,
        fun k hk => ?_⟩
      · have ho := hid.resolve_left hx
        obtain ⟨h₁, h₂⟩ := hown t v hG.symm hcons id (hG.symm ▸ ho)
        have h₃ : g.acc id = v.acc id := hA.acc id ho
        have h₄ : s.heap id = v.st.heap id := hA.heap id ho
        show update g.acc s.next 0 id = ((s.withSlot i).heap id).size
        rw [h₁, h₂, h₃, h₄]
        exact hc.acc id (.inr ho)
      · have hk' : Reads env.hash v.gs s k := by
          rcases hk with hk | ⟨hpk, hk⟩
          · exact .inl hk
          · refine .inr ⟨hpk, ?_⟩
            cases hid : s.home env.hash k with
            | none => exact ha.owns
            | some id =>
              rw [State.withSlot_home_some hslot' hid] at hk
              exact hk
        have hkv := hcons.reads_of hI hG hk'
        have h₁ : g.abs.contents k = v.abs k := hA.abs k hkv
        have h₂ : s.contents env.hash k = v.st.contents env.hash k := hA.contents hkv
        show g.abs.contents k = (s.withSlot i).contents env.hash k
        rw [State.withSlot_contents hw hslot', h₁, h₂]
        exact hc.contents k hkv

end Starshard
