import Starshard.Proof.Heap
import Starshard.Proof.Locks

/-! Rules for the actions on shard tables and on the length counter. -/
namespace Starshard

open Data Concurrent
open Function (update)

theorem sum_map_update {l : List Nat} (hn : l.Nodup) {i : Nat} (hi : i ∈ l) (f : Nat → Nat)
    (n : Nat) : (l.map (update f i n)).sum + f i = (l.map f).sum + n := by
  induction l with
  | nil => cases hi
  | cons j l ih =>
    obtain ⟨hj, hn⟩ := List.nodup_cons.mp hn
    simp only [List.map_cons, List.sum_cons]
    by_cases hji : j = i
    · subst hji
      have : l.map (update f j n) = l.map f :=
        List.map_congr_left fun a ha => Function.update_of_ne (fun h : a = j => hj (h ▸ ha)) _ _
      rw [this, Function.update_self]
      omega
    · have := ih hn ((List.mem_cons.mp hi).resolve_left (Ne.symm hji))
      rw [Function.update_of_ne hji]
      omega

theorem sum_map_le {l : List Nat} {i : Nat} (hi : i ∈ l) (f : Nat → Nat) :
    f i ≤ (l.map f).sum := by
  induction l with
  | nil => cases hi
  | cons j l ih =>
    rw [List.map_cons, List.sum_cons]
    rcases List.mem_cons.mp hi with rfl | hi
    · omega
    · have := ih hi
      omega

variable {K V : Type} [DecidableEq K] {env : Env K V} {L : Lifecycle K V} {alone : Prop}
  {v : View K V L.State} {t : Nat} {G : Nat → Guards K V} {s : State K V L.State} {g : Ghost K V}

section Pinned

theorem others_pinned (hv : holds env L alone t v s G g) (hp : Pinned v.gs)
    {heap' : Nat → Assoc K V} {acc' : Nat → Nat} {total' : Nat}
    (hkeep : ∀ id, ¬ OwnsExcl v.gs (.shard id) → heap' id = s.heap id ∧ acc' id = g.acc id)
    (hkeys : ∀ k, ¬ Writes env.hash v.gs s k → ∀ id, (heap' id).lookup k = (s.heap id).lookup k)
    {u : Nat} (hu : u ≠ t) : Agree env.hash (G u) ⟨s, g.abs.contents, g.acc⟩
      ⟨{ s with heap := heap', totalLen := total' }, g.abs.contents, acc'⟩ where
  shardCount _ := rfl
  previousShardCount _ := rfl
  previous _ := rfl
  layout _ := rfl
  slots _ _ _ h := h
  active _ _ := rfl
  heap id ho := by
    refine (hkeep id fun hx => ?_).1
    exact (holds_inv hv).mutex t u _ (Ne.symm hu) (holds_guards hv ▸ hx) ho
  acc id ho := by
    refine (hkeep id fun hx => ?_).2
    exact (holds_inv hv).mutex t u _ (Ne.symm hu) (holds_guards hv ▸ hx) ho
  prev k hk := by
    have hkt : ¬ Writes env.hash v.gs s k := by
      rw [← holds_guards hv]
      exact (holds_inv hv).reads_writes hk (Ne.symm hu)
    exact State.prevLookup_congr (h := heap') (hkeys k hkt)
  abs _ _ := rfl
  exclusive hx := by
    have hr : Owns (G t) .routing := holds_guards hv ▸ hp.owns
    exact absurd hx ((holds_inv hv).not_exclusive hr hu)

/-- A task that pins routing changes tables it owns exclusively, and the part of
the length counter that accounts for them. -/
theorem moves_pinned (hv : holds env L alone t v s G g) (hp : Pinned v.gs)
    (heap heap' : Nat → Assoc K V) (acc acc' : Nat → Nat) (total total' : Nat)
    (hbelief : ∀ id, ¬ OwnsExcl v.gs (.shard id) → heap id = v.st.heap id ∧ acc id = v.acc id)
    (hkeep : ∀ id, ¬ OwnsExcl v.gs (.shard id) → heap' id = s.heap id ∧ acc' id = g.acc id)
    (hsame : ∀ id, OwnsExcl v.gs (.shard id) → heap' id = heap id ∧ acc' id = acc id)
    (hkeys : ∀ k, ¬ Writes env.hash v.gs s k → ∀ id, (heap' id).lookup k = (s.heap id).lookup k)
    (hplaced : s.Placed env.hash heap')
    (hsum : s.totalLen = (s.live.map g.acc).sum → total' = (s.live.map acc').sum)
    (halone : alone → heap = heap' ∧ total = total' ∧ acc = acc') :
    (protocol env L alone).Moves t G s g v { s with heap := heap', totalLen := total' } v.gs
      { g with acc := acc' }
      { v with st := { v.st with heap := heap, totalLen := total }, acc := acc } := by
  have hI := holds_inv hv
  have ha := holds_agree hv
  have hG := holds_guards hv
  have hcons : v.Consistent env.hash alone s g := hv.cons
  have hsettled := hI.pinned (hG.symm ▸ hp : Pinned (G t))
  refine moves_of ?_ rfl ?_ (fun u hu _ _ _ => others_pinned hv hp hkeep hkeys hu)
    rfl le_rfl rfl (List.append_nil _).symm .nil
  · have hupd : update G t v.gs = G := by rw [← hG, Function.update_eq_self]
    rw [hupd]
    refine ⟨hI.mutex, hI.single, hI.inner, fun _ => ⟨(hsettled.1.withHeap hplaced).withLen total', ?_⟩, ?_, ?_,
      hI.version, hI.metrics, hI.labels, hI.cache⟩
    · exact hsum hsettled.2
    · intro k hk
      have hkt : ¬ Writes env.hash v.gs s k := hG ▸ hk t
      refine (hI.contents k hk).trans ?_
      exact (State.contents_congr (h := heap') (hkeys k hkt)).symm
    · intro id hid
      obtain ⟨hh, hacc⟩ := hkeep id (hG ▸ (hid t).2)
      show acc' id = (heap' id).size
      rw [hh, hacc]
      exact hI.acc id hid
  · refine ⟨?_, hcons.fresh, hcons.known, hcons.rooted, fun hal => ?_, hcons.meets⟩
    · refine ⟨ha.shardCount, ha.previousShardCount, ha.previous, ha.layout, ha.slots, ha.active,
        fun id ho => ?_, fun id ho => ?_, fun k hk => ?_, ha.abs, fun hx => ?_⟩
      · by_cases hx : OwnsExcl v.gs (.shard id)
        · exact (hsame id hx).1
        · have h₁ : heap id = v.st.heap id := (hbelief id hx).1
          have h₂ : s.heap id = v.st.heap id := ha.heap id ho
          show heap' id = heap id
          rw [h₁, (hkeep id hx).1, h₂]
      · by_cases hx : OwnsExcl v.gs (.shard id)
        · exact (hsame id hx).2
        · have h₁ : acc id = v.acc id := (hbelief id hx).2
          have h₂ : g.acc id = v.acc id := ha.acc id ho
          show acc' id = acc id
          rw [h₁, (hkeep id hx).2, h₂]
      · -- the previous shard of a key is either owned, or untouched
        have hph : s.prevHome env.hash k = v.st.prevHome env.hash k := by
          have h₁ : s.previous = v.st.previous := ha.previous hp.owns
          have h₂ : s.previousShardCount = v.st.previousShardCount := ha.previousShardCount hp.owns
          simp only [State.prevHome, h₁, h₂]
        have hprev : s.prevLookup env.hash k = v.st.prevLookup env.hash k := ha.prev k hk
        show ((s.prevHome env.hash k).bind fun id => (heap' id).lookup k) =
          (v.st.prevHome env.hash k).bind fun id => (heap id).lookup k
        rw [State.prevLookup, State.prevLookup, hph] at hprev
        rw [hph]
        cases hid : v.st.prevHome env.hash k with
        | none => rfl
        | some id =>
          simp only [hid, Option.bind_some] at hprev ⊢
          by_cases hx : OwnsExcl v.gs (.shard id)
          · rw [(hsame id hx).1]
          · rw [(hkeep id hx).1, (hbelief id hx).1, hprev]
      · exact absurd hx (hG ▸ hI.single t (hG.symm ▸ hp))
    · obtain ⟨h₁, h₂, h₃⟩ := holds_alone hv hal
      obtain ⟨rfl, rfl, rfl⟩ := halone hal
      exact ⟨by simp only [h₁], h₂, rfl⟩

variable {id : Nat} {k : K}

theorem holds_home (hv : holds env L alone t v s G g) (hp : Pinned v.gs)
    (hk : v.st.home env.hash k = some id) : s.home env.hash k = some id :=
  (holds_agree hv).home_some hp.owns hk

theorem holds_prevLookup (hv : holds env L alone t v s G g) (hk : Reads env.hash v.gs v.st k) :
    s.prevLookup env.hash k = v.st.prevLookup env.hash k := (holds_agree hv).prev k hk

omit [DecidableEq K] in
theorem reads_home (hp : Pinned v.gs) (ho : Owns v.gs (.shard id))
    (hk : v.st.home env.hash k = some id) : Reads env.hash v.gs v.st k :=
  .inr ⟨hp, by rw [hk]; exact ho⟩

omit [DecidableEq K] in
theorem writes_home (hp : Pinned v.gs) (ho : OwnsExcl v.gs (.shard id))
    (hk : v.st.home env.hash k = some id) : Writes env.hash v.gs v.st k := .inr ⟨hp, id, hk, ho⟩

/-- One table changes at keys of its own. -/
theorem moves_table (hv : holds env L alone t v s G g) (hp : Pinned v.gs)
    (ho : OwnsExcl v.gs (.shard id)) {m : Assoc K V}
    (hm : ∀ k', m.lookup k' ≠ (v.st.heap id).lookup k' → v.st.home env.hash k' = some id)
    (hnew : ∀ k', m.lookup k' ≠ none → (v.st.heap id).lookup k' = none →
      v.st.prevLookup env.hash k' = none) :
    (protocol env L alone).Moves t G s g v { s with heap := update s.heap id m } v.gs g
      { v with st := { v.st with heap := update v.st.heap id m } } := by
  have ha := holds_agree hv
  have hw := ((holds_inv hv).pinned (holds_guards hv ▸ hp : Pinned (G t))).1
  have hheap : s.heap id = v.st.heap id := ha.heap id ho.owns
  have hacc : ∀ j, OwnsExcl v.gs (.shard j) → g.acc j = v.acc j := fun j hj => ha.acc j hj.owns
  refine moves_pinned hv hp _ _ _ _ _ _ (fun j hj => ⟨?_, rfl⟩) (fun j hj => ⟨?_, rfl⟩)
    (fun j hj => ⟨?_, hacc j hj⟩) (fun k' hk' j => ?_) ?_ (fun h => h) fun hal => ?_
  · exact Function.update_of_ne (fun h : j = id => hj (h ▸ ho)) _ _
  · exact Function.update_of_ne (fun h : j = id => hj (h ▸ ho)) _ _
  · by_cases hji : j = id
    · subst hji
      simp
    · rw [Function.update_of_ne hji, Function.update_of_ne hji]
      exact ha.heap j hj.owns
  · by_cases hji : j = id
    · subst hji
      rw [Function.update_self, hheap]
      by_contra hne
      exact hk' (.inr ⟨hp, j, holds_home hv hp (hm k' hne), ho⟩)
    · rw [Function.update_of_ne hji]
  · refine State.placed_update hw fun k' hk' hold => ?_
    rw [hheap] at hold
    have hhome := hm k' (by rwa [hold])
    exact ⟨holds_home hv hp hhome,
      (holds_prevLookup hv (reads_home hp ho.owns hhome)).trans (hnew k' hk' hold)⟩
  · obtain ⟨h₁, h₂, h₃⟩ := holds_alone hv hal
    exact ⟨by rw [h₁], by rw [h₁], h₃⟩

theorem rule_put (hp : Pinned v.gs) (ho : OwnsExcl v.gs (.shard id))
    (hk : v.st.home env.hash k = some id) (hpk : v.st.prevLookup env.hash k = none) {x : V}
    {Φ : Option V → View K V L.State → Prop}
    (h : Φ ((v.st.heap id).lookup k)
      { v with st := { v.st with heap := update v.st.heap id ((v.st.heap id).insert k x) } }) :
    (protocol env L alone).Rule (.put id k x) v Φ := by
  intro t (s : State K V L.State) (G : Nat → Guards K V) (g : Ghost K V) hv
  refine ⟨.inr ⟨_, _, _, rfl, rfl, rfl⟩, fun r s' gs he => ?_⟩
  obtain ⟨hr, rfl, rfl⟩ := he
  have hheap : s.heap id = v.st.heap id := (holds_agree hv).heap id ho.owns
  have hr : r = (s.heap id).lookup k := hr
  subst hr
  rw [hheap, holds_guards hv]
  have hdiff : ∀ k', ((v.st.heap id).insert k x).lookup k' ≠ (v.st.heap id).lookup k' →
      k' = k := fun k' hne => by_contra fun hk' => hne (AList.lookup_insert_ne hk')
  refine ⟨g, _, moves_table hv hp ho (fun k' hne => hdiff k' hne ▸ hk) fun k' hne hold => ?_, h⟩
  exact hdiff k' (by rwa [hold]) ▸ hpk

theorem rule_take (hp : Pinned v.gs) (ho : OwnsExcl v.gs (.shard id))
    (hk : (v.st.heap id).lookup k ≠ none → v.st.home env.hash k = some id)
    {Φ : Option V → View K V L.State → Prop}
    (h : Φ ((v.st.heap id).lookup k)
      { v with st := { v.st with heap := update v.st.heap id ((v.st.heap id).erase k) } }) :
    (protocol env L alone).Rule (.take id k) v Φ := by
  intro t (s : State K V L.State) (G : Nat → Guards K V) (g : Ghost K V) hv
  refine ⟨.inr ⟨_, _, _, rfl, rfl, rfl⟩, fun r s' gs he => ?_⟩
  obtain ⟨hr, rfl, rfl⟩ := he
  have hheap : s.heap id = v.st.heap id := (holds_agree hv).heap id ho.owns
  have hr : r = (s.heap id).lookup k := hr
  subst hr
  rw [hheap, holds_guards hv]
  have hdiff : ∀ k', ((v.st.heap id).erase k).lookup k' ≠ (v.st.heap id).lookup k' → k' = k :=
    fun k' hne => by_contra fun hk' => hne (AList.lookup_erase_ne hk')
  refine ⟨g, _, moves_table hv hp ho (fun k' hne => ?_) fun k' hne hold => ?_, h⟩
  · obtain rfl := hdiff k' hne
    exact hk fun hn => hne (by rw [AList.lookup_erase, hn])
  · obtain rfl := hdiff k' (by rwa [hold])
    exact absurd (AList.lookup_erase _ _) hne

def promotedAcc (heap : Nat → Assoc K V) (acc : Nat → Nat) (dst src : Nat) (k : K) : Nat → Nat :=
  match (heap src).lookup k with
  | none => acc
  | some _ => update (update acc src (acc src - 1)) dst (acc dst + 1)

theorem promotedAcc_ne {heap : Nat → Assoc K V} {acc : Nat → Nat} {dst src j : Nat}
    (hd : j ≠ dst) (hs : j ≠ src) : promotedAcc heap acc dst src k j = acc j := by
  cases hv : (heap src).lookup k with
  | none => simp only [promotedAcc, hv]
  | some v => simp only [promotedAcc, hv, Function.update_of_ne hd, Function.update_of_ne hs]

theorem sum_promotedAcc {heap : Nat → Assoc K V} {acc : Nat → Nat} {dst src : Nat} {l : List Nat}
    (hn : l.Nodup) (hd : dst ∈ l) (hs : src ∈ l) (hne : dst ≠ src)
    (hpos : acc src = (heap src).size) :
    (l.map (promotedAcc heap acc dst src k)).sum = (l.map acc).sum := by
  cases hx : (heap src).lookup k with
  | none => simp only [promotedAcc, hx]
  | some x =>
    simp only [promotedAcc, hx]
    have h₁ := sum_map_update hn hs acc (acc src - 1)
    have h₂ := sum_map_update hn hd (update acc src (acc src - 1)) (acc dst + 1)
    rw [Function.update_of_ne hne] at h₂
    have := Assoc.size_pos_of_lookup hx
    omega

theorem promotedAcc_size {st : State K V L.State} {acc : Nat → Nat} {dst src : Nat}
    (hw : st.WellFormed env.hash) (hd : st.home env.hash k = some dst)
    (hs : st.prevHome env.hash k = some src) {j : Nat}
    (hj : acc j = (st.heap j).size) (hjd : acc dst = (st.heap dst).size)
    (hjs : acc src = (st.heap src).size) :
    promotedAcc st.heap acc dst src k j = (promoted st.heap dst src k j).size := by
  have hne : dst ≠ src := fun h => hw.home_ne_prevHome hd (h ▸ hs)
  cases hx : (st.heap src).lookup k with
  | none => simp only [promotedAcc, promoted, hx, hj]
  | some x =>
    rw [State.size_promoted hw hd hs hx]
    simp only [promotedAcc, hx]
    by_cases hjd' : j = dst
    · subst hjd'
      simp [hjd]
    · rw [Function.update_of_ne hjd', if_neg hjd']
      by_cases hjs' : j = src
      · subst hjs'
        simp [hjs]
      · rw [Function.update_of_ne hjs', if_neg hjs', hj]

theorem rule_promote (hp : Pinned v.gs) {dst src : Nat} (hd : OwnsExcl v.gs (.shard dst))
    (hs : OwnsExcl v.gs (.shard src)) (hw : v.st.WellFormed env.hash)
    (hkd : v.st.home env.hash k = some dst) (hks : v.st.prevHome env.hash k = some src)
    (hacc : v.acc src = (v.st.heap src).size) {Φ : Bool → View K V L.State → Prop}
    (h : Φ ((v.st.heap src).lookup k).isSome
      { v with
        st := { v.st with heap := promoted v.st.heap dst src k }
        acc := promotedAcc v.st.heap v.acc dst src k }) :
    (protocol env L alone).Rule (.promote dst src k) v Φ := by
  intro t (s : State K V L.State) (G : Nat → Guards K V) (g : Ghost K V) hv
  refine ⟨.inr ⟨_, _, _, rfl, rfl, rfl⟩, fun r s' gs he => ?_⟩
  obtain ⟨hr, rfl, rfl⟩ := he
  have ha := holds_agree hv
  have hsw := ((holds_inv hv).pinned (holds_guards hv ▸ hp : Pinned (G t))).1
  have hne : dst ≠ src := fun h => hw.home_ne_prevHome hkd (h ▸ hks)
  have hheap : ∀ j, OwnsExcl v.gs (.shard j) → s.heap j = v.st.heap j := fun j hj =>
    ha.heap j hj.owns
  have hgacc : ∀ j, OwnsExcl v.gs (.shard j) → g.acc j = v.acc j := fun j hj => ha.acc j hj.owns
  have hhome := holds_home hv hp hkd
  have hprev : s.prevHome env.hash k = some src := by
    have h₁ : s.previous = v.st.previous := ha.previous hp.owns
    have h₂ : s.previousShardCount = v.st.previousShardCount := ha.previousShardCount hp.owns
    rw [← hks]
    simp only [State.prevHome, h₁, h₂]
  have hr : r = ((s.heap src).lookup k).isSome := hr
  subst hr
  rw [hheap src hs, holds_guards hv]
  have hout : ∀ heap : Nat → Assoc K V, ∀ j, ¬ OwnsExcl v.gs (.shard j) →
      promoted heap dst src k j = heap j := fun heap j hj =>
    State.promoted_ne heap (fun h => hj (h ▸ hd)) (fun h => hj (h ▸ hs))
  have houtacc : ∀ (heap : Nat → Assoc K V) (acc : Nat → Nat) j, ¬ OwnsExcl v.gs (.shard j) →
      promotedAcc heap acc dst src k j = acc j := fun heap acc j hj =>
    promotedAcc_ne (fun h => hj (h ▸ hd)) (fun h => hj (h ▸ hs))
  refine ⟨_, _, moves_pinned hv hp (promoted v.st.heap dst src k) (promoted s.heap dst src k)
    (promotedAcc v.st.heap v.acc dst src k) (promotedAcc s.heap g.acc dst src k)
    v.st.totalLen s.totalLen
    (fun j hj => ⟨hout _ j hj, houtacc _ _ j hj⟩)
    (fun j hj => ⟨hout _ j hj, houtacc _ _ j hj⟩) (fun j hj => ?_) (fun k' hk' j => ?_)
    (State.placed_promoted hsw hhome hprev) (fun hsum => ?_) (fun hal => ?_), h⟩
  · constructor
    · unfold promoted
      rw [hheap src hs, hheap dst hd]
      cases (v.st.heap src).lookup k with
      | none => exact hheap j hj
      | some x =>
        simp only
        by_cases hjd : j = dst
        · subst hjd; simp
        · rw [Function.update_of_ne hjd, Function.update_of_ne hjd]
          by_cases hjs : j = src
          · subst hjs; simp
          · rw [Function.update_of_ne hjs, Function.update_of_ne hjs, hheap j hj]
    · unfold promotedAcc
      rw [hheap src hs, hgacc src hs, hgacc dst hd]
      cases (v.st.heap src).lookup k with
      | none => exact hgacc j hj
      | some x =>
        simp only
        by_cases hjd : j = dst
        · subst hjd; simp
        · rw [Function.update_of_ne hjd, Function.update_of_ne hjd]
          by_cases hjs : j = src
          · subst hjs; simp
          · rw [Function.update_of_ne hjs, Function.update_of_ne hjs, hgacc j hj]
  · rw [State.lookup_promoted hne]
    have hk : k' ≠ k := by
      rintro rfl
      exact hk' (.inr ⟨hp, dst, hhome, hd⟩)
    simp [hk]
  · rw [sum_promotedAcc hsw.nodup (State.live_of_home hhome) (State.live_of_prevHome hprev) hne,
      ← hsum]
    rw [hheap src hs, hgacc src hs, hacc]
  · obtain ⟨h₁, h₂, h₃⟩ := holds_alone hv hal
    exact ⟨by rw [h₁], by rw [h₁], by rw [h₁, h₃]⟩

theorem rule_addLen (hp : Pinned v.gs) (ho : OwnsExcl v.gs (.shard id)) {n : Nat}
    {Φ : Unit → View K V L.State → Prop}
    (h : Φ () { v with
      st := { v.st with totalLen := v.st.totalLen + n }
      acc := update v.acc id (v.acc id + n) }) :
    (protocol env L alone).Rule (.addLen n) v Φ := by
  intro t (s : State K V L.State) (G : Nat → Guards K V) (g : Ghost K V) hv
  refine ⟨.inr ⟨(), _, _, rfl, rfl⟩, fun r s' gs he => ?_⟩
  obtain ⟨rfl, rfl⟩ := he
  rw [holds_guards hv]
  have hw := ((holds_inv hv).pinned (holds_guards hv ▸ hp : Pinned (G t))).1
  have hlive := (holds_agree hv).live hp.owns (hv.cons.rooted hp id ho.owns)
  have hne : ∀ j, ¬ OwnsExcl v.gs (.shard j) → j ≠ id := fun j hj h => hj (h ▸ ho)
  have hacc : ∀ j, OwnsExcl v.gs (.shard j) → g.acc j = v.acc j := fun j hj =>
    (holds_agree hv).acc j hj.owns
  refine ⟨_, _, moves_pinned hv hp v.st.heap s.heap (update v.acc id (v.acc id + n))
    (update g.acc id (g.acc id + n)) (v.st.totalLen + n) (s.totalLen + n)
    (fun j hj => ⟨rfl, Function.update_of_ne (hne j hj) _ _⟩)
    (fun j hj => ⟨rfl, Function.update_of_ne (hne j hj) _ _⟩)
    (fun j hj => ⟨(holds_agree hv).heap j hj.owns, ?_⟩) (fun _ _ _ => rfl)
    (fun _ _ h h' => absurd h' h) (fun hsum => ?_) (fun hal => ?_), h⟩
  · by_cases hji : j = id
    · subst hji
      simp [hacc j hj]
    · simp [hji, hacc j hj]
  · have := sum_map_update hw.nodup hlive g.acc (g.acc id + n)
    omega
  · obtain ⟨h₁, h₂, h₃⟩ := holds_alone hv hal
    exact ⟨by rw [h₁], by rw [h₁], by rw [h₃]⟩

theorem rule_subLen (hp : Pinned v.gs) (ho : OwnsExcl v.gs (.shard id)) {n : Nat}
    (hn : n ≤ v.acc id) {Φ : Unit → View K V L.State → Prop}
    (h : Φ () { v with
      st := { v.st with totalLen := v.st.totalLen - n }
      acc := update v.acc id (v.acc id - n) }) :
    (protocol env L alone).Rule (.subLen n) v Φ := by
  intro t (s : State K V L.State) (G : Nat → Guards K V) (g : Ghost K V) hv
  obtain ⟨hw, htotal⟩ := (holds_inv hv).pinned (holds_guards hv ▸ hp : Pinned (G t))
  have hlive := (holds_agree hv).live hp.owns (hv.cons.rooted hp id ho.owns)
  have hacc : ∀ j, OwnsExcl v.gs (.shard j) → g.acc j = v.acc j := fun j hj =>
    (holds_agree hv).acc j hj.owns
  have hle : g.acc id ≤ s.totalLen := htotal ▸ sum_map_le hlive g.acc
  refine ⟨.inr ⟨(), _, _, ?_, rfl, rfl⟩, fun r s' gs he => ?_⟩
  · rw [hacc id ho] at hle
    omega
  obtain ⟨-, rfl, rfl⟩ := he
  rw [holds_guards hv]
  have hne : ∀ j, ¬ OwnsExcl v.gs (.shard j) → j ≠ id := fun j hj h => hj (h ▸ ho)
  refine ⟨_, _, moves_pinned hv hp v.st.heap s.heap (update v.acc id (v.acc id - n))
    (update g.acc id (g.acc id - n)) (v.st.totalLen - n) (s.totalLen - n)
    (fun j hj => ⟨rfl, Function.update_of_ne (hne j hj) _ _⟩)
    (fun j hj => ⟨rfl, Function.update_of_ne (hne j hj) _ _⟩)
    (fun j hj => ⟨(holds_agree hv).heap j hj.owns, ?_⟩) (fun _ _ _ => rfl)
    (fun _ _ h h' => absurd h' h) (fun hsum => ?_) (fun hal => ?_), h⟩
  · by_cases hji : j = id
    · subst hji
      simp [hacc j hj]
    · simp [hji, hacc j hj]
  · have := sum_map_update hw.nodup hlive g.acc (g.acc id - n)
    have := hacc id ho
    omega
  · obtain ⟨h₁, h₂, h₃⟩ := holds_alone hv hal
    exact ⟨by rw [h₁], by rw [h₁], by rw [h₃]⟩

end Pinned

end Starshard
