import Starshard.Proof.Commit

/-! Rules under exclusive routing: the task alone describes the whole map, and
changes it step by step. The invariant is due again when routing is released. -/
namespace Starshard

open Data Concurrent
open Function (update)

variable {K V : Type} [DecidableEq K] {env : Env K V} {L : Lifecycle K V} {alone : Prop}
  {v : View K V L.State}

theorem rule_exclusive (hx : Exclusive v.gs) {a : Act K V} {Φ : Resp a → View K V L.State → Prop}
    (hen : ∀ G t s, State.SameCore v.st s → ∃ r s', exec L G t a s r s' (G t))
    (hΦ : ∀ G t s, State.SameCore v.st s → ∀ r s' gs, exec L G t a s r s' gs →
      gs = G t ∧ s'.published = s.published ∧ s'.cache = s.cache ∧ s'.metrics = s.metrics ∧
      ∃ st, State.SameCore st s' ∧ (v.st = s → st = s') ∧ Φ r { v with st := st }) :
    (protocol env L alone).Rule a v Φ := by
  intro t (s : State K V L.State) (G : Nat → Guards K V) (g : Ghost K V) hv
  have hI := holds_inv hv
  have ha := holds_agree hv
  have hG := holds_guards hv
  have hcons : v.Consistent env.hash alone s g := hv.cons
  have hupd : update G t v.gs = G := by rw [← hG, Function.update_eq_self]
  have hxt : Exclusive (G t) := hG ▸ hx
  refine ⟨.inr ?_, fun r (s' : State K V L.State) gs he => ?_⟩
  · obtain ⟨r, s', hr⟩ := hen G t s (holds_exclusive hv hx)
    exact ⟨r, s', _, hr⟩
  · obtain ⟨rfl, hepoch, hcache, hmet, st, hst, heq, hr⟩ :=
      hΦ G t s (holds_exclusive hv hx) r s' gs he
    let v' : View K V L.State := { v with st := st }
    refine ⟨g, v', moves_of ?_ hG.symm ?_ (fun u hu _ _ _ => ?_) rfl
      (Nat.le_of_eq hepoch.symm) rfl (List.append_nil _).symm .nil, hr⟩
    · rw [hG, hupd]
      refine ⟨hI.mutex, hI.single, hI.inner, fun hn => absurd hxt (hn t),
        fun k hk => absurd (.inl hxt) (hk t), fun id hid => absurd hxt (hid t).1, ?_, ?_, ?_, ?_⟩
      · rw [hepoch]; exact hI.version
      · rw [hmet]; exact hI.metrics
      · rw [hepoch]; exact hI.labels
      · rw [hcache]; exact hI.cache
    · refine ⟨.of_sameCore hst (funext fun k => ha.abs k (.inl hx)) (ha.exclusive hx).2,
        fun hf => ⟨.inl hx, ?_⟩, hcons.known, fun hp => ?_, fun hal => ?_, hcons.meets⟩
      · rw [hepoch]
        exact (hcons.fresh hf).2
      · exact absurd hx (hG ▸ hI.single t (hG.symm ▸ hp))
      · obtain ⟨h₁, h₂⟩ := holds_alone hv hal
        exact ⟨heq h₁, h₂⟩
    · obtain ⟨hr, hs⟩ := hI.unrouted hxt hu
      exact .of_unrouted hr hs

section Rules

variable (hx : Exclusive v.gs)

include hx

theorem rule_take_exclusive {id : Nat} {k : K} {Φ : Option V → View K V L.State → Prop}
    (h : Φ ((v.st.heap id).lookup k)
      { v with st := { v.st with heap := update v.st.heap id ((v.st.heap id).erase k) } }) :
    (protocol env L alone).Rule (.take id k) v Φ := by
  refine rule_exclusive hx (fun G t s _ => ⟨_, _, rfl, rfl, rfl⟩) fun G t s hs r s' gs he => ?_
  obtain ⟨hr, rfl, rfl⟩ := he
  have hr : r = (s.heap id).lookup k := hr
  rw [hr, hs.heap]
  refine ⟨rfl, rfl, rfl, rfl, { v.st with heap := update v.st.heap id ((v.st.heap id).erase k) },
    ⟨hs.shards, hs.previous, rfl, hs.next, hs.shardCount,
    hs.previousShardCount, hs.totalLen, hs.published, hs.layout⟩, fun heq => by rw [heq], h⟩

theorem rule_drain_exclusive {id : Nat} {Φ : List (K × V) → View K V L.State → Prop}
    (h : ∀ l : List (K × V), l.Perm (v.st.heap id).items →
      Φ l { v with st := { v.st with heap := update v.st.heap id ∅ } }) :
    (protocol env L alone).Rule (.drain id) v Φ := by
  refine rule_exclusive hx (fun G t s _ => ⟨_, _, .refl _, rfl, rfl⟩)
    fun G t s hs r s' gs he => ?_
  obtain ⟨hr, rfl, rfl⟩ := he
  rw [hs.heap] at hr ⊢
  refine ⟨rfl, rfl, rfl, rfl, { v.st with heap := update v.st.heap id ∅ },
    ⟨hs.shards, hs.previous, rfl, hs.next, hs.shardCount,
    hs.previousShardCount, hs.totalLen, hs.published, hs.layout⟩, fun heq => by rw [heq], h r hr⟩

theorem rule_promote_exclusive {dst src : Nat} {k : K} {Φ : Bool → View K V L.State → Prop}
    (h : Φ ((v.st.heap src).lookup k).isSome
      { v with st := { v.st with heap := promoted v.st.heap dst src k } }) :
    (protocol env L alone).Rule (.promote dst src k) v Φ := by
  refine rule_exclusive hx (fun G t s _ => ⟨_, _, rfl, rfl, rfl⟩) fun G t s hs r s' gs he => ?_
  obtain ⟨hr, rfl, rfl⟩ := he
  have hr : r = ((s.heap src).lookup k).isSome := hr
  rw [hr, hs.heap]
  refine ⟨rfl, rfl, rfl, rfl, { v.st with heap := promoted v.st.heap dst src k },
    ⟨hs.shards, hs.previous, rfl, hs.next, hs.shardCount,
    hs.previousShardCount, hs.totalLen, hs.published, hs.layout⟩, fun heq => by rw [heq], h⟩

theorem rule_install_exclusive {maps : List (Option (Assoc K V))}
    {Φ : Slots → View K V L.State → Prop}
    (h : Φ v.st.shards { v with st := { v.st with
      shards := allocate v.st.next maps
      heap := allocated v.st.heap v.st.next maps
      next := v.st.next + maps.length } }) :
    (protocol env L alone).Rule (.install maps) v Φ := by
  refine rule_exclusive hx (fun G t s _ => ⟨_, _, rfl, rfl, rfl⟩) fun G t s hs r s' gs he => ?_
  obtain ⟨hr, rfl, rfl⟩ := he
  have hr : r = s.shards := hr
  rw [hr, hs.shards, hs.heap, hs.next]
  refine ⟨rfl, rfl, rfl, rfl, { v.st with
      shards := allocate v.st.next maps
      heap := allocated v.st.heap v.st.next maps
      next := v.st.next + maps.length },
    ⟨rfl, hs.previous, rfl, rfl, hs.shardCount,
    hs.previousShardCount, hs.totalLen, hs.published, hs.layout⟩, fun heq => by rw [heq], h⟩

theorem rule_setPrevious_exclusive {slots : Option Slots}
    {Φ : Option Slots → View K V L.State → Prop}
    (h : Φ v.st.previous { v with st := { v.st with previous := slots } }) :
    (protocol env L alone).Rule (.setPrevious slots) v Φ := by
  refine rule_exclusive hx (fun G t s _ => ⟨_, _, rfl, rfl, rfl⟩) fun G t s hs r s' gs he => ?_
  obtain ⟨hr, rfl, rfl⟩ := he
  have hr : r = s.previous := hr
  rw [hr, hs.previous]
  refine ⟨rfl, rfl, rfl, rfl, { v.st with previous := slots },
    ⟨hs.shards, rfl, hs.heap, hs.next, hs.shardCount,
    hs.previousShardCount, hs.totalLen, hs.published, hs.layout⟩, fun heq => by rw [heq], h⟩

theorem rule_initSlot_exclusive {i : Nat} {slot : Option Nat} (hi : v.st.shards[i]? = some slot)
    {Φ : Nat → View K V L.State → Prop}
    (hsome : ∀ id, slot = some id → Φ id v)
    (hnone : slot = none → Φ v.st.next { v with st := { v.st with
      shards := v.st.shards.set i (some v.st.next)
      heap := update v.st.heap v.st.next ∅
      next := v.st.next + 1 } }) :
    (protocol env L alone).Rule (.initSlot i) v Φ := by
  cases slot with
  | some id =>
    refine rule_exclusive hx (fun G t s hs => ⟨id, s, rfl, ?_⟩) fun G t s hs r s' gs he => ?_
    · rw [hs.shards, hi]
      exact ⟨rfl, rfl⟩
    · obtain ⟨rfl, he⟩ := he
      rw [hs.shards, hi] at he
      obtain ⟨hr, rfl⟩ := he
      have hr : r = id := hr
      exact ⟨rfl, rfl, rfl, rfl, v.st, hs, fun h => h, hr ▸ hsome id rfl⟩
  | none =>
    refine rule_exclusive hx (fun G t s hs => ⟨s.next,
      { s with
        shards := s.shards.set i (some s.next)
        heap := update s.heap s.next ∅
        next := s.next + 1 }, rfl, ?_⟩) fun G t s hs r s' gs he => ?_
    · rw [hs.shards, hi]
      exact ⟨rfl, rfl⟩
    · obtain ⟨rfl, he⟩ := he
      rw [hs.shards, hi] at he
      obtain ⟨hr, rfl⟩ := he
      have hr : r = s.next := hr
      rw [hr, hs.next]
      refine ⟨rfl, rfl, rfl, rfl, { v.st with
        shards := v.st.shards.set i (some v.st.next)
        heap := update v.st.heap v.st.next ∅
        next := v.st.next + 1 },
    ⟨rfl, hs.previous, ?_, rfl, hs.shardCount,
        hs.previousShardCount, hs.totalLen, hs.published, hs.layout⟩, fun heq => ?_, hnone rfl⟩
      · show update s.heap v.st.next ∅ = update v.st.heap v.st.next ∅
        rw [hs.heap]
      · rw [heq]

theorem rule_setShardCount_exclusive {n : Nat} {Φ : Unit → View K V L.State → Prop}
    (h : Φ () { v with st := { v.st with shardCount := n } }) :
    (protocol env L alone).Rule (.setShardCount n) v Φ := by
  refine rule_exclusive hx (fun G t s _ => ⟨(), _, rfl, rfl⟩) fun G t s hs r s' gs he => ?_
  obtain ⟨rfl, rfl⟩ := he
  exact ⟨rfl, rfl, rfl, rfl, { v.st with shardCount := n },
    ⟨hs.shards, hs.previous, hs.heap, hs.next, rfl,
    hs.previousShardCount, hs.totalLen, hs.published, hs.layout⟩, fun heq => by rw [heq], h⟩

theorem rule_setPreviousShardCount_exclusive {n : Nat} {Φ : Unit → View K V L.State → Prop}
    (h : Φ () { v with st := { v.st with previousShardCount := n } }) :
    (protocol env L alone).Rule (.setPreviousShardCount n) v Φ := by
  refine rule_exclusive hx (fun G t s _ => ⟨(), _, rfl, rfl⟩) fun G t s hs r s' gs he => ?_
  obtain ⟨rfl, rfl⟩ := he
  exact ⟨rfl, rfl, rfl, rfl, { v.st with previousShardCount := n },
    ⟨hs.shards, hs.previous, hs.heap, hs.next, hs.shardCount,
    rfl, hs.totalLen, hs.published, hs.layout⟩, fun heq => by rw [heq], h⟩

theorem rule_subLen_exclusive {n : Nat} (hn : n ≤ v.st.totalLen)
    {Φ : Unit → View K V L.State → Prop}
    (h : Φ () { v with st := { v.st with totalLen := v.st.totalLen - n } }) :
    (protocol env L alone).Rule (.subLen n) v Φ := by
  refine rule_exclusive hx (fun G t s hs => ⟨(), _, hs.totalLen ▸ hn, rfl, rfl⟩)
    fun G t s hs r s' gs he => ?_
  obtain ⟨-, rfl, rfl⟩ := he
  exact ⟨rfl, rfl, rfl, rfl, { v.st with totalLen := v.st.totalLen - n },
    ⟨hs.shards, hs.previous, hs.heap, hs.next, hs.shardCount,
    hs.previousShardCount, congrArg (· - n) hs.totalLen, hs.published, hs.layout⟩,
    fun heq => by rw [heq], h⟩

theorem rule_tracker_exclusive {f : Progress → Progress} {Φ : Progress → View K V L.State → Prop}
    (h : ∀ p : Progress, p.layout = v.st.tracker.layout →
      Φ p { v with st := { v.st with tracker := f p } }) :
    (protocol env L alone).Rule (.tracker f) v Φ := by
  refine rule_exclusive hx (fun G t s _ => ⟨_, _, rfl, rfl, rfl⟩) fun G t s hs r s' gs he => ?_
  obtain ⟨hr, rfl, rfl⟩ := he
  have hr : r = s.tracker := hr
  subst hr
  refine ⟨rfl, rfl, rfl, rfl, { v.st with tracker := f s.tracker },
    ⟨hs.shards, hs.previous, hs.heap, hs.next, hs.shardCount,
    hs.previousShardCount, hs.totalLen, hs.published, rfl⟩, fun heq => ?_,
    h s.tracker hs.layout⟩
  rw [heq]

/-- The accounted sizes are free while routing is owned exclusively. -/
theorem shift_acc (acc : Nat → Nat) {Ψ : View K V L.State → Prop}
    (h : Ψ { v with acc := acc }) : (protocol env L alone).Shift v Ψ := by
  intro t (s : State K V L.State) (G : Nat → Guards K V) (g : Ghost K V) hv
  have hI := holds_inv hv
  have ha := holds_agree hv
  have hG := holds_guards hv
  have hcons : v.Consistent env.hash alone s g := hv.cons
  have hupd : update G t v.gs = G := by rw [← hG, Function.update_eq_self]
  have hxt : Exclusive (G t) := hG ▸ hx
  let g' : Ghost K V := { g with acc := acc }
  let v' : View K V L.State := { v with acc := acc }
  refine ⟨g', v', moves_of ?_ rfl ?_ (fun u hu _ _ _ => ?_) rfl le_rfl rfl
    (List.append_nil _).symm .nil, h⟩
  · show Inv env.hash s (update G t v.gs) g'
    rw [hupd]
    exact ⟨hI.mutex, hI.single, hI.inner, fun hn => absurd hxt (hn t), hI.contents,
      fun id hid => absurd hxt (hid t).1, hI.version, hI.metrics, hI.labels, hI.cache⟩
  · refine ⟨.of_sameCore (ha.exclusive hx).1 (funext fun k => ha.abs k (.inl hx)) rfl,
      hcons.fresh, hcons.known, hcons.rooted, fun hal => ?_, hcons.meets⟩
    obtain ⟨h₁, h₂, _⟩ := holds_alone hv hal
    exact ⟨h₁, h₂, rfl⟩
  · obtain ⟨hr, hs⟩ := hI.unrouted hxt hu
    exact .of_unrouted hr hs

end Rules

end Starshard
