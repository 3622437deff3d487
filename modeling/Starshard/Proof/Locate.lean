import Starshard.Proof.Calm

/-! Finding shards: directory reads between locked sections. -/
namespace Starshard

open Data Concurrent
open Function (update)

section Guards

variable {K V : Type} {gs : Guards K V} {l : LockId} {m : Mode}

@[simp] theorem without_lock (l : LockId) (m : Mode) (gs : Guards K V) :
    without (.lock l m :: gs) l = gs := by
  simp [Guard.holds]

theorem free_of_not_owns (h : ¬ Owns gs l) : ∀ x ∈ gs, ¬ x.excludes l m := by
  intro x hx hex
  cases x with
  | lock l' m' =>
    obtain ⟨rfl, -⟩ := (Guard.excludes_lock l l' m m').mp hex
    exact h ⟨m', hx⟩
  | _ => cases hex

/-- Routing is owned and nothing inside it is. -/
structure Routed (gs : Guards K V) : Prop where
  routing : Owns gs .routing
  free : ∀ l, l.inner → ¬ Owns gs l

end Guards

variable {K V : Type} [DecidableEq K] {env : Env K V} {L : Lifecycle K V} {alone : Prop}
  {v v' : View K V L.State} {α : Type} {Φ : α → View K V L.State → Prop}
  {sp : List (Event K V) → Prop} {gs : Guards K V} {ds : List (Event K V)} {cs : List Metric}

namespace Keeps

theorem refl (v : View K V L.State) : Keeps env gs v v := Agree.refl _ _

theorem of_eq (h : v'.toWorld = v.toWorld) : Keeps env gs v v' := by
  unfold Keeps
  rw [h]
  exact .refl _ _

theorem trans {v'' : View K V L.State} (h : Keeps env gs v v') (h' : Keeps env gs v' v'') :
    Keeps env gs v v'' := Agree.trans h h'

theorem lock {l : LockId} {m : Mode} (h : Keeps env (.lock l m :: gs) v v') :
    Keeps env gs v v' := Agree.mono h fun _ _ => List.mem_cons_of_mem _

theorem prevHome (h : Keeps env gs v v') (hr : Owns gs .routing) (k : K) :
    v'.st.prevHome env.hash k = v.st.prevHome env.hash k := by
  simp only [State.prevHome, Agree.previous h hr, Agree.previousShardCount h hr]

theorem home (h : Keeps env gs v v') (hr : Owns gs .routing) {k : K} {id : Nat}
    (hk : v.st.home env.hash k = some id) : v'.st.home env.hash k = some id :=
  Agree.home_some h hr hk

end Keeps

theorem wp_shardIndex (hs : Settled env.hash v) (hr : Owns v.gs .routing) (k : K) :
    (protocol env L alone).Wp (shardIndex env k) v fun r v' =>
      r = env.hash k % v.st.shardCount ∧ v' = v := by
  refine wp_user hs (wp_quiet rfl (rule_shardCount hr ?_))
  rw [if_neg (Nat.pos_iff_ne_zero.mp (hs.wellFormed hr).count_pos)]
  exact ⟨rfl, rfl⟩

namespace Calm

theorem owns (h : Calm env sp gs ds cs v) {l : LockId} (ho : Owns gs l) : Owns v.gs l :=
  h.guards ▸ ho

theorem wp_shardIndex (h : Calm env sp gs ds cs v) (hr : Owns gs .routing) (k : K) :
    (protocol env L alone).Wp (shardIndex env k) v fun r v' =>
      r = env.hash k % v.st.shardCount ∧ v' = v :=
  Starshard.wp_shardIndex h.settled (h.owns hr) k

theorem wp_activeSlots (h : Calm env sp gs ds cs v) (hr : Owns gs .routing)
    (ha : ¬ Owns gs .active) : (protocol env L alone).Wp activeSlots v fun r v' =>
      r = v'.st.shards ∧ Calm env sp gs ds cs v' ∧ Keeps env gs v v' ∧
        (alone → v'.toWorld = v.toWorld) := by
  refine wp_lock_calm h (fun _ => hr) (free_of_not_owns ha) nofun nofun
    fun v₁ h₁ k₁ a₁ => ?_
  refine wp_quiet rfl (rule_shards (.inr ⟨h₁.owns ?_, h₁.owns ⟨.shared, by simp⟩⟩) ?_)
  · exact (owns_lock _ _ _ _).mpr (.inr hr)
  refine wp_unlock_calm h₁ nofun fun v₂ h₂ w₂ _ => ?_
  rw [without_lock] at h₂
  refine ⟨by rw [w₂], h₂, k₁.trans (.of_eq w₂), fun hal => w₂.trans (a₁ hal)⟩

theorem wp_previousSlots (h : Calm env sp gs ds cs v) (hr : Owns gs .routing)
    (ha : ¬ Owns gs .previous) : (protocol env L alone).Wp previousSlots v fun r v' =>
      r = v.st.previous ∧ Calm env sp gs ds cs v' ∧ Keeps env gs v v' ∧
        (alone → v'.toWorld = v.toWorld) := by
  refine wp_lock_calm h (fun _ => hr) (free_of_not_owns ha) nofun nofun
    fun v₁ h₁ k₁ a₁ => ?_
  refine wp_quiet rfl (rule_previous (h₁.owns ((owns_lock _ _ _ _).mpr (.inr hr))) ?_)
  refine wp_unlock_calm h₁ nofun fun v₂ h₂ w₂ _ => ?_
  rw [without_lock] at h₂
  exact ⟨Agree.previous k₁ hr, h₂, k₁.trans (.of_eq w₂), fun hal => w₂.trans (a₁ hal)⟩

theorem wp_previousShard (h : Calm env sp gs ds cs v) (hr : Owns gs .routing)
    (ha : ¬ Owns gs .previous) (k : K) :
    (protocol env L alone).Wp (Sync.previousShard env k) v fun r v' =>
      r = v.st.prevHome env.hash k ∧ Calm env sp gs ds cs v' ∧ Keeps env gs v v' ∧
        (alone → v'.toWorld = v.toWorld) := by
  have hw := h.wellFormed hr
  refine wp_quiet rfl (rule_previousShardCount (h.owns hr) ?_)
  by_cases hz : v.st.previousShardCount = 0
  · rw [if_pos hz]
    refine ⟨?_, h, .refl v, fun _ => rfl⟩
    rw [State.prevHome, hw.previous_none.mpr hz, slotAt_none]
  · rw [if_neg hz]
    refine wp_user h.settled (Protocol.Wp.bind ?_)
    refine (h.wp_previousSlots hr ha).mono fun r v₁ h₁ => ?_
    obtain ⟨hslots, h₁, k₁, a₁⟩ := h₁
    subst hslots
    cases hp : v.st.previous with
    | none => exact absurd (hw.previous_none.mp hp) hz
    | some slots =>
      have hlt : env.hash k % v.st.previousShardCount < slots.length := by
        rw [hw.previous_length slots hp]
        exact Nat.mod_lt _ (Nat.pos_of_ne_zero hz)
      have hslot := List.getElem?_eq_getElem hlt
      have hhome : v.st.prevHome env.hash k = slots[env.hash k % v.st.previousShardCount] := by
        simp only [State.prevHome, slotAt, hp, Option.bind_some, hslot, Option.join_some]
      dsimp only
      rw [hslot]
      exact ⟨hhome.symm, h₁, k₁, a₁⟩

theorem wp_allShards (h : Calm env sp gs ds cs v) (hx : Exclusive gs)
    (ha : ¬ Owns gs .active) (hp : ¬ Owns gs .previous) :
    (protocol env L alone).Wp Sync.allShards v fun r v' =>
      r = v.st.live ∧ Calm env sp gs ds cs v' ∧ Keeps env gs v v' ∧
        (alone → v'.toWorld = v.toWorld) := by
  refine Protocol.Wp.bind ((h.wp_activeSlots hx.owns ha).mono fun r v₁ ⟨hr, h₁, k₁, a₁⟩ => ?_)
  refine Protocol.Wp.bind ((h₁.wp_previousSlots hx.owns hp).mono
    fun r' v₂ ⟨hr', h₂, k₂, a₂⟩ => ⟨?_, h₂, k₁.trans k₂, fun hal => (a₂ hal).trans (a₁ hal)⟩)
  rw [hr, hr', Agree.previous k₁ hx.owns, ((Agree.exclusive k₁) hx).1.shards]
  rfl

/-- The slot of an index is there afterwards, whoever initialised it. -/
theorem wp_getOrInitShard (h : Calm env sp gs ds cs v) (hp : Pinned gs) (ha : ¬ Owns gs .active)
    {index : Nat} (hi : index < v.st.shardCount) :
    (protocol env L alone).Wp (getOrInitShard index) v fun id v' =>
      v'.st.shards[index]? = some (some id) ∧ Calm env sp gs ds cs v' ∧ Keeps env gs v v' := by
  refine wp_lock_calm h (fun _ => hp.owns) (free_of_not_owns ha) nofun nofun
    fun v₁ h₁ k₁ _ => ?_
  have hr₁ : Owns (.lock .active .shared :: gs) .routing := (owns_lock _ _ _ _).mpr (.inr hp.owns)
  refine wp_quiet rfl (rule_shards (.inr ⟨h₁.owns hr₁, h₁.owns ⟨.shared, by simp⟩⟩) ?_)
  have hlen : index < v₁.st.shards.length := by
    rw [(h₁.wellFormed hr₁).length, Agree.shardCount k₁ hp.owns]
    exact hi
  cases hslot : v₁.st.shards[index]? with
  | none => exact absurd (List.getElem?_eq_none_iff.mp hslot) (by omega)
  | some slot =>
    cases slot with
    | some id =>
      refine wp_unlock_calm h₁ nofun fun v₂ h₂ w₂ _ => ?_
      rw [without_lock] at h₂
      exact ⟨by rw [w₂]; exact hslot, h₂, k₁.trans (.of_eq w₂)⟩
    | none =>
      refine wp_unlock_calm h₁ nofun fun v₂ h₂ w₂ _ => ?_
      rw [without_lock] at h₂
      refine wp_lock_calm h₂ (fun _ => hp.owns) (free_of_not_owns ha) nofun nofun
        fun v₃ h₃ k₃ _ => ?_
      have hr₃ : Owns (.lock .active .excl :: gs) .routing :=
        (owns_lock _ _ _ _).mpr (.inr hp.owns)
      have hlen₃ : index < v₃.st.shards.length := by
        rw [(h₃.wellFormed hr₃).length, Agree.shardCount k₃ hp.owns, w₂,
          Agree.shardCount k₁ hp.owns]
        exact hi
      obtain ⟨hclean, hstack, hguards, hspec, hvis, hcs, hq⟩ := h₃
      have hgs : without v₃.gs .active = gs := by rw [hguards, without_lock]
      refine wp_quiet rfl (rule_initSlot (hguards ▸ List.mem_cons_of_mem _ hp)
        (hguards ▸ List.mem_cons_self) (by rwa [hgs]) hclean hlen₃ ?_)
      intro id w hagree hcw hid
      rw [hgs] at hagree
      have h₄ : Calm env sp (.lock .active .excl :: gs) ds cs { v₃ with toWorld := w } :=
        ⟨hcw, hstack, hguards, hspec, hvis, hcs, hq⟩
      refine wp_unlock_calm h₄ nofun fun v₅ h₅ w₅ _ => ?_
      rw [without_lock] at h₅
      have k₄ : Keeps env gs v₃ v₅ := by
        unfold Keeps
        rw [w₅]
        exact hagree
      refine ⟨by rw [w₅]; exact hid, h₅, ?_⟩
      exact ((k₁.trans (.of_eq w₂)).trans k₃).trans k₄

end Calm
end Starshard
