import Starshard.Proof.Batching
import Starshard.Sync.Operations
import Starshard.Worker.Layout

/-! Operations that only look at the map, and the start of a supervised rebalance. -/
namespace Starshard

open Data Concurrent

variable {K V : Type} [DecidableEq K] {env : Env K V} {L : Lifecycle K V} {alone : Prop}
  {v v' : View K V L.State} {α : Type} {Φ : α → View K V L.State → Prop}
  {sp : List (Event K V) → Prop} {gs : Guards K V} {ds : List (Event K V)}
  {cs : List Metric} {id : Nat}

section Loads

theorem Calm.wp_loadOf (h : Calm env sp gs ds cs v) (hr : Owns gs .routing)
    (hfree : ¬ Owns gs (.shard id)) (hid : id ∈ v.st.live) :
    (protocol env L alone).Wp (Sync.loadOf id) v fun _ v' =>
      Calm env sp gs ds cs v' ∧ Keeps env gs v v' := by
  refine wp_lock_calm h (fun _ => hr) (free_of_not_owns hfree) (fun he => by cases he)
    (fun _ heq _ => LockId.shard.inj heq ▸ hid) fun v₁ h₁ k₁ _ => ?_
  refine wp_quiet rfl (rule_len (.inr (h₁.owns ⟨.shared, by simp⟩)) ?_)
  refine wp_unlock_calm h₁ (fun he => by cases he) fun v₂ h₂ w₂ _ => ?_
  rw [without_lock] at h₂
  exact ⟨h₂, k₁.trans (.of_eq w₂)⟩

theorem Calm.wp_loads (h : Calm env sp gs ds cs v) (hr : Owns gs .routing) {ids : List Nat}
    (hfree : ∀ id, ¬ Owns gs (.shard id)) (hids : ∀ id ∈ ids, id ∈ v.st.live) :
    (protocol env L alone).Wp (ids.mapM Sync.loadOf) v fun _ v' => Calm env sp gs ds cs v' := by
  refine (Protocol.Wp.mapM (P := protocol env L alone) (I := fun _ _ (w : View K V L.State) =>
    Calm env sp gs ds cs w ∧ Keeps env gs v w) ?_ ⟨h, .refl _⟩).mono fun _ _ ⟨h₁, _⟩ => h₁
  intro pre id post _ w hpost ⟨hw, kw⟩
  have hid : id ∈ v.st.live := hids id (by rw [hpost]; simp)
  exact (hw.wp_loadOf hr (hfree id) (kw.live hr hid)).mono fun _ w₁ ⟨h₁, k₁⟩ => ⟨h₁, kw.trans k₁⟩

theorem Calm.wp_look (h : Calm env sp [] ds cs v) {f : Unit → Prog K V α}
    (hΦ : ∀ v', Calm env sp [.lock .routing .shared] ds cs v' →
      (protocol env L alone).Wp (f ()) v' Φ) :
    (protocol env L alone).Wp (act (.lock .routing .shared) >>= f) v Φ :=
  wp_lock_calm h (fun he => by cases he) (by simp) (fun _ l _ => by simp [Owns])
    (fun _ he => by cases he) fun v₁ h₁ _ _ => hΦ v₁ h₁

theorem Calm.wp_leave_look (h : Calm env sp [.lock .routing .shared] ds cs v)
    {f : Unit → Prog K V α} (hΦ : ∀ v', Calm env sp [] ds cs v' →
      (protocol env L alone).Wp (f ()) v' Φ) :
    (protocol env L alone).Wp (act (.unlock .routing) >>= f) v Φ := by
  refine wp_unlock_calm h (fun _ => pinned_free [] (by simp)) fun v₁ h₁ _ _ => ?_
  rw [without_lock] at h₁
  exact hΦ v₁ h₁

theorem Calm.wp_initializedShards (h : Calm env sp [] ds cs v) :
    (protocol env L alone).Wp Sync.initializedShards v fun _ v' => Calm env sp [] ds cs v' := by
  refine h.wp_look fun v₁ h₁ => ?_
  refine Protocol.Wp.bind ((h₁.wp_activeSlots ⟨.shared, by simp⟩ (by simp)).mono
    fun slots v₂ ⟨_, h₂, _, _⟩ => ?_)
  exact h₂.wp_leave_look fun v₃ h₃ => h₃

theorem Calm.wp_shardLoads (h : Calm env sp [] ds cs v) :
    (protocol env L alone).Wp Sync.shardLoads v fun _ v' => Calm env sp [] ds cs v' := by
  refine h.wp_look fun v₁ h₁ => ?_
  refine wp_lock_calm h₁ (fun _ => ⟨.shared, by simp⟩) (by simp [Guard.excludes])
    (fun he => by cases he) (fun _ he => by cases he) fun v₂ h₂ _ _ => ?_
  have hr : Owns ([.lock .active .shared, .lock .routing .shared] : Guards K V) .routing := by simp
  refine wp_quiet rfl (rule_shards (.inr ⟨h₂.owns hr, h₂.owns ⟨.shared, by simp⟩⟩) ?_)
  refine Protocol.Wp.bind ((h₂.wp_loads hr (by simp) fun id hid => ?_).mono fun loads v₃ h₃ => ?_)
  · exact List.mem_append_left _ hid
  · refine wp_unlock_calm h₃ (fun he => by cases he) fun v₄ h₄ _ _ => ?_
    rw [without_lock] at h₄
    exact h₄.wp_leave_look fun v₅ h₅ => h₅

theorem Calm.wp_memoryLoads (h : Calm env sp [] ds cs v) :
    (protocol env L alone).Wp Sync.memoryLoads v fun _ v' => Calm env sp [] ds cs v' := by
  refine h.wp_look fun v₁ h₁ => ?_
  have hr : Owns ([.lock .routing .shared] : Guards K V) .routing := by simp
  refine Protocol.Wp.bind (Protocol.Wp.bind ((h₁.wp_activeSlots hr (by simp)).mono
    fun active v₂ ⟨hactive, h₂, _, _⟩ => Protocol.Wp.bind ?_))
  refine (h₂.wp_previousSlots hr (by simp)).mono fun previous v₃ ⟨hprevious, h₃, k₃, _⟩ => ?_
  refine Protocol.Wp.bind ((h₃.wp_loads hr (by simp) fun id hid => ?_).mono fun loads v₄ h₄ => ?_)
  · refine k₃.live hr ?_
    rw [hactive, hprevious] at hid
    exact hid
  · exact h₄.wp_leave_look fun v₅ h₅ => h₅

end Loads

section Workers

theorem Progress.layout_claimWorker (generation : Nat) (p : Progress) :
    ((p.claimWorker generation).getD p).layout = p.layout := by
  unfold Progress.claimWorker
  split <;> rfl

theorem Calm.wp_claimWorker (h : Calm env sp gs ds cs v) (generation : Nat) :
    (protocol env L alone).Wp (Sync.claimWorker generation) v fun _ v' =>
      Calm env sp gs ds cs v' :=
  h.wp_tracker (Progress.layout_claimWorker generation) fun _ _ h₁ _ => h₁

theorem Calm.wp_releaseWorker (h : Calm env sp gs ds cs v) (generation : Nat) :
    (protocol env L alone).Wp (act (.tracker (Progress.releaseWorker generation))) v fun _ v' =>
      Calm env sp gs ds cs v' :=
  wp_last (h.wp_tracker (Worker.layout_releaseWorker generation) fun _ _ h₁ _ => h₁)

theorem Calm.wp_spawnRebalance (h : Calm env sp [] ds cs v) (count : Nat) :
    (protocol env L alone).Wp (Sync.spawnRebalance count) v fun _ v' =>
      Calm env sp [] ds cs v' := by
  unfold Sync.spawnRebalance
  cases ht : strictShardCount count MAX_SHARDS with
  | error e => exact h
  | ok target =>
    refine h.wp_own fun v₁ h₁ => wp_readTracker fun p hp => ?_
    have hx := owned_exclusive (K := K) (V := V)
    have hend : ∀ w : View K V L.State, Calm env sp owned ds cs w →
        (protocol env L alone).Wp (Sync.readTracker >>= fun q : Progress =>
          Sync.claimWorker q.telemetry.generation >>= fun claimed =>
            act (.unlock .routing) >>= fun _ =>
              (pure (.ok claimed) : Prog K V (Except ShardCountError Bool))) w fun _ v' =>
                Calm env sp [] ds cs v' := by
      intro w hw
      refine wp_readTracker fun q _ => ?_
      refine Protocol.Wp.bind ((hw.wp_claimWorker _).mono fun claimed w₁ h₁ => ?_)
      exact h₁.wp_disown fun w₂ h₂ => h₂
    dsimp only
    split
    · exact h₁.wp_disown fun v₂ h₂ => h₂
    · refine wp_quiet rfl (rule_shardCount (h₁.owns hx.owns) ?_)
      split
      · exact h₁.wp_disown fun v₂ h₂ => h₂
      · split
        · next hbegin =>
          have hw := h₁.wellFormed hx.owns
          refine h₁.wp_lockDirectories (hw.settled (hp (h₁.owns hx.owns)) hbegin.1)
            fun v₂ h₂ hp₂ hc₂ => ?_
          exact h₂.wp_exchange hp₂ (strictShardCount_ok ht).1 hc₂.symm hend
        · exact hend _ h₁

end Workers

end Starshard
