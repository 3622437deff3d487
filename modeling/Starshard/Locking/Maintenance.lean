import Starshard.Locking.Methods

/-! Capacity maintenance: one shard at a time under shared routing, or both
generations under exclusive routing. -/
namespace Starshard.Locking

open Data Concurrent Discipline Scope

variable {K V : Type} {env : Env K V} {v : View}

section Exclusive

theorem allShards_runs : sole.Runs (Sync.allShards : Prog K V (List Nat)) := fun _ hv _ hΦ =>
  Obeys.bind (activeSlots_obeys (.inr hv.1) (sole_mayLock hv rfl) fun T _ =>
    Obeys.bind (previousSlots_obeys (.inr hv.1) (sole_mayLock hv rfl) (hΦ _ T trivial)))

theorem weighShard_runs (shard : Nat) : sole.Runs (Sync.weighShard shard : Prog K V _) :=
  fun v hv Φ hΦ => by
    refine obeys_lock (sole_mayLock hv rfl) (obeys_act (a := .entries shard) rfl
      fun (entries : List (K × V)) => ?_)
    have hweigh : ∀ e : K × V, Neutral (do
        let weight : Nat ← act (.life (.weight e.1 e.2))
        act .user
        return (e.1, weight) : Prog K V (K × Nat)) := fun e =>
      (neutral_act rfl).bind fun _ => neutral_user (.done _)
    refine (Neutral.mapM hweigh entries).seq fun weighed => ?_
    exact obeys_release (f := fun _ => .done weighed) (hΦ weighed v.topology trivial)

theorem countShard_runs (counts : Nat → Nat) (shard : Nat) :
    sole.Runs (Sync.countShard env counts shard) := fun v hv Φ hΦ => by
  refine obeys_lock (sole_mayLock hv rfl) (obeys_act (a := .entries shard) rfl
    fun (entries : List (K × V)) => ?_)
  refine Neutral.seq (Neutral.foldlM (fun counts e => (shardIndex_neutral _).bind fun index =>
    .done _) entries counts) fun counts' => ?_
  exact obeys_release (f := fun _ => .done counts') (hΦ counts' v.topology trivial)

theorem reconcile_runs : sole.Runs (Sync.reconcileEvictionMetadata : Prog K V Unit) := by
  refine (runs_act (a := .life .dirty) rfl).seq fun (dirty : Bool) => .ite ?_ (runs_done _)
  intro v hv Φ hΦ
  refine Obeys.bind (obeys_act rfl fun _ => obeys_push (f := .done) rfl ?_)
  refine Obeys.bind (allShards_runs v.push (sole_push hv) _ fun shards T hT => ?_)
  refine Obeys.bind (Runs.mapM (fun shard _ => weighShard_runs shard) _
    (sole.stable (sole_push hv) hT) _ fun weighed T' hT' => ?_)
  exact obeys_act rfl fun _ => obeys_pop (f := .done) (v := v.learn T') (hΦ () T' trivial)

theorem countShards_runs (config : EvictionConfig) : sole.Runs (Sync.countShards env config) :=
  .ite (allShards_runs.seq fun _ => Runs.foldlM (fun counts shard _ => countShard_runs counts shard) _)
    (runs_done _)

theorem sweepShards_runs (config : EvictionConfig) (index : Nat)
    (candidate : EvictionCandidate K) (shards : List Nat) (state : Sync.Sweep K V) :
    sole.Runs (Sync.sweepShards config index candidate shards state) := by
  induction shards generalizing state with
  | nil => exact runs_done _
  | cons shard shards ih =>
    intro v hv Φ hΦ
    refine obeys_lock (sole_mayLock hv rfl) (obeys_act rfl fun _ =>
      obeys_act (a := .get shard candidate.key) rfl fun (found : Option V) => ?_)
    cases found with
    | none => exact obeys_release (ih state v hv Φ hΦ)
    | some x =>
      refine (evictFrom_neutral shard candidate).seq fun removed => ?_
      cases removed with
      | none => exact obeys_release (ih state v hv Φ hΦ)
      | some x =>
        exact obeys_ite
          (obeys_act rfl fun _ => obeys_release (f := fun _ => .done _) (hΦ _ v.topology trivial))
          (obeys_release (f := fun _ => .done _) (hΦ _ v.topology trivial))

theorem previousShard_runs (k : K) : sole.Runs (Sync.previousShard env k : Prog K V _) :=
  fun v hv _ hΦ => previousShard_obeys (.inr hv.1) (sole_mayLock hv rfl) fun r _ =>
    hΦ r v.topology trivial

theorem activeSlots_runs : sole.Runs (activeSlots : Prog K V Slots) := fun _ hv _ hΦ =>
  activeSlots_obeys (.inr hv.1) (sole_mayLock hv rfl) fun T _ => hΦ _ T trivial

theorem sweep_runs (config : EvictionConfig) (target : Option Nat)
    (candidates : List (EvictionCandidate K)) (state : Sync.Sweep K V) :
    sole.Runs (Sync.sweep env config target candidates state) := by
  induction candidates generalizing state with
  | nil => exact runs_done _
  | cons candidate candidates ih =>
    refine (runs_of_neutral (overCount_neutral target)).seq fun exceeds => .ite (runs_done _) ?_
    refine (runs_of_neutral (shardIndex_neutral _)).seq fun index => .ite (ih state) ?_
    refine (runs_act (a := .life (.validate candidate)) rfl).seq fun (valid : Bool) =>
      .ite (activeSlots_runs.seq fun slots => ?_) (ih state)
    split
    · exact runs_crash
    · exact (previousShard_runs _).seq fun previous =>
        (sweepShards_runs config index candidate _ state).seq fun state => ih state

theorem evictGlobal_runs (config : EvictionConfig) (policy : CapacityPolicy)
    (target : Option Nat) (evicted : List (K × V)) :
    alone.Runs (Sync.evictGlobal env config policy target evicted) := by
  intro v hv Φ hΦ
  refine obeys_exclusive hv.builder fun T hs => ?_
  refine Obeys.bind (obeys_act rfl fun _ => obeys_push (f := .done) rfl ?_)
  refine Obeys.bind (reconcile_runs _ (sole_push hs) _ fun _ T₁ _ => obeys_act rfl fun observed => ?_)
  have h₁ := sole.stable (T := T₁) (sole_push hs) trivial
  refine Obeys.bind (countShards_runs config _ h₁ _ fun counts T₂ _ =>
    obeys_act (a := .life .overMemoryBudget) rfl fun (overWeight : Bool) => ?_)
  have h₂ := sole.stable (T := T₂) h₁ trivial
  refine (overCount_neutral target).seq fun overEntries =>
    (selectCandidates_neutral _ _ _ _ _).seq fun candidates => ?_
  refine Obeys.bind (sweep_runs config target _ _ _ h₂ _ fun evicted T₃ _ => ?_)
  exact obeys_pop (v := (v.learn T₃).lock .routing .excl) (obeys_act rfl fun _ =>
    obeys_leave (f := fun _ => .done evicted) hv.builder (hΦ evicted T₃ trivial))

end Exclusive

section Shared

theorem limitShard_obeys {policy : CapacityPolicy} {limit : Nat} {state : List (K × V) × Bool}
    {shard i : Nat} {Φ : List (K × V) × Bool → View → Prop} (hv : joint.holds v)
    (hid : v.topology.shards[i]? = some (some shard)) (hΦ : ∀ r, Φ r v) :
    Obeys (Sync.limitShard policy limit state shard) v Φ := by
  refine obeys_lock (joint_shard hv hid) (obeys_act (a := .len shard) rfl fun (n : Nat) =>
    obeys_release (obeys_ite (hΦ _) ?_))
  refine obeys_lock (joint_shard hv hid) (obeys_act (a := .entries shard) rfl
    fun (entries : List (K × V)) => obeys_act (a := .life (.candidatesForKeys policy _)) rfl
    fun (candidates : List (EvictionCandidate K)) => ?_)
  refine (trimShard_neutral _ _ _ _).seq fun evicted => obeys_act (a := .len shard) rfl
    fun (n : Nat) => ?_
  exact obeys_release (f := fun _ => .done _) (hΦ _)

theorem evictStable_runs (policy : CapacityPolicy) (limit : Nat) :
    alone.Runs (Sync.evictStable policy limit : Prog K V _) := by
  intro v hv Φ hΦ
  refine obeys_shared hv.builder fun T hj => ?_
  refine obeys_act (a := .previousShardCount) rfl fun (count : Nat) =>
    obeys_act (a := .life .dirty) rfl fun (dirty : Bool) => obeys_ite ?_ ?_
  · refine Obeys.bind (obeys_act rfl fun _ => obeys_push (f := .done) rfl ?_)
    refine obeys_act (a := .life .maintenanceGeneration) rfl fun (observed : Nat) => ?_
    refine Obeys.bind (activeSlots_obeys (.inl (joint_push hj).1)
      (joint_directory (joint_push hj)) fun T' hT' => ?_)
    have hj' := joint.stable (joint_push hj) hT'
    refine Obeys.seq (Obeys.foldlM (I := fun _ w => w = ((v.learn T').lock .routing .shared).push)
      (fun state shard w hs hw => ?_) rfl) fun result w hw => ?_
    · obtain ⟨i, hi⟩ := mem_allocatedShards.mp hs
      subst hw
      exact limitShard_obeys hj' hi fun _ => rfl
    · subst hw
      refine obeys_pop (obeys_act (a := .life .dirty) rfl fun (dirty : Bool) => obeys_ite ?_ ?_)
      · exact obeys_act rfl fun _ => obeys_leave (f := fun _ => .done _) (v := v.learn T')
          hv.builder (hΦ _ T' trivial)
      · exact obeys_leave (f := fun _ => .done _) (v := v.learn T') hv.builder (hΦ _ T' trivial)
  · exact obeys_leave (f := fun _ => .done _) (v := v.learn T) hv.builder (hΦ _ T trivial)

end Shared

theorem alone_push (h : alone.holds v) : alone.holds v.push := View.only_push.mpr h

theorem dispatch_obeys {started : Nat} {evicted : List (K × V)} {Φ : Nat → View → Prop}
    (hΦ : ∀ n, Φ n v) : Obeys (Sync.dispatch started evicted) v.push Φ :=
  obeys_act rfl fun _ => obeys_pop (obeys_act rfl fun _ => obeys_act rfl fun _ => hΦ _)

theorem runEviction_runs (requested : Option Nat) (policy : Option CapacityPolicy) :
    alone.Runs (Sync.runEviction env requested policy) := by
  intro v hv Φ hΦ
  unfold Sync.runEviction
  split
  · exact hΦ 0 v.topology trivial
  · rename_i config _
    refine obeys_act (a := .clock) rfl fun (started : Nat) =>
      obeys_act (a := .life .maintenanceGeneration) rfl fun (observed : Nat) => ?_
    refine (withinLimits_neutral config _).seq fun within => obeys_ite ?_ ?_
    · exact obeys_act rfl fun _ => obeys_act rfl fun _ => hΦ 0 v.topology trivial
    · refine obeys_push rfl (obeys_act (a := .life .dirty) rfl fun (dirty : Bool) => ?_)
      have hglobal : ∀ (w : View) (T : Topology) policy target evicted, w = (v.learn T).push →
          Obeys (Sync.evictGlobal env config policy target evicted >>=
            fun evicted => Sync.dispatch started evicted) w Φ := by
        rintro _ T policy target evicted rfl
        exact Obeys.bind (evictGlobal_runs config policy target evicted _ (alone_push (v := v.learn T) hv)
          _ fun r T' _ => dispatch_obeys (v := v.learn T') fun n => hΦ n T' trivial)
      split
      · refine Obeys.bind (evictStable_runs _ _ _ (alone_push hv) _ fun r T _ => ?_)
        refine obeys_ite (dispatch_obeys (v := v.learn T) fun n => hΦ n T trivial) ?_
        exact hglobal _ T _ _ _ rfl
      · exact hglobal _ v.topology _ _ _ rfl

theorem enforceEvictionLimits_runs : alone.Runs (Sync.enforceEvictionLimits env : Prog K V Unit) :=
  (runEviction_runs none none).seq fun _ => runs_done _

end Starshard.Locking
