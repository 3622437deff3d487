import Starshard.Locking.Maintenance

/-! The operations on entries: each takes routing on its own and releases it. -/
namespace Starshard.Locking

open Data Concurrent Discipline Scope

variable {K V : Type} {env : Env K V} {v : View} {α : Type}

section Leaving

variable {m : Mode} {Φ : α → View → Prop}

theorem leave_obeys {r : α} (hv : alone.holds v) (hΦ : ∀ T, Φ r (v.learn T)) :
    Obeys (Sync.leave env r) (v.push.lock .routing m) Φ := by
  refine obeys_leave (View.Only.builder (alone_push hv)) ?_
  refine Obeys.bind (enforceEvictionLimits_runs _ (alone_push hv) _ fun _ T _ => ?_)
  exact obeys_act rfl fun _ => obeys_pop (f := fun _ => .done r) (v := v.learn T) (hΦ T)

theorem leaveEarly_obeys {shard : Nat} {r : α} (hv : alone.holds v) (hΦ : Φ r v) :
    Obeys (Sync.leaveEarly shard r : Prog K V α)
      ((v.push.lock .routing m).lock (.shard shard) .excl) Φ :=
  obeys_release (obeys_leave (View.Only.builder (alone_push hv)) (obeys_pop (f := fun _ => .done r) hΦ))

theorem leaveRetiring_obeys {Φ : Unit → View → Prop} (hv : alone.holds v)
    (hΦ : ∀ T, Φ () (v.learn T)) :
    Obeys (Sync.leaveRetiring env : Prog K V Unit) (v.push.lock .routing m) Φ := by
  refine obeys_leave (View.Only.builder (alone_push hv)) (obeys_act rfl fun _ => ?_)
  refine Obeys.bind (enforceEvictionLimits_runs _ (alone_push hv) _ fun _ T _ => ?_)
  exact obeys_pop (f := .done) (v := v.learn T) (hΦ T)

theorem enter_shared {p : Prog K V α} (hv : alone.holds v)
    (h : ∀ T, joint.holds ((v.learn T).push.lock .routing .shared) →
      Obeys p ((v.learn T).push.lock .routing .shared) Φ) :
    Obeys (act (.push .operation) >>= fun _ => act (.lock .routing .shared) >>= fun _ => p) v Φ :=
  obeys_push rfl (obeys_shared (View.Only.builder (alone_push hv)) h)

theorem enter_exclusive {p : Prog K V α} (hv : alone.holds v)
    (h : ∀ T, sole.holds ((v.learn T).push.lock .routing .excl) →
      Obeys p ((v.learn T).push.lock .routing .excl) Φ) :
    Obeys (act (.push .operation) >>= fun _ => act (.lock .routing .excl) >>= fun _ => p) v Φ :=
  obeys_push rfl (obeys_exclusive (View.Only.builder (alone_push hv)) h)

theorem leave_seq {p : Prog K V α} {T : Topology} (hp : joint.Runs p) (hv : alone.holds v)
    (hj : joint.holds ((v.learn T).push.lock .routing .shared))
    (hΦ : ∀ x T, alone.rel v.topology T → Φ x (v.learn T)) :
    Obeys (p >>= fun r => Sync.leave env r) ((v.learn T).push.lock .routing .shared) Φ :=
  Obeys.bind (hp _ hj _ fun r T' _ => leave_obeys (v := v.learn T') hv fun T'' => hΦ r T'' trivial)

end Leaving

section Single

theorem insert_runs (k : K) (x : V) : alone.Runs (Sync.insert env k x) := fun _ hv _ hΦ =>
  enter_shared hv fun _ hj => leave_seq (insertInner_runs k x) hv hj hΦ

theorem remove_runs (k : K) : alone.Runs (Sync.remove env k : Prog K V (Option V)) :=
  fun _ hv _ hΦ => enter_shared hv fun _ hj => leave_seq (removeInner_runs k) hv hj hΦ

theorem readWith_runs {R : Type} (k : K) (read : V → R) :
    alone.Runs (Sync.readWith env k read) := fun v hv Φ hΦ => by
  refine obeys_shared hv.builder fun T hj => Obeys.bind (readInner_runs k read _ hj _ fun r T' _ => ?_)
  exact obeys_leave (f := fun _ => .done r) (v := v.learn T') hv.builder (hΦ r T' trivial)

theorem get_runs (k : K) : alone.Runs (Sync.get env k : Prog K V (Option V)) := readWith_runs k _

theorem contains_runs (k : K) : alone.Runs (Sync.contains env k : Prog K V Bool) :=
  (readWith_runs k _).seq fun _ => runs_done _

/-- An operation that decides under the lock of its key's shard. -/
theorem lockKey_runs {p : Nat → Prog K V α} (k : K)
    (hp : ∀ v shard Φ, alone.holds v → (∀ x T, Φ x (v.learn T)) →
      Obeys (p shard) ((v.push.lock .routing .shared).lock (.shard shard) .excl) Φ) :
    alone.Runs (act (.push .operation) >>= fun _ => act (.lock .routing .shared) >>= fun _ =>
      Sync.lockKey env k >>= p) := fun v hv Φ hΦ =>
  enter_shared hv fun _ hj => Obeys.bind (lockKey_obeys hj fun shard T' _ =>
    hp (v.learn T') shard Φ hv fun x T'' => hΦ x T'' trivial)

theorem getOrInsertWith_runs (k : K) (f : Unit → V) :
    alone.Runs (Sync.getOrInsertWith env k f) := by
  refine lockKey_runs k fun v shard Φ hv hΦ => ?_
  refine obeys_act rfl fun _ => obeys_act (a := .get shard k) rfl fun (current : Option V) => ?_
  refine (trackedRead_neutral k current id).seq fun found => ?_
  cases found with
  | some x => exact leaveEarly_obeys hv (hΦ _ v.topology)
  | none => exact obeys_act rfl fun _ => (insertLocked_neutral shard k _).seq fun _ =>
      obeys_release (leave_obeys hv fun T => hΦ _ T)

theorem computeIfPresent_runs (k : K) (f : V → Option V) :
    alone.Runs (Sync.computeIfPresent env k f) := by
  refine lockKey_runs k fun v shard Φ hv hΦ => ?_
  refine obeys_act rfl fun _ => obeys_act (a := .get shard k) rfl fun (current : Option V) => ?_
  refine (trackedRead_neutral k current f).seq fun found => ?_
  split
  · exact leaveEarly_obeys hv (hΦ _ v.topology)
  · exact (insertLocked_neutral shard k _).seq fun _ =>
      obeys_release (leave_obeys hv fun T => hΦ _ T)
  · exact (removeLocked_neutral shard k).seq fun _ =>
      obeys_release (leave_obeys hv fun T => hΦ _ T)

theorem compareAndSwap_runs (k : K) (expected new : V) :
    alone.Runs (Sync.compareAndSwap env k expected new) := by
  refine lockKey_runs k fun v shard Φ hv hΦ => ?_
  refine obeys_act rfl fun _ => obeys_act (a := .get shard k) rfl fun (current : Option V) => ?_
  refine (recordRead_neutral k _).seq fun _ => obeys_act rfl fun _ => ?_
  cases current with
  | none => exact obeys_release (leave_obeys hv fun T => hΦ _ T)
  | some current =>
    exact obeys_ite
      ((insertLocked_neutral shard k new).seq fun _ => obeys_release (leave_obeys hv fun T => hΦ _ T))
      (obeys_release (leave_obeys hv fun T => hΦ _ T))

theorem compareAndRemove_runs (k : K) (expected : V) :
    alone.Runs (Sync.compareAndRemove env k expected) := by
  refine lockKey_runs k fun v shard Φ hv hΦ => ?_
  refine obeys_act rfl fun _ => obeys_act (a := .get shard k) rfl fun (current : Option V) => ?_
  refine (recordRead_neutral k _).seq fun _ => obeys_act rfl fun _ => obeys_ite ?_ ?_
  · exact (removeLocked_neutral shard k).seq fun _ => obeys_release (leave_obeys hv fun T => hΦ _ T)
  · exact obeys_release (leave_obeys hv fun T => hΦ _ T)

end Single

section Batches

theorem insertStep_neutral (shard inserted : Nat) (e : K × V) : Neutral (do
    let replaced ← Sync.retireValue env (← Sync.trackedInsert shard e.1 e.2)
    return if replaced then inserted else inserted + 1 : Prog K V Nat) :=
  (trackedInsert_neutral _ _ _).bind fun _ => (retireValue_neutral _).bind fun _ => .done _

theorem removeStep_neutral (shard removed : Nat) (k : K) : Neutral (do
    let gone ← Sync.retireValue env (← Sync.trackedRemove shard k)
    return if gone then removed + 1 else removed : Prog K V Nat) :=
  (trackedRemove_neutral _ _).bind fun _ => (retireValue_neutral _).bind fun _ => .done _

theorem batchInsertBucket_runs (items : List (Nat × (K × V))) (inserted index : Nat) :
    joint.Runs (Sync.batchInsertBucket env items inserted index) := fun v hv Φ hΦ => by
  refine Obeys.bind (getOrInitShard_obeys (.inl hv.1) (fun _ => joint_directory hv)
    fun shard T hT hid => ?_)
  refine obeys_lock (joint_shard (joint.stable hv hT) hid) (obeys_act rfl fun _ => ?_)
  refine Obeys.bind (shardMutation_new shard ?_)
  refine (Neutral.foldlM (insertStep_neutral shard) (bucket items index) inserted).seq fun n => ?_
  exact Obeys.bind (shardMutation_drop shard (obeys_release (f := fun _ => .done n) (hΦ n T hT)))

theorem batchInsert_runs (entries : List (K × V)) : alone.Runs (Sync.batchInsert env entries) := by
  intro v hv Φ hΦ
  refine obeys_push rfl (obeys_act rfl fun _ => obeys_shared (View.Only.builder (alone_push hv))
    fun T hj => obeys_act (a := .previousShardCount) rfl fun (count : Nat) => obeys_ite ?_ ?_)
  · refine leave_seq (v := v) (T := T) (Runs.foldlM (fun n e _ => ?_) 0) hv hj hΦ
    exact (insertInner_runs _ _).seq fun _ => (runs_of_neutral (retireValue_neutral _)).seq
      fun _ => runs_done _
  · refine (bucketize_neutral _ _).seq fun items => (bucketOrder_neutral items).seq fun order => ?_
    exact leave_seq (v := v) (T := T)
      (Runs.foldlM (fun n index _ => batchInsertBucket_runs items n index) 0) hv hj hΦ

theorem batchRemoveBucket_runs (items : List (Nat × K)) (removed index : Nat) :
    joint.Runs (Sync.batchRemoveBucket env items removed index : Prog K V Nat) := fun v hv Φ hΦ => by
  refine Obeys.bind (activeSlots_obeys (.inl hv.1) (joint_directory hv) fun T hT => ?_)
  split
  · exact obeys_crash
  · exact hΦ removed T hT
  · rename_i shard hid
    refine obeys_lock (joint_shard (joint.stable hv hT) hid) ?_
    have hrest : ∀ found : Bool, Obeys (if found then do
          act .user
          ShardMutation.new shard
          let removed ← (bucket items index).foldlM (fun removed k => do
            let gone ← Sync.retireValue env (← Sync.trackedRemove shard k)
            return if gone then removed + 1 else removed) removed
          ShardMutation.drop shard
          act (.unlock (.shard shard))
          return removed
        else do
          act (.unlock (.shard shard))
          return removed : Prog K V Nat) ((v.learn T).lock (.shard shard) .excl) Φ := by
      intro found
      refine obeys_ite (obeys_act rfl fun _ => Obeys.bind (shardMutation_new shard ?_)) ?_
      · refine (Neutral.foldlM (removeStep_neutral shard) _ removed).seq fun n => ?_
        exact Obeys.bind (shardMutation_drop shard
          (obeys_release (f := fun _ => .done n) (hΦ n T hT)))
      · exact obeys_release (f := fun _ => .done removed) (hΦ removed T hT)
    exact obeys_ite ((containsAny_neutral shard _).seq hrest) (hrest true)

theorem batchRemove_runs (keys : List K) :
    alone.Runs (Sync.batchRemove env keys : Prog K V Nat) := by
  intro v hv Φ hΦ
  refine obeys_push rfl (obeys_act rfl fun _ => obeys_shared (View.Only.builder (alone_push hv))
    fun T hj => obeys_act (a := .previousShardCount) rfl fun (count : Nat) => obeys_ite ?_ ?_)
  · refine leave_seq (v := v) (T := T) (Runs.foldlM (fun n e _ => ?_) 0) hv hj hΦ
    exact (removeInner_runs _).seq fun _ => (runs_of_neutral (retireValue_neutral _)).seq
      fun _ => runs_done _
  · refine (bucketize_neutral _ _).seq fun items => (bucketOrder_neutral items).seq fun order => ?_
    exact leave_seq (v := v) (T := T)
      (Runs.foldlM (fun n index _ => batchRemoveBucket_runs items n index) 0) hv hj hΦ

theorem batchGetBucket_runs (items : List (Nat × (Nat × K))) (result : List (Option V))
    (index : Nat) : joint.Runs (Sync.batchGetBucket items result index) := fun v hv Φ hΦ => by
  refine Obeys.bind (activeSlots_obeys (.inl hv.1) (joint_directory hv) fun T hT => ?_)
  split
  · exact obeys_crash
  · rename_i shard hid
    refine obeys_lock (joint_shard (joint.stable hv hT) hid) ?_
    refine (Neutral.foldlM (fun result e => neutral_user ((neutral_act rfl).bind fun value =>
      (trackedRead_neutral _ _ _).bind fun r => .done _)) _ result).seq fun r => ?_
    exact obeys_release (f := fun _ => .done r) (hΦ r T hT)
  · exact (Neutral.mapM (fun e => recordRead_neutral _ _) _).seq fun _ => hΦ result T hT

theorem batchGet_runs (keys : List K) :
    alone.Runs (Sync.batchGet env keys : Prog K V (List (Option V))) := by
  intro v hv Φ hΦ
  have hend : ∀ (r : List (Option V)) T, Obeys (act (.unlock .routing) >>= fun _ => (.done r : Prog K V _))
      ((v.learn T).lock .routing .shared) Φ := fun r T =>
    obeys_leave (v := v.learn T) hv.builder (hΦ r T trivial)
  refine obeys_shared hv.builder fun T hj =>
    obeys_act (a := .previousShardCount) rfl fun (count : Nat) => obeys_ite ?_ ?_
  · refine Obeys.bind (Runs.foldlM (fun r e _ => ?_) _ _ hj _ fun r T' _ => hend r T')
    exact (readInner_runs _ _).seq fun _ => runs_done _
  · refine (bucketize_neutral _ _).seq fun items => (bucketOrder_neutral items).seq fun order => ?_
    exact Obeys.bind (Runs.foldlM (fun r index _ => batchGetBucket_runs items r index) _ _ hj _
      fun r T' _ => hend r T')

end Batches
end Starshard.Locking
