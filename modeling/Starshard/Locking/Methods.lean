import Starshard.Locking.Steps

/-! The methods that hold routing, part by part. -/
namespace Starshard.Locking

open Data Concurrent Discipline Scope

variable {K V : Type} {env : Env K V} {v : View}

section Keys

/-- The previous shard of a key is locked after its active shard. -/
theorem promotePrevious_obeys {k : K} {active : Nat} {Φ : Unit → View → Prop} (hs : v.Sharing)
    (hb : v.Below (toLex (4, 0))) (hΦ : Φ () v) :
    Obeys (Sync.promotePrevious env k active) v Φ := by
  refine Obeys.bind (previousShard_obeys (.inl hs) (.inr ⟨hs, rfl⟩) fun r hr => ?_)
  cases r with
  | none => exact hΦ
  | some shard =>
    obtain ⟨j, hj⟩ := hr shard rfl
    refine obeys_lock (.inr ⟨hs, _, .previous hj, hb.mono (Topology.first_le _ _)⟩) ?_
    refine obeys_act rfl fun _ => obeys_act (a := .get shard k) rfl fun (found : Option V) => ?_
    have hend : Obeys (act (.unlock (.shard shard)) : Prog K V Unit) (v.lock (.shard shard) .excl) Φ :=
      obeys_release (f := .done) hΦ
    exact obeys_ite ((promoteEntry_neutral _ _ _).seq fun _ => hend) hend

theorem insertInner_runs (k : K) (x : V) : joint.Runs (Sync.insertInner env k x) := by
  intro v hv Φ hΦ
  refine (shardIndex_neutral k).seq fun index => Obeys.bind
    (getOrInitShard_obeys (.inl hv.1) (fun _ => joint_directory hv) fun shard T hT hid => ?_)
  have hv' := joint.stable hv hT
  refine obeys_lock (joint_shard hv' hid) ?_
  obtain ⟨hs, hb⟩ := joint_lock (m := .excl) hv' hid
  refine Obeys.bind (promotePrevious_obeys hs hb (obeys_act rfl fun _ => ?_))
  refine Obeys.bind (shardMutation_new shard ((trackedInsert_neutral shard k x).seq fun old => ?_))
  exact Obeys.bind (shardMutation_drop shard (obeys_release (f := fun _ => .done old) (hΦ old T hT)))

theorem readPrevious_obeys {R : Type} {k : K} {read : V → R} {Φ : Option R → View → Prop}
    (hs : v.Sharing) (hb : v.Below (toLex (4, 0))) (hΦ : ∀ r, Φ r v) :
    Obeys (Sync.readPrevious env k read) v Φ := by
  refine Obeys.bind (previousShard_obeys (.inl hs) (.inr ⟨hs, rfl⟩) fun r hr => ?_)
  cases r with
  | none => exact (trackedRead_neutral k none read).obeys hΦ
  | some shard =>
    obtain ⟨j, hj⟩ := hr shard rfl
    refine obeys_lock (.inr ⟨hs, _, .previous hj, hb.mono (Topology.first_le _ _)⟩) ?_
    refine obeys_act rfl fun _ => obeys_act (a := .get shard k) rfl fun (value : Option V) => ?_
    exact (trackedRead_neutral k value read).seq fun r =>
      obeys_release (f := fun _ => .done r) (hΦ r)

theorem readInner_runs {R : Type} (k : K) (read : V → R) :
    joint.Runs (Sync.readInner env k read) := by
  intro v hv Φ hΦ
  refine obeys_lock (joint_directory hv) ((shardIndex_neutral k).seq fun index =>
    obeys_shards (.inl hv.1.lock) fun T hT => ?_)
  rw [View.lock_learn]
  have hv' := joint.stable hv hT
  split
  · exact obeys_crash
  · rename_i shard hid
    refine obeys_release (obeys_lock (joint_shard hv' hid) ?_)
    obtain ⟨hs, hb⟩ := joint_lock (m := .shared) hv' hid
    refine obeys_act rfl fun _ => obeys_act (a := .get shard k) rfl fun (value : Option V) => ?_
    cases value with
    | some x => exact (trackedRead_neutral k (some x) read).seq fun r =>
        obeys_release (f := fun _ => .done r) (hΦ r T hT)
    | none => exact Obeys.bind (readPrevious_obeys hs hb fun r =>
        obeys_release (f := fun _ => .done r) (hΦ r T hT))
  · -- the directory stays locked here, below the previous shard
    have hb : ((v.learn T).lock .active .shared).Below (toLex (4, 0)) :=
      hv'.2.lock .directory (Topology.kind_lt (by decide) _ _)
    exact Obeys.bind (readPrevious_obeys hv'.1.lock hb fun r =>
      obeys_release (f := fun _ => .done r) (hΦ r T hT))

theorem removeFrom_obeys {shard i : Nat} {k : K} {Φ : Option V → View → Prop}
    (hv : joint.holds v) (hid : v.topology.shards[i]? = some (some shard)) (hΦ : ∀ r, Φ r v) :
    Obeys (Sync.removeFrom env shard k) v Φ := by
  refine obeys_lock (joint_shard hv hid) ?_
  obtain ⟨hs, hb⟩ := joint_lock (m := .excl) hv hid
  refine Obeys.bind (promotePrevious_obeys hs hb (obeys_act rfl fun _ => ?_))
  refine obeys_act (a := .get shard k) rfl fun (found : Option V) => obeys_ite ?_ ?_
  · exact obeys_release (f := fun _ => .done none) (hΦ none)
  · refine obeys_act rfl fun _ => Obeys.bind (shardMutation_new shard
      ((trackedRemove_neutral shard k).seq fun old => ?_))
    exact Obeys.bind (shardMutation_drop shard (obeys_release (f := fun _ => .done old) (hΦ old)))

theorem removeInner_runs (k : K) : joint.Runs (Sync.removeInner env k : Prog K V (Option V)) := by
  intro v hv Φ hΦ
  refine obeys_lock (joint_directory hv) ((shardIndex_neutral k).seq fun index =>
    obeys_shards (.inl hv.1.lock) fun T hT => ?_)
  rw [View.lock_learn]
  have hv' := joint.stable hv hT
  split
  · exact obeys_crash
  · rename_i shard hid
    exact obeys_release (removeFrom_obeys hv' hid fun r => hΦ r T hT)
  · refine obeys_act (a := .previousShardCount) rfl fun (count : Nat) => obeys_release ?_
    refine obeys_ite (hΦ none T hT) ((shardIndex_neutral k).seq fun index => Obeys.bind ?_)
    refine getOrInitShard_obeys (.inl hv'.1) (fun _ => joint_directory hv') fun shard T' hT' hid => ?_
    exact removeFrom_obeys (joint.stable hv' hT') hid fun r => hΦ r T' (hT.trans hT')

theorem lockKey_obeys {k : K} {Φ : Nat → View → Prop} (hv : joint.holds v)
    (hΦ : ∀ shard T, v.topology.Grows T → Φ shard ((v.learn T).lock (.shard shard) .excl)) :
    Obeys (Sync.lockKey env k) v Φ := by
  refine (shardIndex_neutral k).seq fun index => Obeys.bind
    (getOrInitShard_obeys (.inl hv.1) (fun _ => joint_directory hv) fun shard T hT hid => ?_)
  have hv' := joint.stable hv hT
  refine obeys_lock (joint_shard hv' hid) ?_
  obtain ⟨hs, hb⟩ := joint_lock (m := .excl) hv' hid
  exact Obeys.bind (promotePrevious_obeys hs hb (hΦ shard T hT))

end Keys
end Starshard.Locking
