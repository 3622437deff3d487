import Starshard.Locking.Scopes
import Starshard.Sync.Snapshot

/-! Steps that take no lock, and the lookups in the directories. -/
namespace Starshard.Locking

open Data Concurrent Discipline

variable {K V : Type} {env : Env K V} {v : View}

section Neutral

theorem neutral_user {α : Type} {f : Unit → Prog K V α} (h : Neutral (f ())) :
    Neutral (act .user >>= f) := (neutral_act rfl).bind fun _ => h

theorem shardIndex_neutral (k : K) : Neutral (shardIndex env k) := by
  refine neutral_user ((neutral_act (a := .shardCount) rfl).bind fun (count : Nat) => ?_)
  exact Neutral.ite neutral_crash (.done _)

theorem promoteEntry_neutral (active previous : Nat) (k : K) :
    Neutral (promoteEntry active previous k : Prog K V Unit) :=
  neutral_user ((neutral_act rfl).bind fun _ => neutral_act rfl)

theorem shardMutation_insert_neutral (id : Nat) (k : K) (x : V) :
    Neutral (ShardMutation.insert id k x) :=
  (neutral_act rfl).bind fun _ => (neutral_act rfl).bind fun _ => neutral_user (.done _)

theorem shardMutation_remove_neutral (id : Nat) (k : K) :
    Neutral (ShardMutation.remove id k : Prog K V (Option V)) :=
  neutral_user ((neutral_act rfl).bind fun _ => neutral_user (.done _))

theorem recordRead_neutral (k : K) (hit : Bool) :
    Neutral (LifecycleState.recordRead k hit : Prog K V Unit) := by
  refine (neutral_act rfl).bind fun _ => Neutral.ite ?_ (neutral_act rfl)
  exact (neutral_act rfl).bind fun _ => neutral_act rfl

theorem recordRemove_neutral (k : K) :
    Neutral (LifecycleState.recordRemove k : Prog K V Unit) :=
  (neutral_act rfl).bind fun _ => neutral_act rfl

theorem recordInsert_neutral (k : K) (weight : Nat) (replaced : Bool) :
    Neutral (LifecycleState.recordInsert k weight replaced : Prog K V Unit) :=
  (neutral_act rfl).bind fun _ => neutral_act rfl

theorem recordEviction_neutral (candidate : EvictionCandidate K) :
    Neutral (LifecycleState.recordEviction candidate : Prog K V Unit) :=
  (neutral_act rfl).bind fun _ => neutral_act rfl

theorem trackedInsert_neutral (shard : Nat) (k : K) (x : V) :
    Neutral (Sync.trackedInsert shard k x) := by
  intro v Φ hΦ
  refine Obeys.bind (obeys_act rfl fun _ => obeys_push (f := .done) rfl ?_)
  refine Obeys.bind (obeys_act rfl fun weight => obeys_push rfl ?_)
  refine (shardMutation_insert_neutral shard k x).seq fun old => ?_
  refine Obeys.bind (obeys_pop ((recordInsert_neutral k weight _).obeys fun _ => ?_))
  exact obeys_pop (hΦ old)

theorem trackedRemove_neutral (shard : Nat) (k : K) :
    Neutral (Sync.trackedRemove shard k : Prog K V (Option V)) := by
  intro v Φ hΦ
  refine Obeys.bind (obeys_act rfl fun _ => obeys_push (f := .done) rfl ?_)
  refine (shardMutation_remove_neutral shard k).seq fun old => ?_
  have hrest : Obeys (LifecycleState.finish >>= fun _ => (Program.done old : Prog K V _)) v.push Φ :=
    obeys_pop (hΦ old)
  split
  · exact (recordRemove_neutral k).seq fun _ => hrest
  · exact hrest

theorem trackedRead_neutral {R : Type} (k : K) (value : Option V) (read : V → R) :
    Neutral (Sync.trackedRead k value read) :=
  (recordRead_neutral k _).bind fun _ => neutral_user (.done _)

theorem retireValue_neutral (value : Option V) : Neutral (Sync.retireValue env value) := by
  unfold Sync.retireValue
  split
  · exact neutral_user (.done _)
  · exact .done _

theorem shardMutation_new {Φ : Unit → View → Prop} (id : Nat) (h : Φ () v.push) :
    Obeys (ShardMutation.new id : Prog K V Unit) v Φ :=
  obeys_act rfl fun _ => obeys_push (f := .done) rfl h

theorem shardMutation_drop {Φ : Unit → View → Prop} (id : Nat) (h : Φ () v) :
    Obeys (ShardMutation.drop id : Prog K V Unit) v.push Φ := by
  have hpop : Obeys (act .pop : Prog K V Unit) v.push Φ := obeys_pop (f := .done) h
  refine obeys_act rfl fun (o : Nat × Bool) => obeys_act rfl fun (m : Nat) => ?_
  refine obeys_ite (obeys_act rfl fun _ => ?_) (obeys_ite (obeys_act rfl fun _ => ?_) ?_)
  · exact obeys_ite (obeys_act rfl fun _ => hpop) hpop
  · exact obeys_ite (obeys_act rfl fun _ => hpop) hpop
  · exact obeys_ite (obeys_act rfl fun _ => hpop) hpop

theorem insertLocked_neutral (shard : Nat) (k : K) (x : V) :
    Neutral (Sync.insertLocked env shard k x) := fun _ _ hΦ =>
  obeys_act rfl fun _ => Obeys.bind (shardMutation_new shard
    ((trackedInsert_neutral shard k x).seq fun old => (retireValue_neutral old).seq fun _ =>
      shardMutation_drop shard (hΦ ())))

theorem removeLocked_neutral (shard : Nat) (k : K) :
    Neutral (Sync.removeLocked env shard k : Prog K V Unit) := fun _ _ hΦ =>
  obeys_act rfl fun _ => Obeys.bind (shardMutation_new shard
    ((trackedRemove_neutral shard k).seq fun old => (retireValue_neutral old).seq fun _ =>
      shardMutation_drop shard (hΦ ())))

theorem bucketize_neutral {α : Type} (key : α → K) (xs : List α) :
    Neutral (bucketize env key xs : Prog K V _) := by
  induction xs with
  | nil => exact .done []
  | cons x xs ih => exact (shardIndex_neutral _).bind fun _ => ih.bind fun _ => .done _

theorem bucketOrder_neutral {α : Type} (items : List (Nat × α)) :
    Neutral (bucketOrder items : Prog K V _) := neutral_act rfl

theorem recordRemoval_neutral : Neutral (Sync.recordRemoval : Prog K V Unit) :=
  (neutral_act rfl).bind fun _ => neutral_act rfl

theorem evictFrom_neutral (shard : Nat) (candidate : EvictionCandidate K) :
    Neutral (Sync.evictFrom shard candidate : Prog K V (Option V)) := by
  refine neutral_user ((neutral_act (a := .take shard candidate.key) rfl).bind
    fun (removed : Option V) => ?_)
  cases removed with
  | none => exact .done _
  | some v => exact recordRemoval_neutral.bind fun _ =>
      (recordEviction_neutral candidate).bind fun _ => (neutral_act rfl).bind fun _ => .done _

theorem trimShard_neutral (shard limit : Nat) (candidates : List (EvictionCandidate K))
    (evicted : List (K × V)) : Neutral (Sync.trimShard shard limit candidates evicted) := by
  induction candidates generalizing evicted with
  | nil => exact .done _
  | cons candidate candidates ih =>
    refine (neutral_act (a := .len shard) rfl).bind fun (n : Nat) => .ite (.done _) ?_
    refine (neutral_act (a := .life (.validate candidate)) rfl).bind fun (valid : Bool) =>
      .ite ((evictFrom_neutral shard candidate).bind fun removed => ?_) (ih _)
    cases removed with
    | none => exact ih _
    | some v => exact ih _

theorem overCount_neutral (target : Option Nat) : Neutral (Sync.overCount target : Prog K V Bool) := by
  cases target with
  | none => exact .done _
  | some target => exact (neutral_act rfl).bind fun _ => .done _

theorem oneOver_neutral (target : Option Nat) : Neutral (Sync.oneOver target : Prog K V Bool) := by
  cases target with
  | none => exact .done _
  | some target => exact (neutral_act rfl).bind fun _ => .done _

theorem selectCandidates_neutral (config : EvictionConfig) (policy : CapacityPolicy)
    (target : Option Nat) (overEntries overWeight : Bool) :
    Neutral (Sync.selectCandidates config policy target overEntries overWeight : Prog K V _) := by
  refine .ite ((oneOver_neutral target).bind fun one => ?_) (.done _)
  exact .ite (neutral_act rfl) (neutral_act rfl)

theorem withinLimits_neutral (config : EvictionConfig) (target : Option Nat) :
    Neutral (Sync.withinLimits config target : Prog K V Bool) := by
  refine (neutral_act (a := .life .dirty) rfl).bind fun (dirty : Bool) => .ite (.done _) ?_
  refine (overCount_neutral target).bind fun exceeds => .ite (.done _) ?_
  exact (neutral_act rfl).bind fun _ => .done _

theorem containsAny_neutral (shard : Nat) (keys : List K) :
    Neutral (Sync.containsAny shard keys : Prog K V Bool) := by
  induction keys with
  | nil => exact .done _
  | cons k keys ih =>
    refine neutral_user ((neutral_act (a := .get shard k) rfl).bind fun (found : Option V) => ?_)
    exact .ite (.done _) ih

theorem recordDrained_neutral (count : Nat) : Neutral (Sync.recordDrained count : Prog K V Unit) :=
  .ite ((neutral_act rfl).bind fun _ => neutral_act rfl) (.done _)

theorem transactionIndices_neutral (previousCount : Nat) (ops : List (TxnOp K V)) :
    Neutral (Sync.transactionIndices env previousCount ops) := by
  induction ops with
  | nil => exact .done _
  | cons op ops ih =>
    refine (shardIndex_neutral _).bind fun active => ih.bind fun rest => ?_
    exact .ite (.done _) (.done _)

theorem promoteLocked_neutral (previousCount : Nat) (previous : List (Nat × Nat)) (active : Nat)
    (k : K) : Neutral (Sync.promoteLocked env previousCount previous active k) := by
  refine .ite (neutral_user ?_) (.done _)
  split
  · exact .done _
  · exact (neutral_act (a := .get _ k) rfl).bind fun (found : Option V) =>
      .ite (promoteEntry_neutral _ _ _) (.done _)

theorem transactionOp_neutral (active : Nat) (op : TxnOp K V) :
    Neutral (Sync.transactionOp env active op) := by
  cases op with
  | read k => exact neutral_user ((neutral_act (a := .get active k) rfl).bind
      fun (found : Option V) => recordRead_neutral _ _)
  | write k x => exact insertLocked_neutral _ _ _
  | remove k => exact neutral_user ((neutral_act (a := .get active k) rfl).bind
      fun (found : Option V) => .ite (.done _) (removeLocked_neutral _ _))

theorem executeOps_neutral (previousCount : Nat) (indices guards : List Nat)
    (previous : List (Nat × Nat)) (ops : List (TxnOp K V)) :
    Neutral (Sync.executeOps env previousCount indices guards previous ops) := by
  induction ops with
  | nil => exact .done _
  | cons op ops ih =>
    refine (shardIndex_neutral _).bind fun index => ?_
    split
    · exact neutral_crash
    · exact (promoteLocked_neutral _ _ _ _).bind fun _ => (transactionOp_neutral _ _).bind fun _ => ih

end Neutral

section Directories

variable {α : Type}

theorem mayLock_learn {T : Topology} {l : LockId} {m : Mode} (h : v.MayLock l m)
    (hT : v.topology.Grows T) : (v.learn T).MayLock l m := by
  cases l with
  | active | shard =>
    rcases h with h | ⟨hs, r, hr, hb⟩
    · exact .inl h
    · exact .inr ⟨hs, r, hr.grows hT, hb.learn hT⟩
  | _ => exact h

theorem activeSlots_obeys {Φ : Slots → View → Prop} (hs : v.Sharing ∨ v.Excluding)
    (hm : v.MayLock .active .shared)
    (hΦ : ∀ T, v.topology.Grows T → Φ T.shards (v.learn T)) :
    Obeys (activeSlots : Prog K V Slots) v Φ := by
  refine obeys_lock hm (obeys_shards (hs.imp .lock .lock) fun T hT => ?_)
  rw [View.lock_learn]
  exact obeys_release (f := fun _ => .done T.shards) (hΦ T hT)

theorem previousSlots_obeys {Φ : Option Slots → View → Prop} (hs : v.Sharing ∨ v.Excluding)
    (hm : v.MayLock .previous .shared) (hΦ : Φ v.topology.previous v) :
    Obeys (previousSlots : Prog K V (Option Slots)) v Φ :=
  obeys_lock hm (obeys_previous (hs.imp .lock .lock)
    (obeys_release (f := fun _ => .done v.topology.previous) hΦ))

theorem getOrInitShard_obeys {index : Nat} {Φ : Nat → View → Prop}
    (hs : v.Sharing ∨ v.Excluding) (hm : ∀ m, v.MayLock .active m)
    (hΦ : ∀ id T, v.topology.Grows T → T.shards[index]? = some (some id) → Φ id (v.learn T)) :
    Obeys (getOrInitShard index : Prog K V Nat) v Φ := by
  refine obeys_lock (hm .shared) (obeys_shards (hs.imp .lock .lock) fun T hT => ?_)
  rw [View.lock_learn]
  split
  · exact obeys_crash
  · exact obeys_release (f := fun _ => .done _) (hΦ _ T hT ‹_›)
  · refine obeys_release ?_
    refine obeys_lock (mayLock_learn (hm .excl) hT) (obeys_initSlot
      (hs.imp .lock .lock) fun id T' hT' hid => ?_)
    exact obeys_release (v := v.learn T') (f := fun _ => .done id) (hΦ id T' (hT.trans hT') hid)

theorem previousShard_obeys {k : K} {Φ : Option Nat → View → Prop}
    (hs : v.Sharing ∨ v.Excluding) (hm : v.MayLock .previous .shared)
    (hΦ : ∀ r, (∀ id, r = some id → ∃ j, slotAt v.topology.previous j = some id) → Φ r v) :
    Obeys (Sync.previousShard env k : Prog K V (Option Nat)) v Φ := by
  refine obeys_act rfl fun (count : Nat) => obeys_ite (hΦ none nofun) (obeys_act rfl fun _ => ?_)
  refine Obeys.bind (previousSlots_obeys hs hm ?_)
  cases hp : v.topology.previous with
  | none => exact hΦ none nofun
  | some slots =>
    dsimp only
    split
    · exact obeys_crash
    · rename_i shard hshard
      exact hΦ shard fun id hid =>
        ⟨env.hash k % count, slotAt_eq_some.mpr ⟨slots, hp, by rw [hshard, hid]⟩⟩

end Directories
end Starshard.Locking
