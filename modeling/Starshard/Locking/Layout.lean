import Starshard.Locking.Capture
import Starshard.Sync.Operations

/-! Operations that own routing exclusively: bulk removal and changes of the layout. -/
namespace Starshard.Locking

open Data Concurrent Discipline Scope

variable {K V : Type} {env : Env K V} {v : View}

section Directories

variable {α : Type} {Φ : α → View → Prop}

theorem obeys_setPrevious {slots : Option Slots} {f : Option Slots → Prog K V α} (T : Topology)
    (h : v.Excluding) (hs : T.shards = v.topology.shards) (hp : T.previous = slots)
    (hn : T.next = v.topology.next)
    (hf : Obeys (f v.topology.previous) (v.learn T) Φ) :
    Obeys (act (.setPrevious slots) >>= f) v Φ :=
  ⟨⟨h, T, hs, hp, hn⟩, fun _ _ ⟨hr, T', hs', hp', hn', hv⟩ => by
    obtain rfl : T' = T := Topology.ext (hs'.trans hs.symm) (hp'.trans hp.symm) (hn'.trans hn.symm)
    subst hr hv
    exact hf⟩

theorem obeys_install {maps : List (Option (Assoc K V))} {f : Slots → Prog K V α}
    (h : v.Excluding) (hf : ∀ T : Topology, T.shards = allocate v.topology.next maps →
      v.topology.next ≤ T.next → Obeys (f v.topology.shards) (v.learn T) Φ) :
    Obeys (act (.install maps) >>= f) v Φ :=
  ⟨h, fun _ _ ⟨hr, T, hs, _, hn, hv⟩ => by
    subst hr hv
    exact hf T hs hn⟩

/-- The active generation of `T` set aside below the cold one of `T'`. -/
def setAside (T T' : Topology) (hcold : allocatedShards T'.shards = []) (hn : T.next ≤ T'.next) :
    Topology where
  shards := T'.shards
  previous := some T.shards
  next := T'.next
  distinct := by
    rw [hcold, Option.getD_some, List.nil_append]
    exact T.distinct.of_append_left
  bound id hid := by
    rw [hcold, Option.getD_some, List.nil_append] at hid
    exact (T.bound id (List.mem_append_left _ hid)).trans_le hn

/-- A layout without a previous generation. -/
def withoutPrevious (T : Topology) : Topology where
  shards := T.shards
  previous := none
  next := T.next
  distinct := by
    rw [Option.getD_none, allocatedShards, allocatedShards, List.filterMap_nil, List.append_nil]
    exact T.distinct.of_append_left
  bound id hid := by
    rw [Option.getD_none, allocatedShards, allocatedShards, List.filterMap_nil,
      List.append_nil] at hid
    exact T.bound id (List.mem_append_left _ hid)

/-- A layout in which a source slot of the previous generation was retired. -/
def retired (T : Topology) (index : Nat) : Topology where
  shards := T.shards
  previous := T.previous.map fun slots => slots.set index none
  next := T.next
  distinct := T.distinct.sublist ((List.Sublist.refl _).append (allocated_retired T.previous index))
  bound id hid := T.bound id
    (((List.Sublist.refl _).append (allocated_retired T.previous index)).subset hid)
where
  allocated_retired (previous : Option Slots) (index : Nat) :
      (allocatedShards ((previous.map fun slots => slots.set index none).getD [])).Sublist
        (allocatedShards (previous.getD [])) := by
    cases previous with
    | none => exact .refl _
    | some slots =>
      induction slots generalizing index with
      | nil => exact .refl _
      | cons slot slots ih =>
        cases index with
        | zero =>
          cases slot with
          | none => exact .refl _
          | some id => exact List.sublist_cons_self ..
        | succ index =>
          cases slot with
          | none => exact ih index
          | some id => exact (ih index).cons_cons id

theorem allocate_cold (next count : Nat) :
    allocatedShards (allocate next (List.replicate count (none : Option (Assoc K V)))) = [] := by
  induction count generalizing next with
  | zero => rfl
  | succ count ih => exact ih (next + 1)

end Directories

section Removal

theorem retainShard_runs (predicate : K → V → Bool) (shard : Nat) :
    sole.Runs (Sync.retainShard env predicate shard) := fun v hv Φ hΦ => by
  refine obeys_lock (sole_mayLock hv rfl) ?_
  refine Obeys.bind (obeys_act rfl fun _ => obeys_push (f := .done) rfl ?_)
  refine obeys_act rfl fun _ => obeys_act (a := .entries shard) rfl
    fun (entries : List (K × V)) => ?_
  have hentry : ∀ e : K × V, Neutral (do
      act .user
      if !predicate e.1 e.2 then
        let _ ← act (.take shard e.1)
        Sync.recordRemoval
        LifecycleState.recordRemove e.1
        if env.eviction.isNone then
          act .user : Prog K V Unit) := fun e =>
    neutral_user (.ite ((neutral_act rfl).bind fun _ => recordRemoval_neutral.bind fun _ =>
      (recordRemove_neutral _).bind fun _ => .ite (neutral_act rfl) (.done _)) (.done _))
  refine (Neutral.mapM hentry entries).seq fun _ => obeys_pop ?_
  exact obeys_release (f := .done) (hΦ () v.topology trivial)

theorem retain_runs (predicate : K → V → Bool) : alone.Runs (Sync.retain env predicate) :=
  fun v hv _ hΦ => enter_exclusive hv fun _ hs =>
    Obeys.bind (allShards_runs _ hs _ fun _ _ hT' =>
      Obeys.bind (Runs.mapM (fun shard _ => retainShard_runs predicate shard) _
        (sole.stable hs hT') _ fun _ T'' _ =>
          leaveRetiring_obeys (v := v.learn T'') hv fun T => hΦ () T trivial))

theorem drainShard_runs (removed : List (K × V)) (shard : Nat) :
    sole.Runs (Sync.drainShard removed shard) := fun v hv Φ hΦ => by
  refine obeys_lock (sole_mayLock hv rfl) (obeys_act (a := .len shard) rfl fun (count : Nat) => ?_)
  refine Obeys.bind (obeys_act rfl fun _ => obeys_push (f := .done) rfl ?_)
  refine obeys_act rfl fun _ => obeys_act (a := .drain shard) rfl fun (entries : List (K × V)) => ?_
  refine (recordDrained_neutral count).seq fun _ => ?_
  refine (Neutral.mapM (fun e => recordRemove_neutral _) entries).seq fun _ => obeys_pop ?_
  exact obeys_release (f := fun _ => .done _) (hΦ _ v.topology trivial)

theorem dropPrevious_runs : sole.Runs (Sync.dropPrevious : Prog K V Unit) := fun v hv Φ hΦ => by
  refine obeys_lock (sole_mayLock hv rfl) (obeys_setPrevious (withoutPrevious v.topology)
    hv.1.lock rfl rfl rfl ?_)
  refine obeys_release (v := v.learn (withoutPrevious v.topology)) (obeys_act rfl fun _ =>
    obeys_act (a := .clock) rfl fun (now : Nat) => ?_)
  exact obeys_act rfl fun _ => hΦ () _ trivial

theorem clear_runs : alone.Runs (Sync.clear env : Prog K V Unit) := fun v hv _ hΦ =>
  enter_exclusive hv fun _ hs => Obeys.bind (allShards_runs _ hs _ fun _ _ hT' =>
    Obeys.bind (Runs.foldlM (fun removed shard _ => drainShard_runs removed shard) [] _
      (sole.stable hs hT') _ fun _ _ hT'' => Obeys.bind (dropPrevious_runs _
        (sole.stable (sole.stable hs hT') hT'') _ fun _ T₃ _ =>
          leaveRetiring_obeys (v := v.learn T₃) hv fun T => hΦ () T trivial)))

theorem drain_runs : alone.Runs (Sync.drain env : Prog K V _) := fun v hv _ hΦ =>
  enter_exclusive hv fun _ hs => Obeys.bind (allShards_runs _ hs _ fun _ _ hT' =>
    Obeys.bind (Runs.foldlM (fun removed shard _ => drainShard_runs removed shard) [] _
      (sole.stable hs hT') _ fun items _ hT'' => Obeys.bind (dropPrevious_runs _
        (sole.stable (sole.stable hs hT') hT'') _ fun _ T₃ _ =>
          leave_obeys (v := v.learn T₃) hv fun T => hΦ items T trivial)))

end Removal

section Migration

theorem readTracker_neutral : Neutral (Sync.readTracker : Prog K V Progress) := neutral_act rfl

theorem cancelled_neutral (budget : Sync.Budget) : Neutral (Sync.cancelled budget : Prog K V Bool) :=
  .ite (neutral_act rfl) (.done _)

theorem pauseElapsed_neutral (budget : Sync.Budget) (started : Nat) :
    Neutral (Sync.pauseElapsed budget started : Prog K V Bool) :=
  .ite (.done _) ((neutral_act rfl).bind fun _ => .done _)

theorem loadKeys_neutral (budget : Sync.Budget) (started : Nat) (keys : List K) :
    Neutral (Sync.loadKeys budget started keys : Prog K V (List K)) := by
  induction keys with
  | nil => exact .done _
  | cons k keys ih => exact neutral_user ((pauseElapsed_neutral _ _).bind fun _ =>
      .ite (.done _) (ih.bind fun _ => .done _))

theorem loadWork_runs (budget : Sync.Budget) (started index : Nat) (source : Option Nat)
    (batch : Sync.Batch K) :
    ∀ v, sole.holds v → ∀ Φ : List K → View → Prop, (∀ x, Φ x v) →
      Obeys (Sync.loadWork budget started index source batch : Prog K V (List K)) v Φ := by
  intro v hv Φ hΦ
  refine obeys_ite (hΦ _) ?_
  cases source with
  | none => exact hΦ _
  | some source =>
    refine obeys_lock (sole_mayLock hv rfl) (obeys_act (a := .entries source) rfl
      fun (entries : List (K × V)) => (loadKeys_neutral _ _ _).seq fun keys => ?_)
    exact obeys_release (f := fun _ => .done _) (hΦ _)

theorem moveOne_neutral (target source : Nat) (k : K) :
    Neutral (Sync.moveOne target source k : Prog K V Unit) :=
  neutral_user ((neutral_act (a := .promote target source k) rfl).bind fun (_ : Bool) =>
    .ite (.done _) neutral_crash)

/-- The target is locked before the source, which stands in the other generation. -/
theorem moveEntry_obeys {toShards source index : Nat} {k : K} {Φ : Unit → View → Prop}
    (hv : sole.holds v) (hsource : slotAt v.topology.previous index = some source)
    (hΦ : ∀ T, Φ () (v.learn T)) : Obeys (Sync.moveEntry env toShards source k) v Φ := by
  refine (shardIndex_neutral k).seq fun i => Obeys.bind
    (getOrInitShard_obeys (.inr hv.1) (fun _ => sole_mayLock hv rfl) fun target T hT hid => ?_)
  have hv' := sole.stable (T := T) hv trivial
  rw [← hT.previous] at hsource
  refine obeys_lock (sole_mayLock hv' rfl) (obeys_lock (.inl ⟨hv'.1.lock, fun m hm => ?_⟩) ?_)
  · rcases View.mem_lock.mp hm with he | hm
    · cases he
      exact T.apart hid hsource
    · exact hv'.2 _ m rfl hm
  · have hend : Obeys (act (.tracker Progress.moved) >>= fun _ =>
        act (.unlock (.shard source)) >>= fun _ => (act (.unlock (.shard target)) : Prog K V Unit))
        (((v.learn T).lock (.shard target) .excl).lock (.shard source) .excl) Φ :=
      obeys_act rfl fun _ => obeys_release (obeys_release (f := .done) (hΦ T))
    exact obeys_act rfl fun _ => obeys_ite (Obeys.bind obeys_crash)
      ((moveOne_neutral _ _ _).seq fun _ => hend)

theorem moveWork_obeys {toShards i : Nat} {source : Option Nat} {keys : List K}
    {Φ : List K × Bool → View → Prop} (hv : sole.holds v)
    (hsource : source = slotAt v.topology.previous i) (hΦ : ∀ r T, Φ r (v.learn T)) :
    Obeys (Sync.moveWork env toShards source keys) v Φ := by
  unfold Sync.moveWork
  split
  · rename_i source k
    exact Obeys.bind (moveEntry_obeys hv hsource.symm fun T => hΦ _ T)
  · exact hΦ _ v.topology

theorem sourceEmpty_runs (index : Nat) : sole.Runs (Sync.sourceEmpty index : Prog K V Bool) :=
  fun v hv Φ hΦ => by
    refine obeys_lock (sole_mayLock hv rfl) (obeys_previous (.inr hv.1.lock) ?_)
    split
    · exact obeys_release (f := fun _ => .done true) (hΦ true v.topology trivial)
    · rename_i source _
      refine obeys_lock (.inl ⟨hv.1.lock, fun m hm => ?_⟩) ?_
      · rcases View.mem_lock.mp hm with he | hm
        · cases he
        · exact hv.2 _ m rfl hm
      · exact obeys_act (a := .len source) rfl fun (n : Nat) => obeys_release
          (obeys_release (f := fun _ => .done _) (hΦ _ v.topology trivial))

theorem retireSource_runs (index : Nat) : sole.Runs (Sync.retireSource index : Prog K V Unit) :=
  fun v hv Φ hΦ => by
    refine obeys_lock (sole_mayLock hv rfl) (obeys_previous (.inr hv.1.lock) ?_)
    refine obeys_setPrevious (retired v.topology index) hv.1.lock rfl rfl rfl ?_
    exact obeys_release (v := v.learn (retired v.topology index))
      (obeys_act rfl fun _ => hΦ () _ trivial)

theorem finishMigration_runs : sole.Runs (Sync.finishMigration : Prog K V Unit) := dropPrevious_runs

theorem batchLoop_runs (budget : Sync.Budget) (toShards started fuel : Nat)
    (batch : Sync.Batch K) :
    sole.Runs (Sync.batchLoop env budget toShards started fuel batch) := by
  induction fuel generalizing batch with
  | zero => exact runs_of_neutral neutral_diverge
  | succ fuel ih =>
    refine .ite (runs_done _) ((runs_of_neutral (cancelled_neutral budget)).seq fun stop =>
      .ite (runs_done _) ((runs_of_neutral readTracker_neutral).seq fun progress => ?_))
    intro v hv Φ hΦ
    refine Obeys.bind (previousSlots_obeys (.inr hv.1) (sole_mayLock hv rfl) ?_)
    refine Obeys.bind (loadWork_runs _ _ _ _ _ v hv _ fun keys => ?_)
    refine Obeys.bind (moveWork_obeys (i := progress.snapshot.movedShards) hv rfl
      fun work T => ?_)
    have hv' := sole.stable (T := T) hv trivial
    refine Runs.seq (sourceEmpty_runs _) (fun empty => ?_) _ hv' Φ fun x T' hT' => hΦ x T' trivial
    have hrest : ∀ report : RebalanceBatchReport, sole.Runs (do
        let status := (← Sync.readTracker).snapshot
        if status.movedShards = status.totalShards then
          Sync.finishMigration
          return { report with complete := true }
        else
          let elapsed ← Sync.pauseElapsed budget started
          if (!empty ∧ work.1.isEmpty) ∨ elapsed then
            return { report with budgetExhausted := true }
          else
            Sync.batchLoop env budget toShards started fuel
              ⟨work.1, some progress.snapshot.movedShards, report⟩ :
          Prog K V RebalanceBatchReport) := fun report =>
      (runs_of_neutral readTracker_neutral).seq fun progress =>
        .ite (finishMigration_runs.seq fun _ => runs_done _)
          ((runs_of_neutral (pauseElapsed_neutral _ _)).seq fun elapsed => .ite (runs_done _) (ih _))
    exact .ite ((retireSource_runs _).seq fun _ => hrest _) (hrest _)

/-- Both directories are write-locked by the caller. -/
theorem beginMigration_obeys {current target : Nat} {Φ : Unit → View → Prop} (h : v.Excluding)
    (hΦ : ∀ T, Φ () (v.learn T)) : Obeys (Sync.beginMigration current target : Prog K V Unit) v Φ := by
  refine obeys_install h fun T hs hn => ?_
  have hcold : allocatedShards T.shards = [] := hs ▸ allocate_cold _ _
  refine obeys_setPrevious (setAside v.topology T hcold hn) h rfl rfl rfl ?_
  refine obeys_act rfl fun _ => obeys_act rfl fun _ => obeys_act rfl fun _ => ?_
  refine obeys_act (a := .totalLen) rfl fun (len : Nat) => obeys_act (a := .clock) rfl
    fun (now : Nat) => ?_
  exact obeys_act rfl fun _ => hΦ _

theorem begin_obeys {α : Type} {current target : Nat} {f : Unit → Prog K V α}
    {Φ : α → View → Prop} (hv : sole.holds v) (hf : ∀ T, Obeys (f ()) (v.learn T) Φ) :
    Obeys (do
      Sync.beginMigration current target
      act (.unlock .previous)
      act (.unlock .active)
      f ()) ((v.lock .active .excl).lock .previous .excl) Φ :=
  Obeys.bind (beginMigration_obeys hv.1.lock.lock fun T =>
    obeys_release (v := (v.learn T).lock .active .excl) (obeys_release (v := v.learn T) (hf T)))

theorem mayLock_previous (hv : sole.holds v) {m : Mode} :
    (v.lock .active .excl).MayLock .previous m :=
  .inl ⟨hv.1.lock, fun m' hm => by
    rcases View.mem_lock.mp hm with he | hm
    · cases he
    · exact hv.2 _ m' rfl hm⟩

theorem leave_exclusive {α : Type} {m : Mode} {r : α} {T : Topology} {Φ : α → View → Prop}
    (hv : alone.holds v) (hΦ : ∀ x T, alone.rel v.topology T → Φ x (v.learn T)) :
    Obeys (act (.unlock .routing) >>= fun _ => (.done r : Prog K V α))
      ((v.learn T).lock .routing m) Φ :=
  obeys_leave (v := v.learn T) hv.builder (hΦ r T trivial)

theorem startRebalanceOnline_runs (count : Nat) :
    alone.Runs (Sync.startRebalanceOnline count : Prog K V _) := fun v hv Φ hΦ => by
  unfold Sync.startRebalanceOnline
  split
  · exact hΦ _ v.topology trivial
  · refine obeys_exclusive hv.builder fun T hs => readTracker_neutral.seq fun progress =>
      obeys_act (a := .shardCount) rfl fun (current : Nat) => obeys_ite (leave_exclusive hv hΦ) ?_
    refine obeys_lock (sole_mayLock hs rfl) (obeys_lock (mayLock_previous hs) ?_)
    refine obeys_shards (.inr hs.1.lock.lock) fun T' _ => ?_
    exact begin_obeys (v := (v.learn T').lock .routing .excl) (f := fun _ =>
      act (.unlock .routing) >>= fun _ => .done _) hs fun T'' =>
        leave_exclusive (T := T'') hv hΦ

theorem pauseRebalance_runs : alone.Runs (Sync.pauseRebalance : Prog K V Bool) :=
  fun _ hv _ hΦ => obeys_exclusive hv.builder fun _ _ =>
    obeys_act (a := .tracker _) rfl fun (_ : Progress) => leave_exclusive hv hΦ

theorem resumeRebalance_runs : alone.Runs (Sync.resumeRebalance : Prog K V Bool) :=
  (runs_act (a := .tracker _) rfl).seq fun (_ : Progress) => runs_done _

theorem timer_drop {generation started budget : Nat} {Φ : Unit → View → Prop} (h : Φ () v) :
    Obeys ((Guard.timer generation started budget : Guard K V).drop) v.push Φ :=
  obeys_act (a := .clock) rfl fun (_ : Nat) => obeys_act rfl fun _ => obeys_pop (f := .done) h

theorem advanceRebalanceInner_runs (fuel : Nat) (budget : Sync.Budget) :
    alone.Runs (Sync.advanceRebalanceInner env fuel budget) := fun v hv Φ hΦ => by
  refine obeys_exclusive hv.builder fun T hs => obeys_act (a := .clock) rfl fun (now : Nat) =>
    readTracker_neutral.seq fun progress => (cancelled_neutral budget).seq fun stopped => ?_
  refine obeys_ite (leave_exclusive hv hΦ) (readTracker_neutral.seq fun progress' =>
    obeys_ite (leave_exclusive hv hΦ) ?_)
  refine obeys_act (a := .clock) rfl fun (started : Nat) => obeys_push rfl ?_
  refine Obeys.bind (batchLoop_runs _ _ _ _ _ _ (sole_push hs) _ fun report T' _ => ?_)
  refine obeys_act (a := .clock) rfl fun (now : Nat) => ?_
  refine Obeys.bind (timer_drop (v := (v.learn T').lock .routing .excl) ?_)
  exact obeys_leave (v := v.learn T') hv.builder (obeys_act rfl fun _ => hΦ _ T' trivial)

theorem advanceRebalance_runs (fuel maxShards : Nat) :
    alone.Runs (Sync.advanceRebalance env fuel maxShards) :=
  (advanceRebalanceInner_runs fuel _).seq fun _ => runs_done _

theorem cooperate_runs (target : Nat) : alone.Runs (Sync.cooperate target : Prog K V Bool) :=
  fun v hv Φ hΦ => by
    refine obeys_exclusive hv.builder fun T hs => obeys_act (a := .shardCount) rfl
      fun (current : Nat) => readTracker_neutral.seq fun progress => ?_
    refine obeys_ite (leave_exclusive hv hΦ) (obeys_ite (leave_exclusive hv hΦ) ?_)
    refine obeys_lock (sole_mayLock hs rfl) (obeys_lock (mayLock_previous hs) ?_)
    exact begin_obeys (v := (v.learn T).lock .routing .excl) (f := fun _ =>
      act (.unlock .routing) >>= fun _ => .done _) hs fun T'' =>
        leave_exclusive (T := T'') hv hΦ

theorem cooperativeLoop_runs (target : Nat) (options : RebalanceOptions) (inner fuel moved : Nat) :
    alone.Runs (Sync.cooperativeLoop env target options inner fuel moved) := by
  induction fuel generalizing moved with
  | zero => exact runs_of_neutral neutral_diverge
  | succ fuel ih =>
    refine (cooperate_runs target).seq fun complete => .ite (runs_done _) ?_
    exact resumeRebalance_runs.seq fun _ =>
      (advanceRebalanceInner_runs inner _).seq fun report => ih _

variable [DecidableEq K]

theorem stageShard_runs (target : Nat) (staged : List (Option (Assoc K V)) × Nat) (shard : Nat) :
    sole.Runs (Sync.stageShard env target staged shard) := fun v hv Φ hΦ => by
  refine obeys_lock (sole_mayLock hv rfl) (obeys_act (a := .entries shard) rfl
    fun (entries : List (K × V)) => ?_)
  refine Neutral.seq (Neutral.foldlM ?_ entries staged) fun r => ?_
  · exact fun _ _ => neutral_user (.done _)
  · exact obeys_release (f := fun _ => .done r) (hΦ r v.topology trivial)

theorem rebalanceStaged_runs (target : Nat) : alone.Runs (Sync.rebalanceStaged env target) :=
  fun v hv Φ hΦ => by
    refine obeys_exclusive hv.builder fun T hs => obeys_act (a := .shardCount) rfl
      fun (current : Nat) => obeys_act (a := .clock) rfl fun (started : Nat) =>
        readTracker_neutral.seq fun progress => obeys_ite (leave_exclusive hv hΦ) ?_
    refine Obeys.bind (allShards_runs _ hs _ fun shards T₁ h₁ => ?_)
    have hs₁ := sole.stable (T := T₁) hs trivial
    refine Obeys.bind (Runs.foldlM (fun staged shard _ => stageShard_runs target staged shard) _ _
      hs₁ _ fun staged T₂ h₂ => ?_)
    have hs₂ := sole.stable (T := T₂) hs₁ trivial
    refine obeys_lock (sole_mayLock hs₂ rfl) (obeys_install hs₂.1.lock fun T₃ _ _ => ?_)
    refine obeys_release (v := (v.learn T₃).lock .routing .excl) ?_
    refine obeys_lock (sole_mayLock (sole.stable (T := T₃) hs₂ trivial) rfl)
      (obeys_setPrevious (withoutPrevious T₃) hs.1.lock rfl rfl rfl ?_)
    refine obeys_release (v := (v.learn (withoutPrevious T₃)).lock .routing .excl) ?_
    refine obeys_act rfl fun _ => obeys_act rfl fun _ => obeys_act rfl fun _ =>
      obeys_act (a := .clock) rfl fun (now : Nat) => obeys_act rfl fun _ => ?_
    exact obeys_leave (v := v.learn (withoutPrevious T₃)) hv.builder (obeys_act rfl fun _ =>
      obeys_act (a := .clock) rfl fun (now : Nat) => hΦ _ _ trivial)

theorem rebalanceTo_runs (fuel count : Nat) (options : RebalanceOptions) :
    alone.Runs (Sync.rebalanceTo env fuel count options) := by
  unfold Sync.rebalanceTo
  split
  · exact runs_done _
  · refine .ite ?_ ((rebalanceStaged_runs _).seq fun _ => runs_done _)
    exact (runs_act (a := .shardCount) rfl).seq fun (_ : Nat) =>
      (runs_act (a := .clock) rfl).seq fun (_ : Nat) => (cooperativeLoop_runs _ _ _ _ _).seq
        fun _ => (runs_act (a := .clock) rfl).seq fun (_ : Nat) => runs_done _

end Migration

section Statistics

theorem initializedShards_runs : alone.Runs (Sync.initializedShards : Prog K V Nat) :=
  fun _ hv _ hΦ => obeys_shared hv.builder fun _ hj =>
    Obeys.bind (activeSlots_obeys (.inl hj.1) (joint_directory hj) fun T _ =>
      leave_exclusive (T := T) hv hΦ)

theorem loadOf_obeys {shard : Nat} {Φ : Nat → View → Prop} {r : Nat ×ₗ Nat} (hs : v.Sharing)
    (hr : v.topology.Rank (.shard shard) r) (hb : v.Below r) (hΦ : ∀ n, Φ n v) :
    Obeys (Sync.loadOf shard : Prog K V Nat) v Φ :=
  obeys_lock (.inr ⟨hs, r, hr, hb⟩) (obeys_act (a := .len shard) rfl fun (n : Nat) =>
    obeys_release (f := fun _ => .done n) (hΦ n))

theorem shardLoads_runs : alone.Runs (Sync.shardLoads : Prog K V _) := fun v hv Φ hΦ => by
  refine obeys_shared hv.builder fun T hj => obeys_lock (joint_directory hj)
    (obeys_shards (.inl hj.1.lock) fun T' hT' => ?_)
  have hj' := joint.stable hj hT'
  have hb : (((v.learn T').lock .routing .shared).lock .active .shared).Below (toLex (3, 0)) :=
    hj'.2.lock .directory (Topology.kind_lt (by decide) _ _)
  refine Obeys.seq (Obeys.mapM
    (I := fun w => w = ((v.learn T').lock .routing .shared).lock .active .shared)
    (fun shard w hm hw => ?_) rfl) fun loads w hw => ?_
  · obtain ⟨i, hi⟩ := mem_allocatedShards.mp hm
    subst hw
    exact loadOf_obeys hj'.1.lock (.active hi) (hb.mono (Topology.first_le _ _)) fun _ => rfl
  · subst hw
    exact obeys_release (leave_exclusive hv hΦ)

theorem memoryLoads_runs : alone.Runs (Sync.memoryLoads : Prog K V _) := fun v hv Φ hΦ => by
  refine obeys_shared hv.builder fun T hj => Obeys.bind (Obeys.bind
    (activeSlots_obeys (.inl hj.1) (joint_directory hj) fun T' hT' => ?_))
  have hj' := joint.stable hj hT'
  refine Obeys.bind (previousSlots_obeys (.inl hj'.1) (joint_previous hj') ?_)
  have hb := hj'.2.mono (Topology.kind_lt (by decide : 2 < 3) 0 0).le
  refine Obeys.seq (Obeys.mapM (I := fun w => w = (v.learn T').lock .routing .shared)
    (fun shard w hm hw => ?_) rfl) fun loads w hw => ?_
  · subst hw
    rcases List.mem_append.mp hm with hm | hm
    · obtain ⟨i, hi⟩ := mem_allocatedShards.mp hm
      exact loadOf_obeys hj'.1 (.active hi) (hb.mono (Topology.first_le _ _)) fun _ => rfl
    · obtain ⟨j, hj⟩ := mem_previous.mp hm
      exact loadOf_obeys hj'.1 (.previous hj)
        (hb.mono (Topology.kind_lt (by decide : 3 < 4) 0 _).le) fun _ => rfl
  · subst hw
    exact leave_exclusive hv hΦ

theorem claimWorker_neutral (generation : Nat) :
    Neutral (Sync.claimWorker generation : Prog K V Bool) :=
  (neutral_act (a := .tracker _) rfl).bind fun (_ : Progress) => .done _

theorem spawnRebalance_runs (count : Nat) : alone.Runs (Sync.spawnRebalance count : Prog K V _) :=
  fun v hv Φ hΦ => by
    unfold Sync.spawnRebalance
    split
    · exact hΦ _ v.topology trivial
    · refine obeys_exclusive hv.builder fun T hs => readTracker_neutral.seq fun progress =>
        obeys_ite (leave_exclusive hv hΦ) (obeys_act (a := .shardCount) rfl fun (current : Nat) =>
          obeys_ite (leave_exclusive hv hΦ) ?_)
      have hrest : ∀ T' : Topology, Obeys (do
          let telemetry := (← Sync.readTracker).telemetry
          let claimed ← Sync.claimWorker telemetry.generation
          act (.unlock .routing)
          return .ok claimed : Prog K V (Except ShardCountError Bool))
          ((v.learn T').lock .routing .excl) Φ := fun T' =>
        readTracker_neutral.seq fun _ => (claimWorker_neutral _).seq fun _ => leave_exclusive hv hΦ
      refine obeys_ite ?_ (hrest T)
      refine obeys_lock (sole_mayLock hs rfl) (obeys_lock (mayLock_previous hs) ?_)
      exact begin_obeys (v := (v.learn T).lock .routing .excl) (f := fun _ => _) hs hrest

end Statistics

/-- Every public operation takes its locks in order and releases them. -/
theorem code_runs [DecidableEq K] (op : Sync.Op K V) : alone.Runs (Sync.code env op) := by
  have hdrop : ∀ {α : Type} {p : Prog K V α}, alone.Runs p → alone.Runs (Sync.discard p) :=
    fun h => h.seq fun _ => runs_done _
  cases op with
  | insert k x => exact hdrop (insert_runs k x)
  | get k => exact hdrop (get_runs k)
  | readWith k read => exact hdrop (readWith_runs k read)
  | contains k => exact hdrop (contains_runs k)
  | remove k => exact hdrop (remove_runs k)
  | len => exact hdrop (runs_act rfl)
  | getOrInsertWith k f => exact hdrop (getOrInsertWith_runs k f)
  | computeIfPresent k f => exact hdrop (computeIfPresent_runs k f)
  | compareAndSwap k expected new => exact hdrop (compareAndSwap_runs k expected new)
  | compareAndRemove k expected => exact hdrop (compareAndRemove_runs k expected)
  | batchInsert entries => exact hdrop (batchInsert_runs entries)
  | batchRemove keys => exact hdrop (batchRemove_runs keys)
  | batchGet keys => exact hdrop (batchGet_runs keys)
  | retain predicate => exact retain_runs predicate
  | clear => exact clear_runs
  | drain => exact hdrop drain_runs
  | executeTransaction ops => exact hdrop (executeTransaction_runs ops)
  | snapshotView => exact hdrop snapshotView_runs
  | captureSnapshot => exact hdrop captureSnapshot_runs
  | iter => exact hdrop iter_runs
  | collect => exact hdrop collectWith_runs
  | snapshotAtVersion version => exact hdrop (snapshotAtVersion_runs version)
  | runEviction target policy => exact hdrop (runEviction_runs target policy)
  | startRebalanceOnline count => exact hdrop (startRebalanceOnline_runs count)
  | pauseRebalance => exact hdrop pauseRebalance_runs
  | resumeRebalance => exact hdrop resumeRebalance_runs
  | advanceRebalance fuel maxShards => exact hdrop (advanceRebalance_runs fuel maxShards)
  | advanceRebalanceWithOptions fuel options => exact hdrop (advanceRebalanceInner_runs fuel _)
  | rebalanceTo fuel count options => exact hdrop (rebalanceTo_runs fuel count options)
  | spawnRebalance count => exact hdrop (spawnRebalance_runs count)
  | workerBatch fuel budget => exact hdrop (advanceRebalanceInner_runs fuel budget)
  | releaseWorker generation => exact hdrop (runs_act rfl)
  | initializedShards => exact hdrop initializedShards_runs
  | shardLoads => exact hdrop shardLoads_runs
  | memoryLoads => exact hdrop memoryLoads_runs

end Starshard.Locking
