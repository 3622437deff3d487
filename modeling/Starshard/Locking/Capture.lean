import Mathlib.Data.List.Dedup
import Starshard.Locking.Operations

/-! Operations that hold several shard locks at once: transactions and snapshots.
The locks are taken by place, active before previous. -/
namespace Starshard.Locking

open Data Concurrent Discipline Scope

variable {K V : Type} {env : Env K V} {v : View} {m : Mode}

namespace View

/-- The locks of the shards, the last one innermost. -/
def lockAll (m : Mode) : List Nat → View → View
  | [], v => v
  | id :: ids, v => lockAll m ids (v.lock (.shard id) m)

/-- Every shard in turn comes after all locks that are owned. -/
def Ascending (m : Mode) : View → List Nat → Prop
  | _, [] => True
  | v, id :: ids => (∃ r, v.topology.Rank (.shard id) r ∧ v.Below r) ∧
      Ascending m (v.lock (.shard id) m) ids

@[simp] theorem lockAll_topology (ids : List Nat) : (lockAll m ids v).topology = v.topology := by
  induction ids generalizing v with
  | nil => rfl
  | cons id ids ih => exact ih

theorem lockAll_stack (ids : List Nat) : (lockAll m ids v).stack =
    (ids.map fun id => some (.shard id, m)).reverse ++ v.stack := by
  induction ids generalizing v with
  | nil => rfl
  | cons id ids ih =>
    rw [lockAll, ih]
    simp [lock]

theorem lockAll_unlock {id : Nat} {ids : List Nat} (h : id ∉ ids) :
    (lockAll m ids (v.lock (.shard id) m)).unlock (.shard id) = lockAll m ids v := by
  have hstack : ((lockAll m ids (v.lock (.shard id) m)).unlock (.shard id)).stack =
      (lockAll m ids v).stack := by
    unfold unlock
    rw [lockAll_stack, lockAll_stack, List.eraseP_append_right]
    · simp [lock, owns]
    · intro g hg
      obtain ⟨x, hx, rfl⟩ := List.mem_map.mp (List.mem_reverse.mp hg)
      have : x ≠ id := fun he => h (he ▸ hx)
      simpa [owns] using this
  have htop : ((lockAll m ids (v.lock (.shard id) m)).unlock (.shard id)).topology =
      (lockAll m ids v).topology := by
    rw [lockAll_topology]
    exact lockAll_topology ids
  exact congrArg₂ View.mk hstack htop

theorem Sharing.lockAll (h : v.Sharing) (ids : List Nat) : (lockAll m ids v).Sharing := by
  unfold View.Sharing
  rw [lockAll_stack]
  exact List.mem_append_right _ h

theorem Ascending.free {ids : List Nat} (h : Ascending m v ids) :
    ids.Nodup ∧ ∀ id ∈ ids, ∀ m', some (.shard id, m') ∉ v.stack := by
  induction ids generalizing v with
  | nil => exact ⟨List.nodup_nil, nofun⟩
  | cons id ids ih =>
    obtain ⟨⟨r, hr, hb⟩, hrest⟩ := h
    obtain ⟨hn, hfree⟩ := ih hrest
    refine ⟨List.nodup_cons.mpr ⟨fun hid => ?_, hn⟩, fun x hx m' hm => ?_⟩
    · exact hfree id hid m (mem_lock.mpr (.inl rfl))
    · rcases List.mem_cons.mp hx with rfl | hx
      · obtain ⟨r', hr', hlt⟩ := hb _ m' hm nofun
        rw [hr.unique hr'] at hlt
        exact lt_irrefl _ hlt
      · exact hfree x hx m' (mem_lock.mpr (.inr hm))

theorem Ascending.append {ids ids' : List Nat} (h : Ascending m v ids)
    (h' : Ascending m (lockAll m ids v) ids') : Ascending m v (ids ++ ids') := by
  induction ids generalizing v with
  | nil => exact h'
  | cons id ids ih => exact ⟨h.1, ih h.2 h'⟩

/-- Shards that stand at increasing places of one generation ascend. -/
theorem ascending_of_places {T : Topology} {c : Nat} {indices ids : List Nat}
    (h : List.Forall₂ (fun i id => T.Rank (.shard id) (toLex (c, i))) indices ids)
    (hT : v.topology = T) (hp : indices.Pairwise (· < ·))
    (hb : ∀ i ∈ indices, v.Below (toLex (c, i))) : Ascending m v ids := by
  induction h generalizing v with
  | nil => trivial
  | cons hr hrest ih =>
    subst hT
    obtain ⟨hlt, hp⟩ := List.pairwise_cons.mp hp
    refine ⟨⟨_, hr, hb _ (List.mem_cons_self ..)⟩, ih rfl hp fun j hj => ?_⟩
    exact (hb _ (List.mem_cons_self ..)).lock hr
      (Prod.Lex.toLex_lt_toLex.mpr (.inr ⟨rfl, hlt j hj⟩))

/-- After a generation was locked, the next one may follow. -/
theorem below_lockAll {T : Topology} {c : Nat} {indices ids : List Nat}
    (h : List.Forall₂ (fun i id => T.Rank (.shard id) (toLex (c, i))) indices ids)
    (hT : v.topology = T) (hb : v.Below (toLex (c + 1, 0))) :
    (lockAll m ids v).Below (toLex (c + 1, 0)) := by
  induction h generalizing v with
  | nil => exact hb
  | cons hr hrest ih =>
    subst hT
    exact ih rfl (hb.add hr (Topology.kind_lt (Nat.lt_succ_self c) _ _))

end View

section Places

theorem places (slots : Slots) : ∃ indices : List Nat, indices.Pairwise (· < ·) ∧
    List.Forall₂ (fun i id => slots[i]? = some (some id)) indices (allocatedShards slots) := by
  induction slots with
  | nil => exact ⟨[], List.Pairwise.nil, .nil⟩
  | cons slot slots ih =>
    obtain ⟨indices, hp, h⟩ := ih
    have hp' : (indices.map (· + 1)).Pairwise (· < ·) :=
      hp.map _ fun a b hab => Nat.succ_lt_succ hab
    have h' : List.Forall₂ (fun i id => (slot :: slots)[i]? = some (some id))
        (indices.map (· + 1)) (allocatedShards slots) := by
      rw [List.forall₂_map_left_iff]
      exact h.imp fun i id hi => by simpa using hi
    cases slot with
    | none => exact ⟨_, hp', h'⟩
    | some id =>
      refine ⟨0 :: indices.map (· + 1), List.pairwise_cons.mpr ⟨fun j hj => ?_, hp'⟩, .cons rfl h'⟩
      obtain ⟨i, -, rfl⟩ := List.mem_map.mp hj
      exact Nat.succ_pos i

theorem sortedIndices_pairwise (indices : List Nat) : (sortedIndices indices).Pairwise (· < ·) := by
  have hsort : (indices.mergeSort fun a b => decide (a ≤ b)).Pairwise fun a b =>
      decide (a ≤ b) = true :=
    List.pairwise_mergeSort (by simpa using fun a b c => Nat.le_trans)
      (by simpa using Nat.le_total) indices
  have hle : (sortedIndices indices).Pairwise fun a b => decide (a ≤ b) = true :=
    hsort.sublist (List.dedup_sublist _)
  exact (hle.and (List.nodup_dedup _)).imp fun h =>
    lt_of_le_of_ne (of_decide_eq_true h.1) h.2

end Places

section All

variable {α : Type} {ids : List Nat} {g : Nat → Prog K V Unit}

theorem lockAll_obeys (hg : ∀ id, g id = act (.lock (.shard id) m)) {f : List Unit → Prog K V α}
    {Φ : α → View → Prop} (hs : v.Sharing) (ha : View.Ascending m v ids)
    (hf : ∀ r, Obeys (f r) (View.lockAll m ids v) Φ) : Obeys (ids.mapM g >>= f) v Φ := by
  induction ids generalizing v f with
  | nil => exact hf []
  | cons id ids ih =>
    rw [List.mapM_cons, Program.bind_assoc, hg]
    refine obeys_lock (.inr ⟨hs, ha.1⟩) ?_
    rw [Program.bind_assoc]
    exact ih hs.lock ha.2 fun r => hf _

theorem unlockAll_obeys (hg : ∀ id, g id = act (.unlock (.shard id))) {f : List Unit → Prog K V α}
    {Φ : α → View → Prop} (hn : ids.Nodup) (hf : ∀ r, Obeys (f r) v Φ) :
    Obeys (ids.mapM g >>= f) (View.lockAll m ids v) Φ := by
  induction ids generalizing v f with
  | nil => exact hf []
  | cons id ids ih =>
    obtain ⟨hid, hn⟩ := List.nodup_cons.mp hn
    rw [List.mapM_cons, Program.bind_assoc, hg]
    refine obeys_unlock nofun ?_
    rw [View.lockAll, View.lockAll_unlock hid, Program.bind_assoc]
    exact ih hn fun r => hf _

end All

section Transactions

theorem initAll_obeys {α : Type} {indices : List Nat} {f : List Nat → Prog K V α}
    {Φ : α → View → Prop} (hv : joint.holds v)
    (hf : ∀ ids T, v.topology.Grows T →
      List.Forall₂ (fun i id => T.shards[i]? = some (some id)) indices ids →
        Obeys (f ids) (v.learn T) Φ) : Obeys (indices.mapM getOrInitShard >>= f) v Φ := by
  induction indices generalizing v f with
  | nil => exact hf [] v.topology (.refl _) .nil
  | cons i indices ih =>
    rw [List.mapM_cons, Program.bind_assoc]
    refine Obeys.bind (getOrInitShard_obeys (.inl hv.1) (fun _ => joint_directory hv)
      fun id T hT hid => ?_)
    rw [Program.bind_assoc]
    refine ih (joint.stable hv hT) fun ids T' hT' h => ?_
    exact hf (id :: ids) T' (hT.trans hT') (.cons (hT'.shards i id hid) h)

theorem resolvePrevious_obeys {α : Type} {slots : Option Slots} {indices : List Nat}
    {f : List (Nat × Nat) → Prog K V α} {Φ : α → View → Prop}
    (hf : ∀ es, (es.map Prod.fst).Sublist indices → (∀ e ∈ es, slotAt slots e.1 = some e.2) →
      Obeys (f es) v Φ) : Obeys (Sync.resolvePrevious slots indices >>= f) v Φ := by
  induction indices generalizing f with
  | nil => exact hf [] .slnil nofun
  | cons i indices ih =>
    have hskip : Obeys (Sync.resolvePrevious slots indices >>= f) v Φ :=
      ih fun es hs h => hf es (hs.cons i) h
    cases slots with
    | none => exact hskip
    | some directory =>
      unfold Sync.resolvePrevious
      dsimp only
      split
      · exact Obeys.bind obeys_crash
      · exact hskip
      · rename_i shard hshard
        rw [Program.bind_assoc]
        refine ih fun es hs h => hf ((i, shard) :: es) (hs.cons_cons i) fun e he => ?_
        rcases List.mem_cons.mp he with rfl | he
        · exact slotAt_eq_some.mpr ⟨directory, rfl, hshard⟩
        · exact h e he

theorem executeTransaction_runs (ops : List (TxnOp K V)) :
    alone.Runs (Sync.executeTransaction env ops) := fun v hv Φ hΦ => by
  refine enter_shared hv fun T₀ hj => obeys_act (a := .previousShardCount) rfl
    fun (count : Nat) => (transactionIndices_neutral count ops).seq fun indices => ?_
  refine initAll_obeys hj fun active T hT hactive => ?_
  have hj' := joint.stable hj hT
  refine obeys_lock (joint_previous hj') (obeys_previous (.inl hj'.1.lock)
    (resolvePrevious_obeys fun previous hsub hprevious => obeys_release ?_))
  -- the active shards ascend, and the previous shards ascend above them
  have hra : List.Forall₂ (fun i id => T.Rank (.shard id) (toLex (3, i)))
      (sortedIndices indices.1) active := hactive.imp fun _ _ => .active
  have ha : View.Ascending .excl (((v.learn T₀).push.lock .routing .shared).learn T) active :=
    View.ascending_of_places hra rfl (sortedIndices_pairwise _) fun i _ =>
      hj'.2.mono (Topology.kind_lt (by decide) _ _).le
  have hrp : List.Forall₂ (fun i id => T.Rank (.shard id) (toLex (4, i)))
      (previous.map Prod.fst) (previous.map Prod.snd) := by
    rw [List.forall₂_map_left_iff, List.forall₂_map_right_iff]
    exact List.forall₂_same.mpr fun e he => .previous (hprevious e he)
  have hb := View.below_lockAll (m := .excl) hra rfl
    (hj'.2.mono (Topology.kind_lt (by decide) 0 0).le)
  have hp : View.Ascending .excl
      (View.lockAll .excl active (((v.learn T₀).push.lock .routing .shared).learn T))
      (previous.map Prod.snd) :=
    View.ascending_of_places hrp (View.lockAll_topology _)
      ((sortedIndices_pairwise _).sublist hsub) fun i _ => hb.mono (Topology.first_le _ _)
  refine Obeys.bind (lockAll_obeys (fun _ => rfl) hj'.1 ha fun _ => ?_)
  refine Obeys.bind (lockAll_obeys (fun _ => rfl) (hj'.1.lockAll active) hp fun _ => ?_)
  refine (executeOps_neutral _ _ _ _ _).seq fun _ => ?_
  refine Obeys.bind (unlockAll_obeys (fun _ => rfl) hp.free.1 fun _ => ?_)
  refine Obeys.bind (unlockAll_obeys (fun _ => rfl) ha.free.1 fun _ => ?_)
  exact leave_obeys (v := v.learn T) hv fun T' => hΦ _ T' trivial

end Transactions

section Snapshots

/-- The caller owns at most the builder. -/
theorem captureViewData_obeys {Φ : Nat × Nat × List (List (K × V)) → View → Prop}
    (hv : v.Only [.builder]) (hΦ : ∀ r T, Φ r (v.learn T)) :
    Obeys (Sync.captureViewData : Prog K V _) v Φ := by
  refine obeys_shared hv fun T₀ hj => obeys_lock (joint_directory hj) ?_
  refine obeys_lock (.inr ⟨hj.1.lock, rfl⟩) (obeys_shards (.inl hj.1.lock.lock) fun T hT => ?_)
  refine obeys_previous (.inl hj.1.lock.lock) ?_
  have hs : (((((v.learn T₀).lock .routing .shared).lock .active .shared).lock .previous
      .shared).learn T).Sharing := hj.1.lock.lock
  have hb : (((((v.learn T₀).lock .routing .shared).lock .active .shared).lock .previous
      .shared).learn T).Below (toLex (3, 0)) := by
    have hd := (joint.stable hj hT).2.lock (m := .shared) .directory
      (Topology.kind_lt (by decide : 2 < 3) 0 0)
    intro l m hm hl
    rcases View.mem_lock.mp hm with he | hm
    · cases he
      exact absurd rfl hl
    · exact hd l m hm hl
  obtain ⟨is, hpi, hactive⟩ := places T.shards
  obtain ⟨js, hpj, hprevious⟩ := places (T.previous.getD [])
  have hra : List.Forall₂ (fun i id => T.Rank (.shard id) (toLex (3, i))) is
      (allocatedShards T.shards) := hactive.imp fun _ _ => .active
  have hrp : List.Forall₂ (fun i id => T.Rank (.shard id) (toLex (4, i))) js
      (allocatedShards (T.previous.getD [])) := by
    refine hprevious.imp fun j id hid => .previous ?_
    cases hp : T.previous with
    | none =>
      rw [hp] at hid
      cases hid
    | some slots =>
      rw [hp] at hid
      exact slotAt_eq_some.mpr ⟨slots, rfl, hid⟩
  have ha := View.ascending_of_places (m := .shared) hra rfl hpi fun i _ =>
    hb.mono (Topology.first_le _ _)
  have hb' := View.below_lockAll (m := .shared) hra rfl
    (hb.mono (Topology.kind_lt (by decide : 3 < 4) 0 0).le)
  have hp := View.ascending_of_places (m := .shared) hrp (View.lockAll_topology _) hpj fun i _ =>
    hb'.mono (Topology.first_le _ _)
  have hall := ha.append hp
  refine Obeys.bind (lockAll_obeys (fun _ => rfl) hs hall fun _ =>
    obeys_act (a := .writeEpoch) rfl fun (epoch : Nat) => ?_)
  have hcopy : ∀ shard, Neutral (Sync.copyShard shard : Prog K V _) := fun shard =>
    (neutral_act rfl).bind fun _ => neutral_user (.done _)
  refine (Neutral.mapM hcopy _).seq fun contents => ?_
  refine Obeys.bind (unlockAll_obeys (fun _ => rfl) hall.free.1 fun _ => ?_)
  refine obeys_release (v := ((v.learn T).lock .routing .shared).lock .active .shared) ?_
  refine obeys_release (v := (v.learn T).lock .routing .shared) ?_
  exact obeys_leave (f := fun _ => .done _) (v := v.learn T) hv (hΦ _ T)

theorem builder_only (hv : alone.holds v) : (v.lock .builder .excl).Only [.builder] :=
  fun l m hm => by
    rcases View.mem_lock.mp hm with he | hm
    · cases he
      exact List.mem_singleton.mpr rfl
    · exact absurd (hv l m hm) List.not_mem_nil

/-- A capture under the builder gate. -/
theorem gated_runs {α β : Type} {p : Prog K V α} {f : α → Prog K V β}
    (hp : ∀ v, v.Only [.builder] → ∀ Φ : α → View → Prop, (∀ x T, Φ x (v.learn T)) → Obeys p v Φ)
    (hf : ∀ x, Neutral (f x)) : alone.Runs (act (.lock .builder .excl) >>= fun _ =>
      p >>= fun x => act (.unlock .builder) >>= fun _ => f x) := fun v hv _ hΦ =>
  obeys_lock hv (Obeys.bind (hp _ (builder_only hv) _ fun x T =>
    obeys_release (v := v.learn T) ((hf x).obeys fun y => hΦ y T trivial)))

theorem snapshotView_runs : alone.Runs (Sync.snapshotView : Prog K V _) :=
  gated_runs (fun _ hv _ hΦ => captureViewData_obeys hv hΦ) fun _ => .done _

theorem cachedSnapshot_obeys {Φ : Option (Nat × List (K × V)) → View → Prop}
    (hv : v.Only [.builder]) (hΦ : ∀ r, Φ r v) : Obeys (Sync.cachedSnapshot env) v Φ := by
  refine obeys_ite (hΦ none) (obeys_lock hv (obeys_act (a := .readCache) rfl
    fun (cache : Option (Nat × List (K × V))) => ?_))
  cases cache with
  | none => exact obeys_release (f := fun _ => .done none) (hΦ none)
  | some snapshot =>
    refine obeys_act (a := .writeEpoch) rfl fun (current : Nat) => ?_
    exact obeys_release (f := fun _ => .done _) (hΦ _)

theorem storeSnapshot_obeys {epoch : Nat} {items : List (K × V)} {Φ : Unit → View → Prop}
    (hv : v.Only [.builder]) (hΦ : Φ () v) : Obeys (Sync.storeSnapshot env epoch items) v Φ :=
  obeys_ite (obeys_lock hv (obeys_act rfl fun _ => obeys_release (f := .done) hΦ)) hΦ

theorem captureSnapshot_runs : alone.Runs (Sync.captureSnapshot env : Prog K V _) :=
  fun v hv Φ hΦ => by
    refine Obeys.bind (cachedSnapshot_obeys hv.builder fun found => ?_)
    cases found with
    | some snapshot => exact hΦ snapshot v.topology trivial
    | none =>
      refine obeys_lock hv (Obeys.bind (cachedSnapshot_obeys (builder_only hv) fun found => ?_))
      cases found with
      | some snapshot => exact obeys_release (f := fun _ => .done _) (hΦ snapshot v.topology trivial)
      | none =>
        refine Obeys.bind (captureViewData_obeys (builder_only hv) fun r T =>
          obeys_act rfl fun _ => ?_)
        refine Obeys.bind (storeSnapshot_obeys (builder_only (v := v.learn T) hv) ?_)
        exact obeys_release (v := v.learn T) (obeys_act rfl fun _ => hΦ _ T trivial)

theorem collectWith_runs : alone.Runs (Sync.collectWith : Prog K V _) :=
  gated_runs (fun _ hv _ hΦ => captureViewData_obeys hv hΦ) fun _ => neutral_user (.done _)

theorem iter_runs : alone.Runs (Sync.iter env : Prog K V _) :=
  .ite collectWith_runs (captureSnapshot_runs.seq fun _ => (runs_act rfl).seq fun _ => runs_done _)

theorem snapshotAtVersion_runs (version : Nat) :
    alone.Runs (Sync.snapshotAtVersion env version : Prog K V _) :=
  (runs_act (a := .writeEpoch) rfl).seq fun (_ : Nat) =>
    .ite (runs_done _) (captureSnapshot_runs.seq fun _ => runs_done _)

end Snapshots
end Starshard.Locking
