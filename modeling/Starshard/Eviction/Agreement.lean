import Mathlib.Data.List.Flatten
import Starshard.Eviction.Global
import Starshard.Eviction.Metadata
import Starshard.Eviction.PerShard

/-! From a clean state both maps evict the same entries. -/
namespace Starshard.Eviction

open Data
open Worker (Tables slot)

variable {K V : Type} [DecidableEq K] {hash fx : K → Nat} {s : State K V} {p : Pass K V} {c : EvictionCandidate K}
  {cs : List (EvictionCandidate K)} {policy : CapacityPolicy} {limit i : Nat} {v : V}
  {options : Options} {target : Option Nat} {weight : K → V → Nat}

omit [DecidableEq K] in
theorem mem_foldl_lower {m : Option (EvictionCandidate K)}
    (hc : cs.foldl (Engine.lower policy) m = some c) : m = some c ∨ c ∈ cs := by
  induction cs generalizing m with
  | nil => exact .inl hc
  | cons d cs ih =>
    rcases ih hc with hm | hm
    · unfold Engine.lower at hm
      split at hm
      · exact .inr (by cases hm; exact List.mem_cons_self)
      · split at hm
        · exact .inr (by cases hm; exact List.mem_cons_self)
        · exact .inl hm
    · exact .inr (List.mem_cons_of_mem _ hm)

namespace Clean

variable (h : Clean hash s)

include h

theorem live (hc : ∀ c ∈ cs, ∃ x ∈ s.engine.entries, s.engine.candidate fx x = c)
    (hd : (cs.map EvictionCandidate.key).Nodup) : Live hash fx s cs where
  placed := h.placed
  clean := h.clean
  incarnations := h.incarnations
  weight := h.weight
  current := hc
  stored c hmem := by
    obtain ⟨x, hx, rfl⟩ := hc c hmem
    exact h.stored hx
  distinct := hd

theorem candidates_eq :
    s.engine.candidates fx policy = ranked policy (s.engine.entries.map (s.engine.candidate fx)) := by
  unfold Engine.candidates
  rw [h.clean]
  rfl

theorem candidates_perm :
    (s.engine.candidates fx policy).Perm (s.engine.entries.map (s.engine.candidate fx)) := by
  rw [h.candidates_eq]
  exact List.mergeSort_perm _ _

theorem live_candidates : Live hash fx s (s.engine.candidates fx policy) := by
  refine h.live (fun c hc => ?_) ?_
  · obtain ⟨x, hx, rfl⟩ := List.mem_map.mp (h.candidates_perm.subset hc)
    exact ⟨x, hx, rfl⟩
  · refine (h.candidates_perm.map EvictionCandidate.key).nodup_iff.mpr ?_
    rw [List.map_map]
    exact h.keys_nodup

theorem live_minimum : Live hash fx s (s.engine.minimumCandidate fx policy).toList := by
  refine h.live (fun c hc => ?_) ?_
  · unfold Engine.minimumCandidate at hc
    rw [h.clean] at hc
    obtain ⟨x, hx, rfl⟩ := List.mem_map.mp
      ((mem_foldl_lower (Option.mem_toList.mp hc)).resolve_left nofun)
    exact ⟨x, hx, rfl⟩
  · cases s.engine.minimumCandidate fx policy <;> simp

theorem live_selected :
    Live hash fx s (Async.selectCandidates fx options policy target s) := by
  unfold Async.selectCandidates
  split
  · exact h.live_minimum
  · exact h.live_candidates

theorem ranking_perm (i : Nat) :
    ((s.ranking fx policy i).map EvictionCandidate.key).Perm (s.shard ⟨false, i⟩).keys := by
  unfold State.ranking Engine.candidatesForKeys
  rw [h.clean, if_neg Bool.false_ne_true]
  refine ((List.mergeSort_perm _ _).map _).trans ?_
  rw [List.map_filterMap]
  have hsome : ∀ k ∈ (s.shard ⟨false, i⟩).keys,
      Option.map EvictionCandidate.key ((s.engine.find? fx k).map (s.engine.candidate fx)) =
        some k := by
    intro k hk
    obtain ⟨v, hv⟩ := Option.isSome_iff_exists.mp (AList.lookup_isSome.mpr hk)
    have hl : s.tables.lookup hash k = some v := h.placed.stores_iff.mp (.inl ⟨i, hv⟩)
    obtain ⟨x, -, rfl, hx⟩ := h.find fx (k := k) (by rw [hl]; rfl)
    rw [hx]
    rfl
  rw [List.filterMap_congr hsome, List.filterMap_some]

theorem mem_ranking_current (hc : c ∈ s.ranking fx policy i) :
    ∃ x ∈ s.engine.entries, s.engine.candidate fx x = c := by
  unfold State.ranking Engine.candidatesForKeys at hc
  rw [h.clean, if_neg Bool.false_ne_true] at hc
  obtain ⟨k, -, hmap⟩ := List.mem_filterMap.mp (List.mem_mergeSort.mp hc)
  obtain ⟨x, hx, rfl⟩ := Option.map_eq_some_iff.mp hmap
  exact ⟨x, (Engine.find?_eq_some hx).1, rfl⟩

theorem live_shards {is : List Nat} (hd : is.Nodup) :
    Live hash fx s (is.flatMap (s.ranking fx policy)) := by
  refine h.live (fun c hc => ?_) ?_
  · obtain ⟨i, -, hi⟩ := List.mem_flatMap.mp hc
    exact h.mem_ranking_current hi
  · rw [List.map_flatMap, List.nodup_flatMap]
    refine ⟨fun i _ => (h.ranking_perm i).nodup_iff.mpr (AList.keys_nodup _), hd.imp fun {i j} hij => ?_⟩
    intro k hi hj
    obtain ⟨v, hv⟩ := Option.isSome_iff_exists.mp
      (AList.lookup_isSome.mpr ((h.ranking_perm i).subset hi))
    obtain ⟨w, hw⟩ := Option.isSome_iff_exists.mp
      (AList.lookup_isSome.mpr ((h.ranking_perm j).subset hj))
    exact hij ((index_of_shard h.placed hv).symm.trans (index_of_shard h.placed hw))

theorem ranking_length (i : Nat) :
    (s.ranking fx policy i).length = (s.shard ⟨false, i⟩).size := by
  rw [← List.length_map (f := EvictionCandidate.key), (h.ranking_perm i).length_eq,
    Assoc.size_eq_keys]

end Clean

section Tallies

theorem foldl_count {α : Type} (g : α → Nat) (l : List α) (counts : Nat → Nat) :
    l.foldl (fun counts a => Function.update counts (g a) (counts (g a) + 1)) counts =
      fun i => counts i + l.countP fun a => decide (g a = i) := by
  induction l generalizing counts with
  | nil => rfl
  | cons a l ih =>
    rw [List.foldl_cons, ih]
    funext i
    rw [List.countP_cons]
    by_cases hi : g a = i
    · subst hi
      simp
      omega
    · simp [hi, Function.update_of_ne (Ne.symm hi)]

omit [DecidableEq K] in
theorem foldl_tally (q : Async.Planning K V) :
    cs.foldl (fun p c =>
      let index := s.shardIndex hash c.key
      { p with
        counts := Function.update p.counts index (p.counts index + 1)
        weighted := p.weighted + c.weight }) q =
      { q with
        counts := fun i => q.counts i + cs.countP fun c => decide (s.shardIndex hash c.key = i)
        weighted := q.weighted + (cs.map EvictionCandidate.weight).sum } := by
  induction cs generalizing q with
  | nil => rfl
  | cons c cs ih =>
    rw [List.foldl_cons, ih]
    dsimp only
    congr 1
    · funext i
      rw [List.countP_cons]
      by_cases hi : s.shardIndex hash c.key = i
      · subst hi
        simp
        omega
      · simp [hi, Function.update_of_ne (Ne.symm hi)]
    · rw [List.map_cons, List.sum_cons]
      omega

variable (hash) in
def startTally (cs : List (EvictionCandidate K)) (s : State K V) : Tally where
  remaining := s.totalLen
  counts := fun i => cs.countP fun c => decide (s.shardIndex hash c.key = i)
  weighted := (cs.map EvictionCandidate.weight).sum

omit [DecidableEq K] in
theorem tally_eq : Async.tally hash cs s =
    ⟨s.totalLen, (startTally hash cs s).counts, (startTally hash cs s).weighted, [], s.engine⟩ := by
  unfold Async.tally
  rw [foldl_tally]
  simp [startTally]

variable (h : Clean hash s)

include h

theorem startTally_counts :
    (startTally hash (s.engine.candidates fx policy) s).counts = Sync.countShards hash s := by
  unfold startTally Sync.countShards
  rw [foldl_count fun e : K × V => s.shardIndex hash e.1]
  funext i
  have hkeys : ((s.engine.candidates fx policy).map EvictionCandidate.key).Perm
      (s.tables.entries.map Prod.fst) := by
    refine (h.candidates_perm.map _).trans ?_
    rw [List.map_map]
    exact h.tracked
  have := hkeys.countP_eq fun k => decide (s.shardIndex hash k = i)
  rw [List.countP_map, List.countP_map] at this
  simpa [Function.comp_def] using this

theorem startTally_weighted :
    (startTally hash (s.engine.candidates fx policy) s).weighted = s.engine.weight := by
  unfold startTally
  rw [h.weight, (h.candidates_perm.map EvictionCandidate.weight).sum_nat, List.map_map]
  rfl

end Tallies

section Passes

variable (hash fx) in
/-- What a pass under exclusive routing evicts. -/
def globalVictims (options : Options) (policy : CapacityPolicy) (target : Option Nat)
    (s : State K V) : List (EvictionCandidate K) :=
  let cs := Async.selectCandidates fx options policy target s
  victims options target (s.shardIndex hash ·.key) (startTally hash cs s) cs

variable (fx) in
/-- What a pass evicts that trims one shard after the other. -/
def shardVictims (policy : CapacityPolicy) (limit : Nat) (s : State K V) :
    List (EvictionCandidate K) :=
  (List.range s.tables.active.length).flatMap (s.excess fx policy limit)

variable (hash fx) in
/-- A pass started in `s` ends with the victims removed. -/
def Removes (s : State K V) (vs : List (EvictionCandidate K)) (p : Pass K V) : Prop :=
  p.removed = (Pass.takeAll hash fx ⟨s, []⟩ vs).removed ∧
    p.state.tables = (Pass.takeAll hash fx ⟨s, []⟩ vs).state.tables

/-- What a pass removes does not depend on the metadata it starts with. -/
theorem Pass.takeAll_congr {q : Pass K V} (ht : p.state.tables = q.state.tables)
    (hr : p.removed = q.removed) :
    (p.takeAll hash fx cs).removed = (q.takeAll hash fx cs).removed ∧
      (p.takeAll hash fx cs).state.tables = (q.takeAll hash fx cs).state.tables := by
  induction cs generalizing p q with
  | nil => exact ⟨hr, ht⟩
  | cons c cs ih =>
    refine ih ?_ ?_
    · exact congrArg (Tables.remove hash c.key) ht
    · unfold take
      dsimp only
      rw [hr, ht]

omit [DecidableEq K] in
theorem globalVictims_sublist :
    (globalVictims hash fx options policy target s).Sublist
      (Async.selectCandidates fx options policy target s) :=
  victims_sublist _

theorem Async.overfull_excess :
    (overfull limit s).flatMap (s.excess fx policy limit) = shardVictims fx policy limit s := by
  unfold overfull shardVictims
  induction List.range s.tables.active.length with
  | nil => rfl
  | cons i is ih =>
    rw [List.filter_cons]
    split
    · rw [List.flatMap_cons, List.flatMap_cons, ih]
    · next hi =>
      rw [List.flatMap_cons, ih, excess_eq_nil, List.nil_append]
      by_contra hgt
      change ¬ (slot s.tables.active i).size ≤ limit at hgt
      unfold slot at hgt
      cases hm : s.tables.active[i]?.join with
      | none =>
        rw [hm] at hgt
        exact hgt (Nat.zero_le _)
      | some m =>
        rw [hm] at hi hgt
        exact hi (by simpa using hgt)

omit [DecidableEq K] in
theorem Sync.selected_eq (hover : options.maxItemsPerShard.isSome = true ∨
    target.any (s.totalLen > ·) = true ∨
      s.engine.overMemoryBudget options.toEvictionConfig = true) :
    selectCandidates fx options policy target s =
      Async.selectCandidates fx options policy target s := by
  unfold selectCandidates Async.selectCandidates
  rw [if_pos (by simpa [or_assoc] using hover)]

variable (h : Clean hash s)

include h

theorem Clean.markPending : Clean hash { s with engine := s.engine.markPending } :=
  ⟨h.placed, h.clean, h.tracked, h.weight, h.total, h.incarnations, h.inserted, h.accessed⟩

theorem Clean.reconcile : s.reconcile fx weight = s := by
  unfold State.reconcile
  rw [h.clean]
  rfl

theorem Clean.live_victims : Live hash fx s (globalVictims hash fx options policy target s) :=
  h.live_selected.sublist globalVictims_sublist

theorem Async.planned_eq (cs : List (EvictionCandidate K))
    (hcs : cs = selectCandidates fx options policy target s) :
    (cs.foldl (planStep hash fx options target s) (tally hash cs s)).engine = s.engine ∧
    (cs.foldl (planStep hash fx options target s) (tally hash cs s)).plans =
      (globalVictims hash fx options policy target s).map (place hash s) := by
  subst hcs
  rw [tally_eq]
  exact plan_eq h.live_selected rfl

theorem Async.removed_eq :
    ((globalVictims hash fx options policy target s).map (place hash s)).foldl (removeStep fx) ⟨s, []⟩ =
      Pass.takeAll hash fx ⟨s, []⟩ (globalVictims hash fx options policy target s) := by
  have hfst : ∀ vs : List (EvictionCandidate K), (vs.map (place hash s)).map Prod.fst = vs := by
    intro vs
    rw [List.map_map]
    exact List.map_id vs
  have hlive : Live hash fx s (globalVictims hash fx options policy target s) := h.live_victims
  rw [remove_eq (by rwa [hfst]) fun plan hplan => ?_, hfst]
  obtain ⟨c, hc, rfl⟩ := List.mem_map.mp hplan
  obtain ⟨l, v, hl, hv⟩ := located hlive hc
  exact ⟨v, by simpa [place, hl] using hv⟩

/-- The asynchronous pass removes the victims it planned. -/
theorem Async.maintainGlobal_removes :
    Removes hash fx s (globalVictims hash fx options policy target s)
      (maintainGlobal hash fx options weight policy target s) := by
  obtain ⟨s', hs'⟩ : ∃ s' : State K V, s' = { s with engine := s.engine.markPending.mutation } :=
    ⟨_, rfl⟩
  have h' : Clean hash s' := by
    rw [hs']
    exact h.markPending.markPending
  have hv : globalVictims hash fx options policy target s' =
      globalVictims hash fx options policy target s := by
    rw [hs']
    rfl
  have hplanned := planned_eq h' (selectCandidates fx options policy target s') rfl
  obtain ⟨he, hp⟩ := hplanned
  unfold maintainGlobal
  dsimp only
  rw [← hs', h'.reconcile, he, hp, removed_eq h', hv]
  exact Pass.takeAll_congr (by rw [hs']) rfl

theorem Sync.tracks_start {cs : List (EvictionCandidate K)}
    (hcs : cs = Async.selectCandidates fx options policy target s) (removed : List (K × V)) :
    Tracks options (startTally hash cs s)
      ⟨⟨s, removed⟩, if options.maxItemsPerShard.isSome then countShards hash s else fun _ => 0,
        s.engine.overMemoryBudget options.toEvictionConfig⟩ := by
  have hall : options.maxItemsPerShard.isSome ∨ options.memoryBudget.isSome →
      cs = s.engine.candidates fx policy := by
    intro hlimit
    rw [hcs]
    unfold Async.selectCandidates
    rw [if_neg]
    rcases hlimit with hm | hb
    · simp [Option.isNone_eq_false_iff.mpr hm]
    · simp [Option.isNone_eq_false_iff.mpr hb]
  refine ⟨rfl, fun hm => ?_, fun hb => ?_, ?_⟩
  · rw [hall (.inl hm), if_pos hm]
    exact startTally_counts h
  · rw [hall (.inr hb)]
    exact startTally_weighted h
  · dsimp only [Engine.overMemoryBudget]
    cases hb : options.memoryBudget with
    | none => rfl
    | some b =>
      rw [hall (.inr (by rw [hb]; rfl)), startTally_weighted h]

theorem globalVictims_eq_nil (hm : options.maxItemsPerShard = none)
    (ht : target.any (s.totalLen > ·) = false)
    (hw : s.engine.overMemoryBudget options.toEvictionConfig = false) :
    globalVictims hash fx options policy target s = [] := by
  have htracks := Sync.tracks_start h
    (rfl : _ = Async.selectCandidates fx options policy target s) []
  refine Greedy.choose_eq_nil fun c _ => ?_
  unfold exceeds
  rw [← htracks.overWeight, hw, hm]
  simpa [startTally] using ht

/-- The synchronous loop removes the same victims. -/
theorem Sync.swept_eq :
    (sweep hash fx options target (selectCandidates fx options policy target s)
      ⟨⟨s, []⟩, if options.maxItemsPerShard.isSome then countShards hash s else fun _ => 0,
        s.engine.overMemoryBudget options.toEvictionConfig⟩).pass =
      Pass.takeAll hash fx ⟨s, []⟩ (globalVictims hash fx options policy target s) := by
  by_cases hover : options.maxItemsPerShard.isSome = true ∨
      target.any (s.totalLen > ·) = true ∨
        s.engine.overMemoryBudget options.toEvictionConfig = true
  · rw [selected_eq hover]
    exact sweep_eq h.live_selected (tracks_start h rfl []) rfl
  · simp only [not_or, Bool.not_eq_true, Option.isSome_eq_false_iff, Option.isNone_iff_eq_none]
      at hover
    obtain ⟨hm, ht, hw⟩ := hover
    rw [globalVictims_eq_nil h hm ht hw]
    unfold selectCandidates
    rw [hm, ht, hw]
    rfl

theorem Sync.evictGlobal_removes :
    Removes hash fx s (globalVictims hash fx options policy target s)
      (evictGlobal hash fx options weight policy target ⟨s, []⟩) := by
  obtain ⟨s', hs'⟩ : ∃ s' : State K V, s' = { s with engine := s.engine.mutation } := ⟨_, rfl⟩
  have h' : Clean hash s' := by
    rw [hs']
    exact h.markPending
  have hv : globalVictims hash fx options policy target s' =
      globalVictims hash fx options policy target s := by
    rw [hs']
    rfl
  unfold evictGlobal
  dsimp only
  rw [← hs', h'.reconcile, swept_eq h', hv]
  exact Pass.takeAll_congr (by rw [hs']) rfl

theorem Clean.live_shardVictims : Live hash fx s (shardVictims fx policy limit s) :=
  (h.live_shards List.nodup_range).sublist
    (List.Sublist.flatMap_right _ fun _ _ => List.take_sublist _ _)

theorem Sync.evictPerShard_removes :
    Removes hash fx s (shardVictims fx policy limit s)
      (evictPerShard hash fx options weight policy limit s) := by
  obtain ⟨s', hs'⟩ : ∃ s' : State K V, s' = { s with engine := s.engine.mutation } := ⟨_, rfl⟩
  have h' : Clean hash s' := by
    rw [hs']
    exact h.markPending
  have hv : shardVictims fx policy limit s' = shardVictims fx policy limit s := by
    rw [hs']
    rfl
  have hlimit : limitShards fx policy limit ⟨s', []⟩ =
      (Pass.takeAll hash fx ⟨s', []⟩ (shardVictims fx policy limit s'), false) :=
    limitShards_eq (h'.live_shards List.nodup_range) (fun i _ => h'.ranking_length i)
      List.nodup_range false
  have hclean : (Pass.takeAll hash fx ⟨s', []⟩ (shardVictims fx policy limit s')).state.engine.dirty =
      false := by
    have hall : Live hash fx s' (shardVictims fx policy limit s' ++ []) := by
      rw [List.append_nil]
      exact h'.live_shardVictims
    exact hall.takeAll.clean
  unfold evictPerShard
  dsimp only
  rw [← hs', hlimit, hclean, hv]
  exact Pass.takeAll_congr (by rw [hs']) rfl

theorem Async.trimmed_eq :
    (shardPlans fx policy limit s).foldl (trimStep fx limit) ⟨s, []⟩ =
      Pass.takeAll hash fx ⟨s, []⟩ (shardVictims fx policy limit s) := by
  rw [← overfull_excess]
  have hd : (overfull limit s).Nodup := List.nodup_range.filter _
  exact plans_eq (h.live_shards hd) (fun _ _ => rfl) hd

theorem Async.maintainPerShard_removes (fx : K → Nat) (hm : options.maxItemsPerShard = some limit)
    (hp : s.tables.previousShardCount = 0) :
    ∃ p, maintainPerShard fx options s = some p ∧
      Removes hash fx s (shardVictims fx options.policy limit s) p := by
  obtain ⟨s', hs'⟩ : ∃ s' : State K V, s' = { s with engine := s.engine.mutation } := ⟨_, rfl⟩
  have h' : Clean hash s' := by
    rw [hs']
    exact h.markPending
  have hv : shardVictims fx options.policy limit s' = shardVictims fx options.policy limit s := by
    rw [hs']
    rfl
  unfold maintainPerShard
  rw [hm]
  dsimp only
  rw [if_neg (by simp [hp, h.clean]), ← hs', trimmed_eq h', hv]
  exact ⟨_, rfl, Pass.takeAll_congr (by rw [hs']) rfl⟩

end Passes

section Layout

omit [DecidableEq K] in
theorem ranked_pairwise (policy : CapacityPolicy) (cs : List (EvictionCandidate K)) :
    (ranked policy cs).Pairwise fun a b => rank policy a ≤ rank policy b := by
  have h : (ranked policy cs).Pairwise fun a b => decide (rank policy a ≤ rank policy b) = true := by
    refine List.pairwise_mergeSort (fun a b c hab hbc => ?_) (fun a b => ?_) cs
    · simp only [decide_eq_true_eq] at hab hbc ⊢
      exact hab.trans hbc
    · simpa using le_total (rank policy a) (rank policy b)
  exact h.imp fun h => by simpa using h

omit [DecidableEq K] in
theorem stamp_of_rank {e : Engine K} {x y : Entry K}
    (hr : rank policy (e.candidate fx x) = rank policy (e.candidate fx y)) :
    match policy with
    | .lru | .lfu => x.accessed = y.accessed
    | .fifo => x.inserted = y.inserted := by
  cases policy with
  | lru => exact (Prod.mk.inj (toLex_inj.mp hr)).1
  | lfu => exact (Prod.mk.inj (toLex_inj.mp (Prod.mk.inj (toLex_inj.mp hr)).2)).1
  | fifo => exact (Prod.mk.inj (toLex_inj.mp hr)).1

variable (h : Clean hash s)

include h

theorem Clean.rank_inj {x y : Entry K} (hx : x ∈ s.engine.entries) (hy : y ∈ s.engine.entries)
    (hr : rank policy (s.engine.candidate fx x) = rank policy (s.engine.candidate fx y)) :
    x = y := by
  have hstamp := stamp_of_rank hr
  cases policy with
  | lru | lfu => exact List.inj_on_of_nodup_map h.accessed hx hy hstamp
  | fifo => exact List.inj_on_of_nodup_map h.inserted hx hy hstamp

theorem Clean.previous_eq_none (hp : s.tables.previousShardCount = 0) :
    s.tables.previous = none := by
  cases hq : s.tables.previous with
  | none => rfl
  | some q =>
    have := h.placed.sources q hq
    rw [h.placed.length q hq, hp] at this
    omega

theorem Clean.mem_ranking_iff (hp : s.tables.previousShardCount = 0) :
    c ∈ s.ranking fx policy i ↔
      (∃ x ∈ s.engine.entries, s.engine.candidate fx x = c) ∧ s.shardIndex hash c.key = i := by
  constructor
  · intro hc
    obtain ⟨v, hv⟩ := mem_ranking hc
    exact ⟨h.mem_ranking_current hc, index_of_shard h.placed hv⟩
  · rintro ⟨⟨x, hx, rfl⟩, hi⟩
    obtain ⟨v, hv⟩ := Option.isSome_iff_exists.mp (h.stored hx)
    have hin : (s.shard ⟨false, i⟩).lookup x.key = some v := by
      rcases Tables.lookup_eq_some.mp hv with hv | ⟨-, q, hq, -⟩
      · rw [← hi]
        exact hv
      · rw [h.previous_eq_none hp] at hq
        cases hq
    obtain ⟨y, hy, hk, hfind⟩ := h.find fx (k := x.key) (by rw [hv]; rfl)
    obtain rfl : y = x := List.inj_on_of_nodup_map h.keys_nodup hy hx hk
    unfold State.ranking Engine.candidatesForKeys
    rw [h.clean, if_neg Bool.false_ne_true]
    refine List.mem_mergeSort.mpr (List.mem_filterMap.mpr ⟨y.key, ?_, by rw [hfind]; rfl⟩)
    exact AList.lookup_isSome.mp (by rw [hin]; rfl)

/-- On a stable layout a shard's ranking is its part of the ranking of all entries. -/
theorem Clean.filter_candidates (hp : s.tables.previousShardCount = 0) (i : Nat) :
    (s.engine.candidates fx policy).filter (fun c => decide (s.shardIndex hash c.key = i)) =
      s.ranking fx policy i := by
  have hmem : ∀ c, c ∈ (s.engine.candidates fx policy).filter
      (fun c => decide (s.shardIndex hash c.key = i)) ↔ c ∈ s.ranking fx policy i := by
    intro c
    rw [h.mem_ranking_iff hp, List.mem_filter, h.candidates_perm.mem_iff, List.mem_map,
      decide_eq_true_iff]
  have hn : (s.engine.candidates fx policy).Nodup := h.live_candidates.distinct.of_map
  have hn' : (s.ranking fx policy i).Nodup := List.Nodup.of_map EvictionCandidate.key
    ((h.ranking_perm i).nodup_iff.mpr (AList.keys_nodup _))
  have hsorted : (s.engine.candidates fx policy).Pairwise fun a b =>
      rank policy a ≤ rank policy b := by
    rw [h.candidates_eq]
    exact ranked_pairwise _ _
  have hsorted' : (s.ranking fx policy i).Pairwise fun a b => rank policy a ≤ rank policy b := by
    unfold State.ranking Engine.candidatesForKeys
    rw [h.clean, if_neg Bool.false_ne_true]
    exact ranked_pairwise _ _
  refine ((List.perm_ext_iff_of_nodup (hn.filter _) hn').mpr hmem).eq_of_pairwise
    (fun a b ha hb hab hba => ?_) (hsorted.filter _) hsorted'
  obtain ⟨x, hx, rfl⟩ := h.mem_ranking_current ((hmem a).mp ha)
  obtain ⟨y, hy, rfl⟩ := h.mem_ranking_current hb
  rw [h.rank_inj hx hy (le_antisymm hab hba)]

/-- On a stable layout a limit for each shard has the same victims either way. -/
theorem Clean.victims_perm (hm : options.maxItemsPerShard = some limit)
    (hb : options.memoryBudget = none) (hp : s.tables.previousShardCount = 0) :
    (globalVictims hash fx options policy none s).Perm (shardVictims fx policy limit s) := by
  have hsel : Async.selectCandidates fx options policy none s = s.engine.candidates fx policy := by
    unfold Async.selectCandidates
    rw [hm]
    rfl
  have hchoose : globalVictims hash fx options policy none s =
      Greedy.choose (Greedy.exceedsGroup (s.shardIndex hash ·.key) limit)
        (Greedy.dropGroup (s.shardIndex hash ·.key)) (Sync.countShards hash s)
        (s.engine.candidates fx policy) := by
    unfold globalVictims
    dsimp only
    rw [hsel]
    refine Greedy.choose_congr (fun t counts => t.counts = counts) (fun t _ ht c _ => ?_)
      (fun t _ ht c _ _ => ?_) (startTally_counts h)
    · subst ht
      simp [exceeds, hm, hb, Greedy.exceedsGroup]
    · subst ht
      rfl
  have hcount : ∀ i, Sync.countShards hash s i = (s.shard ⟨false, i⟩).size := by
    intro i
    have hcounts : (startTally hash (s.engine.candidates fx policy) s).counts =
        Sync.countShards hash s := startTally_counts h
    have hlen : (s.ranking fx policy i).length = (s.shard ⟨false, i⟩).size := h.ranking_length i
    rw [← hcounts, ← hlen, ← h.filter_candidates hp i]
    exact List.countP_eq_length_filter
  have hgroup : ∀ i, (globalVictims hash fx options policy none s).filter
      (fun c => decide (s.shardIndex hash c.key = i)) = s.excess fx policy limit i := by
    intro i
    rw [hchoose, Greedy.filter_chooseGroup, h.filter_candidates hp, hcount]
    rfl
  have hn : (globalVictims hash fx options policy none s).Nodup := h.live_victims.distinct.of_map
  have hn' : (shardVictims fx policy limit s).Nodup := h.live_shardVictims.distinct.of_map
  refine (List.perm_ext_iff_of_nodup hn hn').mpr fun c => ?_
  have hi : s.shardIndex hash c.key < s.tables.active.length := h.placed.index_lt c.key
  have hc : c ∈ globalVictims hash fx options policy none s ↔
      c ∈ s.excess fx policy limit (s.shardIndex hash c.key) := by
    rw [← hgroup]
    simp
  rw [hc]
  constructor
  · exact fun hmem => List.mem_flatMap.mpr ⟨_, List.mem_range.mpr hi, hmem⟩
  · intro hmem
    obtain ⟨i, -, hi⟩ := List.mem_flatMap.mp hmem
    obtain ⟨v, hv⟩ := mem_ranking (List.mem_of_mem_take hi)
    rwa [index_of_shard h.placed hv]

end Layout

section Outcome

variable {vs ws : List (EvictionCandidate K)} {a b : Pass K V}

theorem Removes.agree (hv : Live hash fx s vs) (hw : Live hash fx s ws) (hvw : vs.Perm ws)
    (ha : Removes hash fx s vs a) (hb : Removes hash fx s ws b) :
    a.removed.Perm b.removed ∧ a.removed.length = b.removed.length ∧
      (∀ k, a.state.tables.lookup hash k = b.state.tables.lookup hash k) ∧
      ∀ k v, (k, v) ∈ a.removed ↔
        s.tables.lookup hash k = some v ∧ a.state.tables.lookup hash k = none := by
  have hperm : a.removed.Perm b.removed := by
    rw [ha.1, hb.1, Pass.removed_takeAll hv.distinct, Pass.removed_takeAll hw.distinct]
    exact (hvw.filterMap _).append_left []
  refine ⟨hperm, hperm.length_eq, fun k => ?_, fun k v => ?_⟩
  · rw [ha.2, hb.2, Pass.lookup_takeAll, Pass.lookup_takeAll]
    have := (hvw.map EvictionCandidate.key).mem_iff (a := k)
    by_cases hk : k ∈ vs.map EvictionCandidate.key
    · rw [if_pos hk, if_pos (this.mp hk)]
    · rw [if_neg hk, if_neg fun h => hk (this.mpr h)]
  · rw [ha.1, ha.2, Pass.removed_takeAll hv.distinct, Pass.lookup_takeAll, List.nil_append,
      List.mem_filterMap]
    constructor
    · rintro ⟨c, hc, hmap⟩
      obtain ⟨w, hw, he⟩ := Option.map_eq_some_iff.mp hmap
      obtain ⟨rfl, rfl⟩ := Prod.mk.inj he
      exact ⟨hw, if_pos (List.mem_map.mpr ⟨c, hc, rfl⟩)⟩
    · rintro ⟨hl, hn⟩
      split at hn
      · next hk =>
        obtain ⟨c, hc, rfl⟩ := List.mem_map.mp hk
        exact ⟨c, hc, by
          dsimp only
          rw [hl]
          rfl⟩
      · rw [hl] at hn
        cases hn

theorem removes_nil (e : Engine K) : Removes hash fx s [] ⟨{ s with engine := e }, []⟩ := ⟨rfl, rfl⟩

variable {requested : Option Nat} {forced : Option CapacityPolicy}

theorem Sync.runEviction_unlimited (hm : options.maxItemsPerShard = none) :
    runEviction hash fx options weight requested forced s =
      if withinLimits options (entryLimit requested options.maxEntries) s then
        ⟨{ s with engine := s.engine.markMaintained s.engine.maintenanceGeneration }, []⟩
      else evictGlobal hash fx options weight (forced.getD options.policy)
        (entryLimit requested options.maxEntries) ⟨s, []⟩ := by
  unfold runEviction
  dsimp only
  rw [hm]

theorem Sync.runEviction_limited (hm : options.maxItemsPerShard = some limit)
    (hd : s.engine.dirty = false) :
    runEviction hash fx options weight requested forced s =
      if requested = none ∧ options.memoryBudget = none ∧ s.tables.previousShardCount = 0 then
        evictPerShard hash fx options weight (forced.getD options.policy) limit s
      else evictGlobal hash fx options weight (forced.getD options.policy) requested ⟨s, []⟩ := by
  have ht : entryLimit requested options.maxEntries = requested := by
    rw [options.entryLimits.resolve_right (by simp [hm])]
    cases requested <;> rfl
  unfold runEviction
  dsimp only
  rw [ht, hm, if_neg (by simp [withinLimits, hm]), hd]
  simp [and_assoc]

theorem Async.maintainEviction_unlimited (hm : options.maxItemsPerShard = none) :
    maintainEviction hash fx options weight requested forced s =
      if withinLimits options (entryLimit requested options.maxEntries) s then
        ⟨{ s with engine := s.engine.markMaintained s.engine.maintenanceGeneration }, []⟩
      else maintainGlobal hash fx options weight (forced.getD options.policy)
        (entryLimit requested options.maxEntries) s := by
  unfold maintainEviction
  dsimp only
  rw [if_neg (by simp [hm])]

theorem Async.maintainEviction_limited (hm : options.maxItemsPerShard = some limit)
    (hd : s.engine.dirty = false) :
    maintainEviction hash fx options weight requested forced s =
      if requested = none ∧ options.memoryBudget = none ∧ s.tables.previousShardCount = 0 ∧
          forced = none then
        (maintainPerShard fx options s).getD ⟨s, []⟩
      else maintainGlobal hash fx options weight (forced.getD options.policy) requested s := by
  have ht : entryLimit requested options.maxEntries = requested := by
    rw [options.entryLimits.resolve_right (by simp [hm])]
    cases requested <;> rfl
  unfold maintainEviction
  dsimp only
  rw [ht, if_neg (by simp [withinLimits, hm] : ¬ withinLimits options requested s = true)]
  by_cases hp : s.tables.previousShardCount = 0
  · have hsome : ∃ p, maintainPerShard fx options s = some p := by
      unfold maintainPerShard
      rw [hm]
      dsimp only
      rw [if_neg (by simp [hp, hd])]
      exact ⟨_, rfl⟩
    obtain ⟨p, hsome⟩ := hsome
    rw [hsome]
    by_cases hr : requested = none ∧ options.memoryBudget = none ∧ forced = none
    · obtain ⟨rfl, hb, rfl⟩ := hr
      simp [hm, hb, hp]
    · rw [if_neg, if_neg]
      · exact fun ⟨h₁, h₂, _, h₃⟩ => hr ⟨h₁, h₂, h₃⟩
      · simp only [Bool.and_eq_true, Option.isNone_iff_eq_none]
        exact fun ⟨⟨⟨h₁, h₃⟩, _⟩, h₂⟩ => hr ⟨h₁, h₂, h₃⟩
  · have hnone : maintainPerShard fx options s = none := by
      unfold maintainPerShard
      rw [hm]
      dsimp only
      rw [if_pos (by simp [hp])]
    rw [hnone, ite_self, if_neg fun hr => hp hr.2.2.1]

/-- A synchronous and an asynchronous maintenance pass from one clean state evict the
same entries, whichever limits, target and ranking they are given. -/
theorem maintenance_evicts_same_entries (options : Options) (weight : K → V → Nat)
    (requested : Option Nat) (forced : Option CapacityPolicy) (h : Clean hash s) :
    let a := Sync.runEviction hash fx options weight requested forced s
    let b := Async.maintainEviction hash fx options weight requested forced s
    a.removed.Perm b.removed ∧ a.removed.length = b.removed.length ∧
      (∀ k, a.state.tables.lookup hash k = b.state.tables.lookup hash k) ∧
      ∀ k v, (k, v) ∈ a.removed ↔
        s.tables.lookup hash k = some v ∧ a.state.tables.lookup hash k = none := by
  intro a b
  have hglobal (target : Option Nat) :
      Live hash fx s (globalVictims hash fx options (forced.getD options.policy) target s) :=
    h.live_victims
  cases hm : options.maxItemsPerShard with
  | none =>
    have ha : a = _ := Sync.runEviction_unlimited hm
    have hb : b = _ := Async.maintainEviction_unlimited hm
    rw [ha, hb]
    by_cases hwithin : withinLimits options (entryLimit requested options.maxEntries) s = true
    · have hlive : Live hash fx s [] := h.live (by simp) (by simp)
      rw [if_pos hwithin, if_pos hwithin]
      exact Removes.agree hlive hlive (.refl _) (removes_nil _) (removes_nil _)
    · rw [if_neg hwithin, if_neg hwithin]
      exact Removes.agree (hglobal _) (hglobal _) (.refl _) (Sync.evictGlobal_removes h)
        (Async.maintainGlobal_removes h)
  | some limit =>
    have ha : a = _ := Sync.runEviction_limited hm h.clean
    have hb : b = _ := Async.maintainEviction_limited hm h.clean
    rw [ha, hb]
    by_cases hcase : requested = none ∧ options.memoryBudget = none ∧
        s.tables.previousShardCount = 0
    · rw [if_pos hcase]
      obtain ⟨rfl, hbudget, hp⟩ := hcase
      have hshard : Live hash fx s (shardVictims fx (forced.getD options.policy) limit s) :=
        h.live_shardVictims
      cases forced with
      | none =>
        obtain ⟨p, hsome, hremoves⟩ := Async.maintainPerShard_removes h fx hm hp
        rw [if_pos ⟨rfl, hbudget, hp, rfl⟩, hsome]
        exact Removes.agree hshard hshard (.refl _) (Sync.evictPerShard_removes h) hremoves
      | some policy =>
        rw [if_neg fun hr => nomatch hr.2.2.2]
        exact Removes.agree hshard (hglobal none) (h.victims_perm hm hbudget hp).symm
          (Sync.evictPerShard_removes h) (Async.maintainGlobal_removes h)
    · rw [if_neg hcase, if_neg fun hr => hcase ⟨hr.1, hr.2.1, hr.2.2.1⟩]
      exact Removes.agree (hglobal _) (hglobal _) (.refl _) (Sync.evictGlobal_removes h)
        (Async.maintainGlobal_removes h)

/-- A map with two shards and a limit of one entry in each: three keys were written, and
the first one was read afterwards. -/
def twoShards : State Nat Nat :=
  ((((State.new Nat Nat 2).insert id id 1 10 1).insert id id 3 30 1).insert id id 2 20 1).read
    id id 1

theorem twoShards_clean : Clean id twoShards := by
  obtain ⟨_, -, h⟩ : ∃ m, m ≤ 5 ∧ Stamped id m twoShards :=
    ((((Stamped.new (by decide)).insert (by decide)).insert (by decide)).insert (by decide)).read
      (by decide)
  exact h.toClean

def oneEach : Options := ⟨⟨.lru, none, some 1, none⟩, .inl rfl⟩

theorem maintenance_evicts_same_entries_lru :
    ((Sync.runEviction id id oneEach (fun _ _ => 1) none none
      twoShards).removed.Perm
      (Async.maintainEviction id id oneEach (fun _ _ => 1) none none
        twoShards).removed) ∧
    ∀ v, (3, v) ∈ (Sync.runEviction id id oneEach (fun _ _ => 1) none
      none twoShards).removed ↔ twoShards.tables.lookup id 3 = some v ∧
        (Sync.runEviction id id oneEach (fun _ _ => 1) none
          none twoShards).state.tables.lookup id 3 = none := by
  obtain ⟨h₁, -, -, h₂⟩ := @maintenance_evicts_same_entries Nat Nat _ id id twoShards oneEach
    (fun _ _ => 1) none none twoShards_clean
  exact ⟨h₁, h₂ 3⟩

end Outcome

end Starshard.Eviction
