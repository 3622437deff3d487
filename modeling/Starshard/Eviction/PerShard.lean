import Starshard.Eviction.Victims

/-! Passes that pin the layout and trim one overfull shard after the other. -/
namespace Starshard.Eviction

open Data
open Worker (Tables slot)

variable {K V : Type} [DecidableEq K] (fx : K → Nat)

namespace State

def ranking (policy : CapacityPolicy) (s : State K V) (i : Nat) : List (EvictionCandidate K) :=
  s.engine.candidatesForKeys fx policy (s.shard ⟨false, i⟩).keys

def excess (policy : CapacityPolicy) (limit : Nat) (s : State K V) (i : Nat) :
    List (EvictionCandidate K) :=
  (s.ranking fx policy i).take ((s.shard ⟨false, i⟩).size - limit)

end State

variable {hash fx : K → Nat} {s : State K V} {p : Pass K V} {c : EvictionCandidate K}
  {cs : List (EvictionCandidate K)} {policy : CapacityPolicy} {limit i j : Nat} {v : V}

theorem mem_ranking (hc : c ∈ s.ranking fx policy i) :
    ∃ v, (s.shard ⟨false, i⟩).lookup c.key = some v := by
  unfold State.ranking Engine.candidatesForKeys at hc
  split at hc
  · cases hc
  · obtain ⟨k, hk, hmap⟩ := List.mem_filterMap.mp (List.mem_mergeSort.mp hc)
    obtain ⟨x, hx, rfl⟩ := Option.map_eq_some_iff.mp hmap
    obtain ⟨-, rfl⟩ := Engine.find?_eq_some hx
    exact Option.isSome_iff_exists.mp (AList.lookup_isSome.mpr hk)

theorem index_of_shard (h : s.tables.Placed hash) {k : K}
    (hv : (s.shard ⟨false, i⟩).lookup k = some v) : s.shardIndex hash k = i :=
  h.active i k v hv

theorem excess_eq_nil (h : (s.shard ⟨false, i⟩).size ≤ limit) :
    s.excess fx policy limit i = [] := by
  unfold State.excess
  rw [Nat.sub_eq_zero_of_le h, List.take_zero]

theorem excess_congr {s' : State K V} (h : s'.shard ⟨false, i⟩ = s.shard ⟨false, i⟩)
    (h' : s'.ranking fx policy i = s.ranking fx policy i) :
    s'.excess fx policy limit i = s.excess fx policy limit i := by
  unfold State.excess
  rw [h, h']

section Take

theorem size_take (h : p.state.tables.Placed hash)
    (hv : (p.state.shard ⟨false, i⟩).lookup c.key = some v) :
    ((p.take hash fx c).state.shard ⟨false, i⟩).size = (p.state.shard ⟨false, i⟩).size - 1 := by
  rw [Pass.shard_take, if_pos (index_of_shard h hv).symm, Assoc.size_erase, hv]
  rfl

theorem size_takeAll (h : Live hash fx p.state cs)
    (hin : ∀ c ∈ cs, ∃ v, (p.state.shard ⟨false, i⟩).lookup c.key = some v) :
    ((p.takeAll hash fx cs).state.shard ⟨false, i⟩).size =
      (p.state.shard ⟨false, i⟩).size - cs.length := by
  induction cs generalizing p with
  | nil => rfl
  | cons c cs ih =>
    obtain ⟨v, hv⟩ := hin c List.mem_cons_self
    have hrest : ∀ d ∈ cs, ∃ v, ((p.take hash fx c).state.shard ⟨false, i⟩).lookup d.key =
        some v := by
      intro d hd
      obtain ⟨w, hw⟩ := hin d (List.mem_cons_of_mem _ hd)
      have hk : d.key ≠ c.key := fun hk =>
        (List.nodup_cons.mp h.distinct).1 (List.mem_map.mpr ⟨d, hd, hk⟩)
      exact ⟨w, (Pass.lookup_shard_take hk _).trans hw⟩
    change (((p.take hash fx c).takeAll hash fx cs).state.shard ⟨false, i⟩).size = _
    rw [ih h.take hrest, size_take h.placed hv, List.length_cons]
    omega

theorem shard_take_ne (hj : p.state.shardIndex hash c.key ≠ j) :
    (p.take hash fx c).state.shard ⟨false, j⟩ = p.state.shard ⟨false, j⟩ := by
  rw [Pass.shard_take, if_neg hj.symm]

theorem ranking_take_ne (h : Live hash fx p.state (c :: cs))
    (hj : p.state.shardIndex hash c.key ≠ j) :
    (p.take hash fx c).state.ranking fx policy j = p.state.ranking fx policy j := by
  obtain ⟨x, pre, post, h₁, h₂, -, rfl⟩ := h.split
  have hdirty : (p.take hash fx (p.state.engine.candidate fx x)).state.engine.dirty =
      p.state.engine.dirty := (Engine.recordEviction_same _).2
  unfold State.ranking Engine.candidatesForKeys
  rw [hdirty, shard_take_ne hj]
  congr 2
  refine List.filterMap_congr fun k hk => ?_
  have hne : x.key ≠ k := by
    rintro rfl
    obtain ⟨v, hv⟩ := Option.isSome_iff_exists.mp (AList.lookup_isSome.mpr hk)
    exact hj (index_of_shard h.placed hv)
  have hcand : (p.take hash fx (p.state.engine.candidate fx x)).state.engine.candidate fx =
      p.state.engine.candidate fx := funext Live.candidate_take
  rw [Engine.find?_split h₁ h₂ hne, hcand]

theorem aside_takeAll (policy : CapacityPolicy) (h : Live hash fx p.state cs)
    (hj : ∀ c ∈ cs, p.state.shardIndex hash c.key ≠ j) :
    (p.takeAll hash fx cs).state.shard ⟨false, j⟩ = p.state.shard ⟨false, j⟩ ∧
      (p.takeAll hash fx cs).state.ranking fx policy j = p.state.ranking fx policy j := by
  induction cs generalizing p with
  | nil => exact ⟨rfl, rfl⟩
  | cons c cs ih =>
    have hc := hj c List.mem_cons_self
    obtain ⟨h₁, h₂⟩ := ih h.take fun d hd => hj d (List.mem_cons_of_mem _ hd)
    exact ⟨h₁.trans (shard_take_ne hc), h₂.trans (ranking_take_ne h hc)⟩

end Take

omit [DecidableEq K] in
/-- A candidate of a shard that is over its limit is removed, and the others follow. -/
theorem take_excess (n : Nat) (h : limit < n) :
    (c :: cs).take (n - limit) = c :: cs.take (n - 1 - limit) := by
  obtain ⟨d, hd⟩ : ∃ d, n - limit = d + 1 := ⟨n - limit - 1, by omega⟩
  rw [hd, List.take_succ_cons]
  congr 2
  omega

namespace Sync

theorem trim_eq (h : Live hash fx p.state cs)
    (hin : ∀ c ∈ cs, ∃ v, (p.state.shard ⟨false, i⟩).lookup c.key = some v) :
    trim fx limit ⟨false, i⟩ cs p = p.takeAll hash fx
      (cs.take ((p.state.shard ⟨false, i⟩).size - limit)) := by
  induction cs generalizing p with
  | nil => rw [List.take_nil]; rfl
  | cons c cs ih =>
    obtain ⟨v, hv⟩ := hin c List.mem_cons_self
    unfold trim
    split
    · next hle => rw [Nat.sub_eq_zero_of_le hle, List.take_zero]; rfl
    · next hgt =>
      rw [if_neg (by simp [h.validate List.mem_cons_self]), hv]
      dsimp only
      rw [Pass.evict_eq h.placed hv, take_excess _ (Nat.lt_of_not_le hgt),
        ih h.take fun d hd => ?_, size_take h.placed hv]
      · rfl
      · obtain ⟨w, hw⟩ := hin d (List.mem_cons_of_mem _ hd)
        have hk : d.key ≠ c.key := fun hk =>
          (List.nodup_cons.mp h.distinct).1 (List.mem_map.mpr ⟨d, hd, hk⟩)
        exact ⟨w, (Pass.lookup_shard_take hk _).trans hw⟩

theorem limitShards_eq {is : List Nat}
    (h : Live hash fx p.state (is.flatMap (p.state.ranking fx policy)))
    (hall : ∀ i ∈ is, (p.state.ranking fx policy i).length = (p.state.shard ⟨false, i⟩).size)
    (hd : is.Nodup) (b : Bool) :
    is.foldl (limitShard fx policy limit) (p, b) =
      (p.takeAll hash fx (is.flatMap (p.state.excess fx policy limit)), b) := by
  induction is generalizing p with
  | nil => rfl
  | cons i is ih =>
    obtain ⟨hi, hd⟩ := List.nodup_cons.mp hd
    rw [List.flatMap_cons] at h
    have hrank := h.sublist (List.sublist_append_left _ _)
    have hex := hrank.sublist (List.take_sublist ((p.state.shard ⟨false, i⟩).size - limit) _)
    have hstep : limitShard fx policy limit (p, b) i =
        (p.takeAll hash fx (p.state.excess fx policy limit i), b) := by
      unfold limitShard
      dsimp only
      cases hm : p.state.tables.active[i]?.join with
      | none =>
        have hempty : p.state.shard ⟨false, i⟩ = ∅ := Worker.slot_of_eq_none hm
        rw [excess_eq_nil (by rw [hempty]; exact Nat.zero_le _)]
        rfl
      | some m =>
        have hshard : p.state.shard ⟨false, i⟩ = m := by
          change slot p.state.tables.active i = m
          unfold slot
          rw [hm]
          rfl
        dsimp only
        split
        · next hle =>
          rw [excess_eq_nil (by rwa [hshard])]
          rfl
        · next hgt =>
          have htrim : trim fx limit ⟨false, i⟩ (p.state.engine.candidatesForKeys fx policy
              (p.state.shard ⟨false, i⟩).keys) p =
              p.takeAll hash fx (p.state.excess fx policy limit i) :=
            trim_eq hrank fun c hc => mem_ranking hc
          rw [← hshard, htrim]
          have hsize := size_takeAll (i := i) hex fun c hc => mem_ranking (List.mem_of_mem_take hc)
          have hlen := hall i List.mem_cons_self
          rw [← hshard] at hgt
          have hflag : ¬ limit < ((p.takeAll hash fx (p.state.excess fx policy limit i)).state.shard
              ⟨false, i⟩).size := by
            unfold State.excess
            rw [hsize, List.length_take, hlen]
            omega
          rw [decide_eq_false hflag, Bool.or_false]
    have haside : ∀ j ∈ is, (p.takeAll hash fx (p.state.excess fx policy limit i)).state.shard
          ⟨false, j⟩ = p.state.shard ⟨false, j⟩ ∧
        (p.takeAll hash fx (p.state.excess fx policy limit i)).state.ranking fx policy j =
          p.state.ranking fx policy j := by
      intro j hj
      refine aside_takeAll policy hex fun c hc hcj => hi ?_
      obtain ⟨v, hv⟩ := mem_ranking (List.mem_of_mem_take hc)
      rw [← index_of_shard h.placed hv, hcj]
      exact hj
    have hlive : Live hash fx (p.takeAll hash fx (p.state.excess fx policy limit i)).state
        (is.flatMap ((p.takeAll hash fx (p.state.excess fx policy limit i)).state.ranking fx
          policy)) := by
      rw [List.flatMap_congr fun j hj => (haside j hj).2]
      exact (h.sublist ((List.take_sublist _ _).append_right _)).takeAll
    rw [List.foldl_cons, hstep, ih hlive ?_ hd, List.flatMap_cons, Pass.takeAll_append]
    · rw [List.flatMap_congr fun j hj => excess_congr (haside j hj).1 (haside j hj).2]
    · intro j hj
      rw [(haside j hj).1, (haside j hj).2]
      exact hall j (List.mem_cons_of_mem _ hj)

end Sync

namespace Async

theorem trimSteps_eq (h : Live hash fx p.state cs)
    (hin : ∀ c ∈ cs, ∃ v, (p.state.shard ⟨false, i⟩).lookup c.key = some v) :
    (cs.map (·, i)).foldl (trimStep fx limit) p = p.takeAll hash fx
      (cs.take ((p.state.shard ⟨false, i⟩).size - limit)) := by
  induction cs generalizing p with
  | nil => rw [List.take_nil]; rfl
  | cons c cs ih =>
    obtain ⟨v, hv⟩ := hin c List.mem_cons_self
    rw [List.map_cons, List.foldl_cons]
    by_cases hle : (p.state.shard ⟨false, i⟩).size ≤ limit
    · have hstep : trimStep fx limit p (c, i) = p := by
        unfold trimStep
        dsimp only
        rw [decide_eq_true hle]
        rfl
      rw [hstep, ih (h.sublist (List.sublist_cons_self c cs)) fun d hd =>
        hin d (List.mem_cons_of_mem _ hd), Nat.sub_eq_zero_of_le hle, List.take_zero,
        List.take_zero]
    · have hstep : trimStep fx limit p (c, i) = p.take hash fx c := by
        unfold trimStep
        dsimp only
        rw [decide_eq_false hle, h.validate List.mem_cons_self, hv]
        exact Pass.evict_eq h.placed hv
      rw [hstep, take_excess _ (Nat.lt_of_not_le hle), ih h.take fun d hd => ?_,
        size_take h.placed hv]
      · rfl
      · obtain ⟨w, hw⟩ := hin d (List.mem_cons_of_mem _ hd)
        have hk : d.key ≠ c.key := fun hk =>
          (List.nodup_cons.mp h.distinct).1 (List.mem_map.mpr ⟨d, hd, hk⟩)
        exact ⟨w, (Pass.lookup_shard_take hk _).trans hw⟩

/-- The plans are made before the first deletion. -/
theorem plans_eq {is : List Nat} (h : Live hash fx p.state (is.flatMap (s.ranking fx policy)))
    (hs : ∀ i ∈ is, p.state.shard ⟨false, i⟩ = s.shard ⟨false, i⟩) (hd : is.Nodup) :
    (is.flatMap fun i => (s.ranking fx policy i).map (·, i)).foldl (trimStep fx limit) p =
      p.takeAll hash fx (is.flatMap (s.excess fx policy limit)) := by
  induction is generalizing p with
  | nil => rfl
  | cons i is ih =>
    obtain ⟨hi, hd⟩ := List.nodup_cons.mp hd
    rw [List.flatMap_cons] at h
    have hrank := h.sublist (List.sublist_append_left _ _)
    have hin : ∀ c ∈ s.ranking fx policy i, ∃ v, (p.state.shard ⟨false, i⟩).lookup c.key =
        some v := fun c hc => by
      rw [hs i List.mem_cons_self]
      exact mem_ranking hc
    have hex := hrank.sublist (List.take_sublist ((s.shard ⟨false, i⟩).size - limit) _)
    rw [List.flatMap_cons, List.foldl_append, trimSteps_eq hrank hin, hs i List.mem_cons_self,
      List.flatMap_cons, Pass.takeAll_append]
    refine ih (h.sublist ((List.take_sublist _ _).append_right _)).takeAll (fun j hj => ?_) hd
    rw [← hs j (List.mem_cons_of_mem _ hj)]
    refine (aside_takeAll policy hex fun c hc hcj => hi ?_).1
    obtain ⟨v, hv⟩ := hin c (List.mem_of_mem_take hc)
    rw [← index_of_shard h.placed hv, hcj]
    exact hj

end Async

end Starshard.Eviction
