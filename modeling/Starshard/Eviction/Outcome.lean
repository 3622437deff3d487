import Starshard.Eviction.Minimal

/-! What a pass of the synchronous map leaves behind, in any clean state. -/
namespace Starshard.Eviction

open Data
open Worker (Tables)

variable {K V : Type} [DecidableEq K] {hash fx : K → Nat} {s : State K V} {p q : Pass K V}
  {cs vs : List (EvictionCandidate K)} {c : EvictionCandidate K} {options : Options}
  {policy : CapacityPolicy} {target : Option Nat} {limit : Nat} {weight : K → V → Nat}

/-! ### Passes that differ in their bookkeeping only -/

structure Pass.Like (p q : Pass K V) : Prop where
  removed : p.removed = q.removed
  tables : p.state.tables = q.state.tables
  totalLen : p.state.totalLen = q.state.totalLen
  entries : p.state.engine.entries = q.state.engine.entries
  weight : p.state.engine.weight = q.state.engine.weight

omit [DecidableEq K] in
theorem recordEviction_congr {e e' : Engine K} (he : e.entries = e'.entries)
    (hw : e.weight = e'.weight) :
    (e.recordEviction fx c).entries = (e'.recordEviction fx c).entries ∧
      (e.recordEviction fx c).weight = (e'.recordEviction fx c).weight := by
  unfold Engine.recordEviction Engine.drop Engine.bucket
  dsimp only
  rw [he]
  split
  · exact ⟨rfl, hw⟩
  · exact ⟨rfl, by rw [hw]⟩

theorem Pass.Like.take (h : p.Like q) (c : EvictionCandidate K) :
    (p.take hash fx c).Like (q.take hash fx c) := by
  obtain ⟨he, hw⟩ := (@recordEviction_congr _ fx c) h.entries h.weight
  constructor
  · unfold Pass.take
    rw [h.removed, h.tables]
  · exact congrArg (Tables.remove hash c.key) h.tables
  · exact congrArg (· - 1) h.totalLen
  · exact he
  · exact hw

theorem Pass.Like.takeAll (h : p.Like q) (cs : List (EvictionCandidate K)) :
    (p.takeAll hash fx cs).Like (q.takeAll hash fx cs) := by
  induction cs generalizing p q with
  | nil => exact h
  | cons c cs ih => exact ih (h.take c)

theorem Sync.evictGlobal_like (h : Clean hash s) :
    (evictGlobal hash fx options weight policy target ⟨s, []⟩).Like
      (Pass.takeAll hash fx ⟨s, []⟩ (fullVictims hash fx options policy target s)) := by
  obtain ⟨s', hs'⟩ : ∃ s' : State K V, s' = { s with engine := s.engine.mutation } := ⟨_, rfl⟩
  have h' : Clean hash s' := by
    rw [hs']
    exact h.markPending
  have hv : globalVictims hash fx options policy target s' =
      fullVictims hash fx options policy target s := by
    rw [h'.globalVictims_eq, hs']
    rfl
  have hlike : Pass.Like ⟨s', []⟩ (⟨s, []⟩ : Pass K V) := by
    rw [hs']
    exact ⟨rfl, rfl, rfl, rfl, rfl⟩
  unfold evictGlobal
  dsimp only
  rw [← hs', h'.reconcile, swept_eq h', hv]
  have hend := (@Pass.Like.takeAll _ _ _ hash fx _ _ hlike) (fullVictims hash fx options policy target s)
  exact ⟨hend.removed, hend.tables, hend.totalLen, hend.entries, hend.weight⟩

theorem Sync.evictPerShard_like (h : Clean hash s) :
    (evictPerShard hash fx options weight policy limit s).Like
      (Pass.takeAll hash fx ⟨s, []⟩ (shardVictims fx policy limit s)) := by
  obtain ⟨s', hs'⟩ : ∃ s' : State K V, s' = { s with engine := s.engine.mutation } := ⟨_, rfl⟩
  have h' : Clean hash s' := by
    rw [hs']
    exact h.markPending
  have hv : shardVictims fx policy limit s' = shardVictims fx policy limit s := by
    rw [hs']
    rfl
  have hlike : Pass.Like ⟨s', []⟩ (⟨s, []⟩ : Pass K V) := by
    rw [hs']
    exact ⟨rfl, rfl, rfl, rfl, rfl⟩
  have hlimit : limitShards fx policy limit ⟨s', []⟩ =
      (Pass.takeAll hash fx ⟨s', []⟩ (shardVictims fx policy limit s'), false) :=
    limitShards_eq (h'.live_shards List.nodup_range) (fun i _ => h'.ranking_length i)
      List.nodup_range false
  have hclean : (Pass.takeAll hash fx ⟨s', []⟩ (shardVictims fx policy limit s')).state.engine.dirty =
      false := by
    have hall : Live hash fx s' (shardVictims fx policy limit s' ++ []) := by
      rw [List.append_nil]
      exact h'.live_shardVictims
    exact hall.takeAll.clean
  unfold evictPerShard
  dsimp only
  rw [← hs', hlimit, hclean, hv]
  have hend := (@Pass.Like.takeAll _ _ _ hash fx _ _ hlike) (shardVictims fx policy limit s)
  exact ⟨hend.removed, hend.tables, hend.totalLen, hend.entries, hend.weight⟩

theorem Clean.live_fullVictims (h : Clean hash s) :
    Live hash fx s (fullVictims hash fx options policy target s) :=
  h.live_candidates.sublist (victims_sublist _)

/-- By every path the pass removes the victims of the full policy order. -/
theorem Sync.runEviction_like (h : Clean hash s) (requested : Option Nat)
    (forced : Option CapacityPolicy) :
    ∃ vs, Live hash fx s vs ∧
      vs.Perm (fullVictims hash fx options (forced.getD options.policy)
        (entryLimit requested options.maxEntries) s) ∧
      (runEviction hash fx options weight requested forced s).Like (Pass.takeAll hash fx ⟨s, []⟩ vs) := by
  cases hm : options.maxItemsPerShard with
  | none =>
    rw [runEviction_unlimited hm]
    by_cases hwithin : withinLimits options (entryLimit requested options.maxEntries) s = true
    · rw [if_pos hwithin]
      have hnil : fullVictims hash fx options (forced.getD options.policy)
          (entryLimit requested options.maxEntries) s = [] := by
        simp only [withinLimits, Bool.and_eq_true, Bool.not_eq_true'] at hwithin
        rw [← h.globalVictims_eq]
        apply globalVictims_eq_nil h hm _ hwithin.2
        have hall := hwithin.1.2
        cases ht : entryLimit requested options.maxEntries with
        | none => rfl
        | some t =>
          rw [ht] at hall
          simpa using hall
      rw [hnil]
      exact ⟨[], h.live (by simp) (by simp), .refl _, rfl, rfl, rfl, rfl, rfl⟩
    · rw [if_neg hwithin]
      exact ⟨_, h.live_fullVictims, .refl _, evictGlobal_like h⟩
  | some limit =>
    have ht : entryLimit requested options.maxEntries = requested := by
      rw [options.entryLimits.resolve_right (by simp [hm])]
      cases requested <;> rfl
    rw [runEviction_limited hm h.clean, ht]
    by_cases hcase : requested = none ∧ options.memoryBudget = none ∧
        s.tables.previousShardCount = 0
    · rw [if_pos hcase]
      obtain ⟨rfl, hbudget, hp⟩ := hcase
      refine ⟨_, h.live_shardVictims, ?_, evictPerShard_like h⟩
      rw [← h.globalVictims_eq]
      exact (h.victims_perm hm hbudget hp).symm
    · rw [if_neg hcase]
      exact ⟨_, h.live_fullVictims, .refl _, evictGlobal_like h⟩

/-! ### What is left -/

theorem Pass.totalLen_takeAll :
    (p.takeAll hash fx cs).state.totalLen = p.state.totalLen - cs.length := by
  induction cs generalizing p with
  | nil => rfl
  | cons c cs ih =>
    change ((p.take hash fx c).takeAll hash fx cs).state.totalLen = _
    rw [ih, List.length_cons]
    change p.state.totalLen - 1 - cs.length = _
    omega

theorem Live.entries_takeAll (h : Live hash fx p.state cs)
    (hn : (p.state.engine.entries.map Entry.key).Nodup) :
    (p.takeAll hash fx cs).state.engine.entries.Perm
      (p.state.engine.entries.filter fun x => decide (x.key ∉ cs.map EvictionCandidate.key)) := by
  induction cs generalizing p with
  | nil =>
    have hall : p.state.engine.entries.filter
        (fun x => decide (x.key ∉ ([] : List (EvictionCandidate K)).map EvictionCandidate.key)) =
        p.state.engine.entries := List.filter_eq_self.mpr (by simp)
    rw [hall]
    exact .refl _
  | cons c cs ih =>
    obtain ⟨x, pre, post, h₁, h₂, -, hc⟩ := h.split
    have hkey : c.key = x.key := by rw [← hc]; rfl
    have hsub : (pre ++ post).Sublist (pre ++ x :: post) :=
      (List.sublist_cons_self x post).append_left pre
    have hn' : ((p.take hash fx c).state.engine.entries.map Entry.key).Nodup := by
      rw [h₂]
      rw [h₁] at hn
      exact hn.sublist (hsub.map _)
    have hrest := ih h.take hn'
    refine hrest.trans (.of_eq ?_)
    rw [h₂, h₁]
    rw [h₁, List.map_append, List.map_cons] at hn
    have hother : ∀ y ∈ pre ++ post, y.key ≠ c.key := by
      intro y hy he
      have hmid := (@List.perm_middle _ x.key (pre.map Entry.key)
        (post.map Entry.key)).nodup_iff.mp hn
      apply (List.nodup_cons.mp hmid).1
      rw [← hkey, ← he, ← List.map_append]
      exact List.mem_map_of_mem hy
    rw [List.filter_append, List.filter_append, List.filter_cons,
      if_neg (by simp [hkey])]
    congr 1
    · apply List.filter_congr
      intro y hy
      have hne := hother y (List.mem_append_left post hy)
      simp [hne]
    · apply List.filter_congr
      intro y hy
      have hne := hother y (List.mem_append_right pre hy)
      simp [hne]

theorem Pass.shardCount_takeAll :
    (p.takeAll hash fx cs).state.tables.shardCount = p.state.tables.shardCount := by
  induction cs generalizing p with
  | nil => rfl
  | cons c cs ih => exact ih

theorem Live.removed_keys (h : Live hash fx s vs) :
    (Pass.takeAll hash fx ⟨s, []⟩ vs).removed.map Prod.fst = vs.map EvictionCandidate.key := by
  rw [Pass.removed_takeAll h.distinct, List.nil_append, List.map_filterMap]
  have hsome : ∀ c ∈ vs, Option.map Prod.fst ((s.tables.lookup hash c.key).map (c.key, ·)) =
      some c.key := by
    intro c hc
    obtain ⟨v, hv⟩ := Option.isSome_iff_exists.mp (h.stored c hc)
    rw [hv]
    rfl
  rw [List.filterMap_congr hsome, List.filterMap_eq_map']

omit [DecidableEq K] in
theorem left_congr [DecidableEq K] {gone gone' : List K} (h : ∀ k, k ∈ gone ↔ k ∈ gone')
    (cs : List (EvictionCandidate K)) : left gone cs = left gone' cs := by
  apply List.filter_congr
  intro d _
  simp only [h]

namespace Sync

/-- The path without shortcuts: the sweep over all candidates under exclusive routing. -/
def fullScan (hash fx : K → Nat) (options : Options) (policy : CapacityPolicy)
    (target : Option Nat) (s : State K V) : Pass K V :=
  (sweep hash fx options target (s.engine.candidates fx policy)
    ⟨⟨s, []⟩, if options.maxItemsPerShard.isSome then countShards hash s else fun _ => 0,
      s.engine.overMemoryBudget options.toEvictionConfig⟩).pass

/-- `evict`. -/
def evict (hash fx : K → Nat) (options : Options) (weight : K → V → Nat) (targetCount : Nat)
    (s : State K V) : Pass K V :=
  runEviction hash fx options weight (some targetCount) none s

/-- `evict_lru`. -/
def evictLru (hash fx : K → Nat) (options : Options) (weight : K → V → Nat) (targetCount : Nat)
    (s : State K V) : Pass K V :=
  runEviction hash fx options weight (some targetCount) (some .lru) s

/-- `enforce_eviction_limits`. -/
def enforceEvictionLimits (hash fx : K → Nat) (options : Options) (weight : K → V → Nat)
    (s : State K V) : Pass K V :=
  runEviction hash fx options weight none none s

theorem fullScan_eq (h : Clean hash s) :
    fullScan hash fx options policy target s =
      Pass.takeAll hash fx ⟨s, []⟩ (fullVictims hash fx options policy target s) := by
  have ht : Tracks options
      (tallyOf (s.shardIndex hash ·.key) (s.engine.candidates fx policy))
      ⟨⟨s, []⟩, if options.maxItemsPerShard.isSome then countShards hash s else fun _ => 0,
        s.engine.overMemoryBudget options.toEvictionConfig⟩ := by
    have hw := (@startTally_weighted _ _ _ _ fx _ policy) h
    rw [h.startTally_eq] at hw
    constructor
    · exact h.candidates_length
    · intro hm
      rw [if_pos hm, ← h.startTally_eq]
      exact startTally_counts h
    · exact fun _ => hw
    · dsimp only [Engine.overMemoryBudget]
      rw [hw]
  exact sweep_eq h.live_candidates ht rfl

end Sync

theorem Clean.left_weights (h : Clean hash s) (gone : List K) :
    ((left gone (s.engine.candidates fx policy)).map EvictionCandidate.weight).Perm
      ((s.engine.entries.filter fun x => decide (x.key ∉ gone)).map Entry.weight) := by
  have hperm := (@Clean.candidates_perm _ _ _ _ fx _ policy h).filter
    fun d => decide (d.key ∉ gone)
  rw [List.filter_map] at hperm
  have hmap := hperm.map EvictionCandidate.weight
  rw [List.map_map] at hmap
  exact hmap

theorem Clean.candidates_keys (h : Clean hash s) :
    ((s.engine.candidates fx policy).map EvictionCandidate.key).Perm
      (s.tables.entries.map Prod.fst) := by
  have hperm := (@Clean.candidates_perm _ _ _ _ fx _ policy h).map EvictionCandidate.key
  rw [List.map_map] at hperm
  exact hperm.trans h.tracked

theorem mem_left_keys {gone : List K} {cs : List (EvictionCandidate K)} {k : K} :
    k ∈ (left gone cs).map EvictionCandidate.key ↔
      k ∈ cs.map EvictionCandidate.key ∧ k ∉ gone := by
  unfold left
  constructor
  · intro hk
    obtain ⟨c, hc, rfl⟩ := List.mem_map.mp hk
    obtain ⟨hc, hnot⟩ := List.mem_filter.mp hc
    exact ⟨List.mem_map_of_mem hc, of_decide_eq_true hnot⟩
  · intro ⟨hk, hnot⟩
    obtain ⟨c, hc, rfl⟩ := List.mem_map.mp hk
    exact List.mem_map_of_mem (List.mem_filter.mpr ⟨hc, decide_eq_true hnot⟩)

theorem Clean.count_left (h : Clean hash s) {t : Tables K V} {gone : List K} (ht : t.Placed hash)
    (hlookup : ∀ k, t.lookup hash k = if k ∈ gone then none else s.tables.lookup hash k)
    (index : K → Nat) (i : Nat) :
    t.entries.countP (fun e => decide (index e.1 = i)) =
      (left gone (s.engine.candidates fx policy)).countP fun d => decide (index d.key = i) := by
  have hn : ((left gone (s.engine.candidates fx policy)).map EvictionCandidate.key).Nodup :=
    (h.live_candidates.distinct).sublist (List.filter_sublist.map _)
  have hstored : ∀ k, k ∈ (left gone (s.engine.candidates fx policy)).map EvictionCandidate.key ↔
      (t.lookup hash k).isSome := by
    intro k
    rw [mem_left_keys, h.candidates_keys.mem_iff, mem_keys_entries h.placed, hlookup]
    by_cases hk : k ∈ gone <;> simp [hk]
  have hcount := (keys_perm ht hn hstored).countP_eq fun k => decide (index k = i)
  rw [List.countP_map, List.countP_map] at hcount
  exact hcount.symm

/-- What a pass leaves behind when the victims are removed in some order. -/
structure Minimal (hash fx : K → Nat) (options : Options) (policy : CapacityPolicy)
    (target : Option Nat) (s : State K V) (p : Pass K V) : Prop where
  sorted : (s.engine.candidates fx policy).Pairwise fun c d => rank policy c < rank policy d
  complete : ((s.engine.candidates fx policy).map EvictionCandidate.key).Perm
    (s.tables.entries.map Prod.fst)
  /-- Without a limit for each shard: a shortest prefix of the policy order. -/
  shortest : options.maxItemsPerShard = none → ∃ n, n ≤ (s.engine.candidates fx policy).length ∧
    (p.removed.map Prod.fst).Perm
      (((s.engine.candidates fx policy).take n).map EvictionCandidate.key) ∧
    ¬ OverTotal options target ((s.engine.candidates fx policy).drop n) ∧
    ∀ m, m < n → OverTotal options target ((s.engine.candidates fx policy).drop m)
  /-- A candidate is removed exactly if some limit is exceeded at its turn. -/
  turn : ∀ pre c post, s.engine.candidates fx policy = pre ++ c :: post →
    (c.key ∈ p.removed.map Prod.fst ↔ OverLimit options target (s.shardIndex hash ·.key)
      (left (p.removed.map Prod.fst) pre ++ c :: post) c)
  once : (p.removed.map Prod.fst).Nodup
  values : ∀ k v, (k, v) ∈ p.removed ↔
    s.tables.lookup hash k = some v ∧ k ∈ p.removed.map Prod.fst
  survivors : ∀ k, p.state.tables.lookup hash k =
    if k ∈ p.removed.map Prod.fst then none else s.tables.lookup hash k
  len : p.removed.length + p.state.totalLen = s.totalLen
  entries_le : ∀ n, target = some n → p.state.totalLen ≤ n
  shard_le : ∀ n, options.maxItemsPerShard = some n → ∀ i,
    (p.state.tables.entries.countP fun e => decide (p.state.shardIndex hash e.1 = i)) ≤ n
  weight_le : ∀ n, options.memoryBudget = some n → p.state.engine.weight ≤ n
  exact : p.state.engine.weight = (p.state.engine.entries.map Entry.weight).sum
  /-- The path without shortcuts removes the same entries. -/
  scan : p.removed.Perm (Sync.fullScan hash fx options policy target s).removed ∧
    ∀ k, p.state.tables.lookup hash k =
      (Sync.fullScan hash fx options policy target s).state.tables.lookup hash k

theorem Clean.sorted (h : Clean hash s) :
    (s.engine.candidates fx policy).Pairwise fun c d => rank policy c < rank policy d := by
  have hle : (s.engine.candidates fx policy).Pairwise fun c d => rank policy c ≤ rank policy d := by
    rw [h.candidates_eq]
    exact ranked_pairwise policy _
  have hn : ((s.engine.candidates fx policy).map EvictionCandidate.key).Nodup :=
    h.live_candidates.distinct
  refine (hle.and (List.pairwise_map.mp hn)).imp_of_mem fun hc hd hcd =>
    lt_of_le_of_ne hcd.1 fun he => hcd.2 ?_
  obtain ⟨x, hx, rfl⟩ := List.mem_map.mp (h.candidates_perm.mem_iff.mp hc)
  obtain ⟨y, hy, rfl⟩ := List.mem_map.mp (h.candidates_perm.mem_iff.mp hd)
  rw [h.rank_inj hx hy he]

theorem Clean.minimal (h : Clean hash s) (hv : Live hash fx s vs)
    (hperm : vs.Perm (fullVictims hash fx options policy target s))
    (hp : p.Like (Pass.takeAll hash fx ⟨s, []⟩ vs)) :
    Minimal hash fx options policy target s p := by
  have hgone : p.removed.map Prod.fst = vs.map EvictionCandidate.key := by
    rw [hp.removed]
    exact hv.removed_keys
  have hkeys := hperm.map EvictionCandidate.key
  have hn : ((s.engine.candidates fx policy).map EvictionCandidate.key).Nodup :=
    h.live_candidates.distinct
  have hmem : ∀ k, k ∈ p.removed.map Prod.fst ↔
      k ∈ (fullVictims hash fx options policy target s).map EvictionCandidate.key := by
    intro k
    rw [hgone]
    exact hkeys.mem_iff
  have hleft := left_congr hmem
  have hwithin := (@left_within _ options target (s.shardIndex hash ·.key)) hn
  have hsplit := perm_left hn
    ((@victims_sublist _ options target (s.engine.candidates fx policy)
      (tallyOf (s.shardIndex hash ·.key) (s.engine.candidates fx policy)))
      (s.shardIndex hash ·.key))
  have hlen := hsplit.length_eq
  rw [List.length_append, h.candidates_length] at hlen
  have hvlen : vs.length = (fullVictims hash fx options policy target s).length := hperm.length_eq
  have htotal : p.state.totalLen = s.totalLen - vs.length := by
    rw [hp.totalLen]
    exact Pass.totalLen_takeAll
  have hrest : p.state.totalLen =
      (left (p.removed.map Prod.fst) (s.engine.candidates fx policy)).length := by
    rw [hleft, htotal, hvlen]
    exact Nat.sub_eq_of_eq_add' hlen
  have hend : Live hash fx (Pass.takeAll hash fx ⟨s, []⟩ vs).state ([] : List (EvictionCandidate K)) := by
    have hall : Live hash fx s (vs ++ []) := by
      rw [List.append_nil]
      exact hv
    exact hall.takeAll
  have hlookup : ∀ k, p.state.tables.lookup hash k =
      if k ∈ p.removed.map Prod.fst then none else s.tables.lookup hash k := by
    intro k
    rw [hp.tables, hgone]
    exact Pass.lookup_takeAll k
  have hentries : (p.state.engine.entries).Perm
      (s.engine.entries.filter fun x => decide (x.key ∉ p.removed.map Prod.fst)) := by
    rw [hp.entries, hgone]
    exact Live.entries_takeAll hv h.keys_nodup
  have hweight : p.state.engine.weight = (p.state.engine.entries.map Entry.weight).sum := by
    rw [hp.weight, hp.entries]
    exact hend.weight
  constructor
  · exact h.sorted
  · exact h.candidates_keys
  · intro hm
    obtain ⟨n, hle, htake, hnot, hbefore⟩ := (@victims_shortest _ _ target
      (s.shardIndex hash ·.key) (s.engine.candidates fx policy)) hm
    refine ⟨n, hle, ?_, hnot, hbefore⟩
    rw [hgone, ← htake]
    exact hkeys
  · intro pre c post hs
    rw [hmem, left_congr hmem]
    exact mem_victims_iff hn hs
  · rw [hgone]
    exact hv.distinct
  · intro k v
    have hremoved := hp.removed.trans (Pass.removed_takeAll hv.distinct)
    rw [hgone, hremoved, List.nil_append, List.mem_filterMap]
    constructor
    · intro ⟨c, hc, hmap⟩
      obtain ⟨w, hw, he⟩ := Option.map_eq_some_iff.mp hmap
      obtain ⟨rfl, rfl⟩ := Prod.mk.inj he
      exact ⟨hw, List.mem_map_of_mem hc⟩
    · intro ⟨hl, hk⟩
      obtain ⟨c, hc, rfl⟩ := List.mem_map.mp hk
      refine ⟨c, hc, ?_⟩
      dsimp only
      rw [hl]
      rfl
  · exact hlookup
  · have hlr : p.removed.length = vs.length := by
      have hl := congrArg List.length hgone
      simpa using hl
    have hle : vs.length ≤ s.totalLen := by
      rw [hvlen, hlen]
      exact Nat.le_add_right _ _
    rw [hlr, htotal]
    omega
  · intro n ht
    rw [hrest, hleft]
    exact hwithin.1 n ht
  · intro n hm i
    have hplaced : p.state.tables.Placed hash := by
      rw [hp.tables]
      exact hend.placed
    have hindex : ∀ k, p.state.shardIndex hash k = s.shardIndex hash k := by
      intro k
      unfold State.shardIndex
      rw [hp.tables, Pass.shardCount_takeAll]
    simp only [hindex]
    rw [(@Clean.count_left _ _ _ _ fx _ policy h) hplaced hlookup (s.shardIndex hash ·) i, hleft]
    exact hwithin.2.1 n hm i
  · intro n hb
    rw [hweight, (hentries.map Entry.weight).sum_nat,
      ← ((@Clean.left_weights _ _ _ _ fx _ policy h) (p.removed.map Prod.fst)).sum_nat, hleft]
    exact hwithin.2.2 n hb
  · exact hweight
  · have hscan : Removes hash fx s (fullVictims hash fx options policy target s)
        (Sync.fullScan hash fx options policy target s) := by
      rw [Sync.fullScan_eq h]
      exact ⟨rfl, rfl⟩
    have hagree := Removes.agree hv h.live_fullVictims hperm ⟨hp.removed, hp.tables⟩ hscan
    exact ⟨hagree.1, hagree.2.2.1⟩

theorem Sync.runEviction_minimal (h : Clean hash s) (requested : Option Nat)
    (forced : Option CapacityPolicy) :
    Minimal hash fx options (forced.getD options.policy) (entryLimit requested options.maxEntries) s
      (runEviction hash fx options weight requested forced s) := by
  obtain ⟨vs, hv, hperm, hlike⟩ := (@runEviction_like _ _ _ _ fx _ options weight) h requested forced
  exact h.minimal hv hperm hlike

/-- In every clean state, stable or in a migration, a pass that runs alone evicts the
victims of the policy order, by whichever path, and keeps every limit. -/
theorem evicts_minimal_victims (options : Options) (weight : K → V → Nat) (h : Clean hash s) :
    (∀ targetCount, Minimal hash fx options options.policy
      (entryLimit (some targetCount) options.maxEntries) s
      (Sync.evict hash fx options weight targetCount s)) ∧
    (∀ targetCount, Minimal hash fx options .lru
      (entryLimit (some targetCount) options.maxEntries) s
      (Sync.evictLru hash fx options weight targetCount s)) ∧
    Minimal hash fx options options.policy (entryLimit none options.maxEntries) s
      (Sync.enforceEvictionLimits hash fx options weight s) :=
  ⟨fun targetCount => Sync.runEviction_minimal h (some targetCount) none,
    fun targetCount => Sync.runEviction_minimal h (some targetCount) (some .lru),
    Sync.runEviction_minimal h none none⟩

theorem evicts_minimal_victims_oneEach :
    Minimal id id oneEach .lru none twoShards
      (Sync.enforceEvictionLimits id id oneEach (fun _ _ => 1) twoShards) := by
  exact ((@evicts_minimal_victims _ _ _ _ id _) oneEach (fun _ _ => 1) twoShards_clean).2.2

end Starshard.Eviction
