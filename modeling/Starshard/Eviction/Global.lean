import Starshard.Eviction.Victims

/-! Passes under exclusive routing. The synchronous loop decides with the live
counters, the asynchronous one with its own tallies; both choose the same victims. -/
namespace Starshard.Eviction

open Data
open Worker (Tables slot)

variable {K V : Type}

structure Tally where
  remaining : Nat
  counts : Nat → Nat
  weighted : Nat

/-- Some limit that the candidate counts for is exceeded. -/
def exceeds (options : Options) (limit : Option Nat) (index : EvictionCandidate K → Nat)
    (t : Tally) (c : EvictionCandidate K) : Bool :=
  limit.any (t.remaining > ·) || options.maxItemsPerShard.any (t.counts (index c) > ·) ||
    options.memoryBudget.any (t.weighted > ·)

def account (index : EvictionCandidate K → Nat) (t : Tally) (c : EvictionCandidate K) : Tally where
  remaining := t.remaining - 1
  counts := Function.update t.counts (index c) (t.counts (index c) - 1)
  weighted := t.weighted - c.weight

def victims (options : Options) (limit : Option Nat) (index : EvictionCandidate K → Nat) :
    Tally → List (EvictionCandidate K) → List (EvictionCandidate K) :=
  Greedy.choose (exceeds options limit index) (account index)

variable {options : Options} {limit : Option Nat} {c : EvictionCandidate K}
  {cs : List (EvictionCandidate K)} {t : Tally}

theorem victims_cons (index : EvictionCandidate K → Nat) :
    victims options limit index t (c :: cs) =
      if exceeds options limit index t c then c :: victims options limit index (account index t c) cs
      else victims options limit index t cs := rfl

theorem victims_sublist (index : EvictionCandidate K → Nat) :
    (victims options limit index t cs).Sublist cs :=
  Greedy.choose_sublist t cs

variable [DecidableEq K] {hash fx : K → Nat} {s : State K V} {p : Pass K V}

namespace Sync

/-- The loop state agrees with the tallies on every limit that is set. -/
structure Tracks (options : Options) (t : Tally) (s : Sweep K V) : Prop where
  remaining : t.remaining = s.pass.state.totalLen
  counts : options.maxItemsPerShard.isSome → t.counts = s.counts
  weighted : options.memoryBudget.isSome → t.weighted = s.pass.state.engine.weight
  overWeight : s.overWeight = options.memoryBudget.any (t.weighted > ·)

variable {r : Sweep K V}

theorem sweepShards_eq {ls : List Location} {l : Location} (h : r.pass.state.tables.Placed hash)
    {v : V} (hl : l ∈ ls) (hv : (r.pass.state.shard l).lookup c.key = some v) (index : Nat) :
    sweepShards fx options index c ls r =
      { pass := r.pass.take hash fx c
        overWeight := r.overWeight &&
          (r.pass.take hash fx c).state.engine.overMemoryBudget options.toEvictionConfig
        counts := if options.maxItemsPerShard.isSome then
            Function.update r.counts index (r.counts index - 1)
          else r.counts } := by
  induction ls with
  | nil => cases hl
  | cons l' ls ih =>
    unfold sweepShards
    cases hv' : (r.pass.state.shard l').lookup c.key with
    | none =>
      refine ih ((List.mem_cons.mp hl).resolve_left ?_)
      rintro rfl
      rw [hv] at hv'
      cases hv'
    | some w =>
      dsimp only
      rw [Pass.evict_eq h hv']

theorem found (h : Live hash fx s cs) (hc : c ∈ cs) :
    ∃ l v, l ∈ (s.activeShard (s.shardIndex hash c.key)).toList ++
        (s.previousShard hash c.key).toList ∧ (s.shard l).lookup c.key = some v := by
  have present : ∀ {shards : Worker.Shards K V} {i : Nat} {v : V},
      (slot shards i).lookup c.key = some v → ∃ m, shards[i]?.join = some m := by
    intro shards i v hv
    cases hm : shards[i]?.join with
    | some m => exact ⟨m, rfl⟩
    | none =>
      rw [Worker.slot_of_eq_none hm, AList.lookup_empty] at hv
      cases hv
  obtain ⟨v, hv | ⟨-, q, hq, hv⟩⟩ := h.found hc
  · obtain ⟨m, hm⟩ := present hv
    exact ⟨_, v, List.mem_append_left _ (by simp [State.activeShard, hm]), hv⟩
  · have hv' : (slot q (hash c.key % s.tables.previousShardCount)).lookup c.key = some v := by
      simpa [State.shard, hq] using hv
    obtain ⟨m, hm⟩ := present hv'
    have hne : s.tables.previousShardCount ≠ 0 := by
      have := h.placed.sources q hq
      rw [h.placed.length q hq] at this
      omega
    exact ⟨_, v, List.mem_append_right _ (by simp [State.previousShard, hne, hq, hm]), hv⟩

theorem Tracks.take (h : Live hash fx r.pass.state (c :: cs)) (ht : Tracks options t r)
    {index : EvictionCandidate K → Nat} {i : Nat} (hi : i = index c) :
    Tracks options (account index t c)
      { pass := r.pass.take hash fx c
        overWeight := r.overWeight &&
          (r.pass.take hash fx c).state.engine.overMemoryBudget options.toEvictionConfig
        counts := if options.maxItemsPerShard.isSome then
            Function.update r.counts i (r.counts i - 1)
          else r.counts } := by
  obtain ⟨x, pre, post, -, -, hw, -⟩ := h.split
  subst hi
  refine ⟨by simp [account, Pass.take, ht.remaining], fun hm => ?_, fun hb => ?_, ?_⟩
  · simp [account, hm, ht.counts hm]
  · exact (congrArg (· - c.weight) (ht.weighted hb)).trans hw.symm
  · dsimp only [account]
    rw [ht.overWeight]
    cases hb : options.memoryBudget with
    | none => simp
    | some b =>
      have hwt := ht.weighted (by rw [hb]; rfl)
      simp only [Option.any_some, Engine.overMemoryBudget, hb, hw, ← hwt]
      by_cases hgt : t.weighted > b
      · simp [hgt]
      · have : ¬ t.weighted - c.weight > b := by omega
        simp [hgt, this]

/-- The loop removes the victims. -/
theorem sweep_eq (h : Live hash fx r.pass.state cs) (ht : Tracks options t r) {n : Nat}
    (hn : r.pass.state.tables.shardCount = n) :
    (sweep hash fx options limit cs r).pass = r.pass.takeAll hash fx
      (victims options limit (fun c => hash c.key % n) t cs) := by
  induction cs generalizing r t with
  | nil => rfl
  | cons c cs ih =>
    have hex : exceeds options limit (fun c => hash c.key % n) t c =
        (limit.any (r.pass.state.totalLen > ·) ||
          options.maxItemsPerShard.any (r.counts (r.pass.state.shardIndex hash c.key) > ·) ||
            r.overWeight) := by
      unfold exceeds State.shardIndex
      rw [ht.remaining, ht.overWeight, hn]
      cases hm : options.maxItemsPerShard with
      | none => rfl
      | some m => rw [ht.counts (by rw [hm]; rfl)]
    unfold sweep
    dsimp only
    split
    · next hstop =>
      simp only [Bool.and_eq_true, Option.isNone_iff_eq_none, Bool.not_eq_true'] at hstop
      obtain ⟨⟨hm, ho⟩, hw⟩ := hstop
      rw [victims, Greedy.choose_eq_nil]
      · rfl
      · intro d _
        unfold exceeds
        rw [ht.remaining, ho, hm, ← ht.overWeight, hw]
        rfl
    · rw [victims_cons, hex]
      split
      · next hskip =>
        simp only [Bool.and_eq_true, Bool.not_eq_true'] at hskip
        obtain ⟨⟨ho, hs⟩, hw⟩ := hskip
        rw [ho, hs, hw]
        exact ih (h.sublist (List.sublist_cons_self c cs)) ht hn
      · next hover =>
        rw [if_neg (by simp [h.validate List.mem_cons_self])]
        obtain ⟨l, v, hl, hv⟩ := found h List.mem_cons_self
        rw [sweepShards_eq h.placed hl hv]
        have hpos : (limit.any (r.pass.state.totalLen > ·) ||
            options.maxItemsPerShard.any (r.counts (r.pass.state.shardIndex hash c.key) > ·) ||
              r.overWeight) = true := by
          simp only [Bool.and_eq_true, Bool.not_eq_true', not_and_or, Bool.not_eq_false] at hover
          rcases hover with (ho | hs) | hw
          · simp [ho]
          · simp [hs]
          · simp [hw]
        rw [if_pos hpos]
        refine ih h.take (ht.take h ?_) hn
        unfold State.shardIndex
        rw [hn]

end Sync

namespace Async

theorem located (h : Live hash fx s cs) (hc : c ∈ cs) :
    ∃ l v, locate hash c.key s = some l ∧ (s.shard l).lookup c.key = some v := by
  unfold locate
  dsimp only
  obtain ⟨v, hv | ⟨hn, q, hq, hv⟩⟩ := h.found hc
  · exact ⟨_, v, by rw [hv]; rfl, hv⟩
  · refine ⟨⟨true, hash c.key % s.tables.previousShardCount⟩, v, ?_, hv⟩
    rw [hn, hq, Option.bind_some, h.placed.length q hq, hv]
    rfl

variable (hash) in
def place (s : State K V) (c : EvictionCandidate K) : EvictionCandidate K × Location :=
  (c, (locate hash c.key s).getD ⟨false, 0⟩)

theorem plan_eq (h : Live hash fx s cs) {q : Planning K V} (hq : q.engine = s.engine) :
    (cs.foldl (planStep hash fx options limit s) q).engine = s.engine ∧
    (cs.foldl (planStep hash fx options limit s) q).plans = q.plans ++
      (victims options limit (fun c => hash c.key % s.tables.shardCount)
        ⟨q.remaining, q.counts, q.weighted⟩ cs).map (place hash s) := by
  induction cs generalizing q with
  | nil => exact ⟨hq, (List.append_nil _).symm⟩
  | cons c cs ih =>
    have ih := @ih (h.sublist (List.sublist_cons_self c cs))
    obtain ⟨l, v, hl, hv⟩ := located h List.mem_cons_self
    rw [List.foldl_cons, victims_cons]
    by_cases hex : exceeds options limit (fun c => hash c.key % s.tables.shardCount)
        ⟨q.remaining, q.counts, q.weighted⟩ c = true
    · have hstep : planStep hash fx options limit s q c =
          { q with
            plans := q.plans ++ [(c, l)]
            remaining := q.remaining - 1
            weighted := q.weighted - c.weight
            counts := Function.update q.counts (s.shardIndex hash c.key)
              (q.counts (s.shardIndex hash c.key) - 1) } := by
        unfold planStep
        rw [hq, h.validate List.mem_cons_self, hl]
        unfold exceeds at hex
        dsimp only at hex
        dsimp only [State.shardIndex]
        rw [hex]
        rfl
      rw [hstep, if_pos hex]
      obtain ⟨he, hp⟩ := @ih
        { q with
          plans := q.plans ++ [(c, l)]
          remaining := q.remaining - 1
          weighted := q.weighted - c.weight
          counts := Function.update q.counts (s.shardIndex hash c.key)
            (q.counts (s.shardIndex hash c.key) - 1) } hq
      refine ⟨he, hp.trans ?_⟩
      simp [place, hl, account, State.shardIndex]
    · have hstep : planStep hash fx options limit s q c = q := by
        unfold planStep
        unfold exceeds at hex
        dsimp only at hex
        dsimp only [State.shardIndex]
        rw [Bool.eq_false_of_not_eq_true hex]
        rfl
      rw [hstep, if_neg hex]
      exact ih hq

theorem remove_eq {plans : List (EvictionCandidate K × Location)}
    (h : Live hash fx p.state (plans.map Prod.fst))
    (hl : ∀ plan ∈ plans, ∃ v, (p.state.shard plan.2).lookup plan.1.key = some v) :
    plans.foldl (removeStep fx) p = p.takeAll hash fx (plans.map Prod.fst) := by
  induction plans generalizing p with
  | nil => rfl
  | cons plan plans ih =>
    obtain ⟨c, l⟩ := plan
    obtain ⟨v, hv⟩ := hl (c, l) List.mem_cons_self
    have hstep : removeStep fx p (c, l) = p.take hash fx c := by
      unfold removeStep
      dsimp only at hv ⊢
      rw [h.validate (c := c) (by simp), hv]
      exact Pass.evict_eq h.placed hv
    rw [List.foldl_cons, hstep]
    refine ih h.take fun plan hplan => ?_
    obtain ⟨w, hw⟩ := hl plan (List.mem_cons_of_mem _ hplan)
    have hk : plan.1.key ≠ c.key := fun hk =>
      (List.nodup_cons.mp h.distinct).1 (List.mem_map.mpr ⟨_, List.mem_map.mpr ⟨_, hplan, rfl⟩, hk⟩)
    exact ⟨w, (Pass.lookup_shard_take hk plan.2).trans hw⟩

end Async

end Starshard.Eviction
