import Starshard.Eviction.Batch

/-! The ages that `batch_insert` gives to new keys, and which entries survive the pass that
closes it. -/
namespace Starshard.Eviction

open Data
open Worker (Tables slot)
open Starshard.Eviction.State (Alike)

variable {K V : Type} [DecidableEq K]

/-- The keys of the list were inserted and accessed in its order. -/
def InListOrder (fx : K → Nat) (e : Engine K) (entries : List (K × V)) : Prop :=
  entries.Pairwise fun a b => ∃ x y, e.find? fx a.1 = some x ∧ e.find? fx b.1 = some y ∧
    x.inserted < y.inserted ∧ x.accessed < y.accessed

/-- The call is as inserting the list from left to right and enforcing the limits once:
`inserted` is the state after its writes, `closed` its closing pass, `listed` the state
after the writes of the list, and `reference` the pass over it. -/
structure ListWise (hash fx : K → Nat) (entries : List (K × V)) (inserted listed : State K V)
    (closed reference : Pass K V) : Prop where
  ages : InListOrder fx inserted.engine entries
  same : ∀ e ∈ entries, inserted.engine.find? fx e.1 = listed.engine.find? fx e.1
  survivors : ∀ k, closed.state.tables.lookup hash k = reference.state.tables.lookup hash k

variable {hash fx : K → Nat} {weight : K → V → Nat} {s : State K V} {entries es : List (K × V)}
  {n : Nat}

section Ages

/-- The entries of new keys that draw the stamps from `n` on. -/
def stampedFrom (weight : K → V → Nat) (n : Nat) (es : List (K × V)) : List (Entry K) :=
  es.mapIdx fun i e => .fresh e.1 (wrapping (n + i)) (weight e.1 e.2)

omit [DecidableEq K] in
theorem stampedFrom_keys (n : Nat) (es : List (K × V)) :
    (stampedFrom weight n es).map Entry.key = es.map Prod.fst := by
  refine List.ext_getElem (by simp [stampedFrom]) fun i _ _ => ?_
  simp [stampedFrom, Entry.fresh]

theorem entries_insertAll (hc : s.engine.sequence = wrapping n) (hn : (es.map Prod.fst).Nodup)
    (hnew : ∀ e ∈ es, ∀ x ∈ s.engine.entries, x.key ≠ e.1) :
    (s.insertAll hash fx weight es).engine.entries =
      s.engine.entries ++ stampedFrom weight n es := by
  induction es generalizing s n with
  | nil => simp [State.insertAll, stampedFrom]
  | cons e es ih =>
    obtain ⟨hnot, hn⟩ := List.nodup_cons.mp hn
    have hnone : s.engine.mutation.find? fx e.1 = none :=
      Engine.find?_eq_none.mpr (hnew e List.mem_cons_self)
    have hstep : (s.insert hash fx e.1 e.2 (weight e.1 e.2)).engine.entries =
          s.engine.entries ++ [.fresh e.1 s.engine.sequence (weight e.1 e.2)] ∧
        (s.insert hash fx e.1 e.2 (weight e.1 e.2)).engine.sequence =
          wrapping (s.engine.sequence + 1) := by
      unfold State.insert
      dsimp only
      rw [Engine.recordInsert_eq, hnone]
      exact ⟨rfl, rfl⟩
    have hnext : (s.insert hash fx e.1 e.2 (weight e.1 e.2)).engine.sequence = wrapping (n + 1) := by
      rw [hstep.2, hc, wrapping_wrapping_add]
    have hall := ih (s := s.insert hash fx e.1 e.2 (weight e.1 e.2)) hnext hn fun d hd x hx => by
      rw [hstep.1] at hx
      rcases List.mem_append.mp hx with hx | hx
      · exact hnew d (List.mem_cons_of_mem _ hd) x hx
      · rw [List.mem_singleton.mp hx]
        intro he
        have he : e.1 = d.1 := he
        exact hnot (he ▸ List.mem_map_of_mem hd)
    refine hall.trans ?_
    rw [hstep.1, hc, List.append_assoc]
    unfold stampedFrom
    rw [List.mapIdx_cons, Nat.add_zero, List.singleton_append]
    congr 3
    funext i d
    congr 2
    omega

theorem Stamped.insertAll (h : Stamped hash n s) (hn : n + es.length ≤ 2 ^ 64) :
    Stamped hash (n + es.length) (s.insertAll hash fx weight es) := by
  induction es generalizing s n with
  | nil => exact h
  | cons e es ih =>
    rw [List.length_cons] at hn ⊢
    have hnext := ih (s := s.insert hash fx e.1 e.2 (weight e.1 e.2)) (h.insert (by omega))
      (by omega)
    rw [Nat.add_right_comm] at hnext
    exact hnext

theorem Clean.untracked (h : Clean hash s) (hf : Fresh hash es s.tables) :
    ∀ e ∈ es, ∀ x ∈ s.engine.entries, x.key ≠ e.1 := by
  intro e he x hx hk
  have := h.stored hx
  rw [hk, hf.absent e he] at this
  cases this

theorem find?_insertAll (h : Clean hash s) (hc : s.engine.sequence = wrapping n)
    (hf : Fresh hash es s.tables) (i : Nat) (hi : i < es.length) :
    (s.insertAll hash fx weight es).engine.find? fx es[i].1 =
      some (.fresh es[i].1 (wrapping (n + i)) (weight es[i].1 es[i].2)) := by
  have hall := (@entries_insertAll _ _ _ hash fx weight) hc hf.once (h.untracked hf)
  have hkeys : ((s.insertAll hash fx weight es).engine.entries.map Entry.key).Nodup := by
    rw [hall, List.map_append, stampedFrom_keys]
    refine List.nodup_append.mpr ⟨h.keys_nodup, hf.once, fun a ha b hb hab => ?_⟩
    obtain ⟨x, hx, rfl⟩ := List.mem_map.mp ha
    obtain ⟨e, he, rfl⟩ := List.mem_map.mp hb
    exact h.untracked hf e he x hx hab
  refine (@Engine.find?_of_mem _ _ fx _) hkeys
    (x := .fresh es[i].1 (wrapping (n + i)) (weight es[i].1 es[i].2)) ?_
  rw [hall]
  exact List.mem_append_right _ (List.mem_mapIdx.mpr ⟨i, hi, rfl⟩)

/-- New keys that are written one by one age in the order of the writes, exactly if their
stamps do not wrap. -/
theorem inListOrder_insertAll_iff (h : Stamped hash n s) (hn : n < 2 ^ 64)
    (hf : Fresh hash es s.tables) :
    InListOrder fx (s.insertAll hash fx weight es).engine es ↔ n + es.length ≤ 2 ^ 64 := by
  have hfound := (@find?_insertAll _ _ _ _ fx weight _ _ _) h.toClean h.counter hf
  unfold InListOrder
  rw [List.pairwise_iff_getElem]
  constructor
  · intro hlist
    by_contra hlong
    obtain ⟨i, hi⟩ : ∃ i, n + (i + 1) = 2 ^ 64 := ⟨2 ^ 64 - 1 - n, by omega⟩
    obtain ⟨x, y, hx, hy, hlt, -⟩ := hlist i (i + 1) (by omega) (by omega) (Nat.lt_succ_self i)
    have hy' := Option.some.inj ((hfound (i + 1) (by omega)).symm.trans hy)
    rw [hi] at hy'
    rw [← hy'] at hlt
    exact Nat.not_lt_zero _ hlt
  · intro hroom i j hi hj hij
    refine ⟨_, _, hfound i hi, hfound j hj, ?_, ?_⟩
    all_goals
      dsimp only [Entry.fresh]
      rw [wrapping_of_lt (by omega), wrapping_of_lt (by omega)]
      omega

theorem eq_of_inListOrder {e : Engine K} (hp : es.Perm entries) (h : InListOrder fx e es)
    (h' : InListOrder fx e entries) : es = entries := by
  refine hp.eq_of_pairwise (fun a b _ _ hab hba => ?_) h h'
  obtain ⟨x, y, hx, hy, hlt, _⟩ := hab
  obtain ⟨y', x', hy', hx', hlt', _⟩ := hba
  rw [hx] at hx'
  rw [hy] at hy'
  cases hx'
  cases hy'
  omega

end Ages

section Survivors

variable {s' : State K V} {options : Options}

theorem State.Alike.find? (h : Alike s s') (k : K) : s.engine.find? fx k = s'.engine.find? fx k := by
  unfold Engine.find? Engine.bucket
  rw [h.entries]

theorem State.Alike.inListOrder (h : Alike s s') :
    InListOrder fx s.engine es ↔ InListOrder fx s'.engine es := by
  unfold InListOrder
  simp only [h.find?]

theorem State.Alike.clean (h : Alike s s') (hc : Clean hash s') : Clean hash s where
  placed := h.tables ▸ hc.placed
  clean := by
    have := hc.clean
    unfold Engine.dirty at this ⊢
    rw [h.dirtyEpoch, h.repairedEpoch]
    exact this
  tracked := by
    rw [h.entries, h.tables]
    exact hc.tracked
  weight := by
    rw [h.weight, h.entries]
    exact hc.weight
  total := by
    rw [h.totalLen, h.tables]
    exact hc.total
  incarnations := h.entries ▸ hc.incarnations
  inserted := h.entries ▸ hc.inserted
  accessed := h.entries ▸ hc.accessed

omit [DecidableEq K] in
theorem State.Alike.fullVictims (h : Alike s s') (policy : CapacityPolicy) (target : Option Nat) :
    fullVictims hash fx options policy target s = fullVictims hash fx options policy target s' := by
  have hcandidates : s.engine.candidates fx policy = s'.engine.candidates fx policy := by
    unfold Engine.candidates Engine.dirty Engine.candidate
    rw [h.entries, h.epoch, h.dirtyEpoch, h.repairedEpoch]
  have hindex : ∀ k, s.shardIndex hash k = s'.shardIndex hash k := fun k => by
    unfold State.shardIndex
    rw [h.tables]
  unfold Eviction.fullVictims
  simp only [hcandidates, hindex]

theorem Sync.survivors (h : Clean hash s) (k : K) :
    (Sync.runEviction hash fx options weight none none s).state.tables.lookup hash k =
      if k ∈ (fullVictims hash fx options options.policy (entryLimit none options.maxEntries)
          s).map EvictionCandidate.key then none
      else s.tables.lookup hash k := by
  obtain ⟨vs, _, hperm, hlike⟩ :=
    (@Sync.runEviction_like _ _ _ _ fx _ options weight) h none none
  rw [hlike.tables, Pass.lookup_takeAll]
  simp only [(hperm.map EvictionCandidate.key).mem_iff]
  rfl

theorem Sync.survivors_congr (h : Alike s s') (hc : Clean hash s') (k : K) :
    (Sync.runEviction hash fx options weight none none s).state.tables.lookup hash k =
      (Sync.runEviction hash fx options weight none none s').state.tables.lookup hash k := by
  rw [Sync.survivors (h.clean hc), Sync.survivors hc, h.fullVictims, h.tables]

theorem Async.survivors_congr (h : Alike s s') (hc : Clean hash s') (k : K) :
    (Async.maintainEviction hash fx options weight none none s).state.tables.lookup hash k =
      (Async.maintainEviction hash fx options weight none none s').state.tables.lookup hash k := by
  rw [← (maintenance_evicts_same_entries options weight none none (h.clean hc)).2.2.1 k,
    ← (maintenance_evicts_same_entries options weight none none hc).2.2.1 k]
  exact Sync.survivors_congr h hc k

end Survivors

section BatchInsert

variable {visit : List Nat}

omit [DecidableEq K] in
/-- The order of the writes is that of the list on the path of a migration, and when the
list names the shards in the order in which their buckets are visited. -/
theorem written_eq_iff (hv : visit.Perm (s.buckets hash entries).keys) :
    s.written hash visit entries = entries ↔ s.tables.previousShardCount ≠ 0 ∨
      Follows (fun e : K × V => s.shardIndex hash e.1) visit entries := by
  unfold State.written
  by_cases hc : s.tables.previousShardCount ≠ 0
  · rw [if_pos hc]
    exact iff_of_true rfl (.inl hc)
  · rw [if_neg hc, grouped_eq_iff (State.mem_visit hv).1 (State.mem_visit hv).2]
    exact ⟨.inr, fun h => h.resolve_left hc⟩

theorem ages_iff (h : Stamped hash n s) (hn : n + entries.length ≤ 2 ^ 64)
    (hf : Fresh hash entries s.tables) (hv : visit.Perm (s.buckets hash entries).keys) :
    InListOrder fx (s.writeBatch hash fx weight visit entries).1.engine entries ↔
      s.written hash visit entries = entries := by
  have hperm := State.written_perm hv
  obtain ⟨halike, _⟩ := (@State.writeBatch_alike _ _ _ _ fx weight _ _ _) hf h.placed hv
  have hwritten : InListOrder fx
      (s.insertAll hash fx weight (s.written hash visit entries)).engine
      (s.written hash visit entries) := by
    cases entries with
    | nil => rw [hperm.eq_nil]; exact List.Pairwise.nil
    | cons e es =>
      rw [List.length_cons] at hn
      refine (inListOrder_insertAll_iff h (by omega) (hf.perm hperm)).mpr ?_
      rw [hperm.length_eq, List.length_cons]
      exact hn
  rw [halike.inListOrder]
  constructor
  · exact eq_of_inListOrder hperm hwritten
  · intro heq
    rw [heq] at hwritten ⊢
    exact hwritten

/-- The closing pass evicts the victims of the order in which the batch was written. -/
theorem Sync.batchInsert_survivors (options : Options) (h : Stamped hash n s)
    (hn : n + entries.length ≤ 2 ^ 64) (hf : Fresh hash entries s.tables)
    (hv : visit.Perm (s.buckets hash entries).keys) (k : K) :
    (Sync.batchInsert hash fx options weight visit entries s).1.state.tables.lookup hash k =
      if k ∈ (fullVictims hash fx options options.policy (entryLimit none options.maxEntries)
          (s.insertAll hash fx weight (s.written hash visit entries))).map EvictionCandidate.key
      then none
      else (s.insertAll hash fx weight (s.written hash visit entries)).tables.lookup hash k := by
  obtain ⟨halike, _⟩ := (@State.writeBatch_alike _ _ _ _ fx weight _ _ _) hf h.placed hv
  have hclean : Clean hash (s.insertAll hash fx weight (s.written hash visit entries)) :=
    (h.insertAll (by rw [(State.written_perm hv).length_eq]; exact hn)).toClean
  exact (Sync.survivors_congr halike hclean k).trans (Sync.survivors hclean k)

/-- `batch_insert` is as inserting the list from left to right exactly if its stamps do not
wrap and it runs during a migration or visits the buckets in the order of the list. -/
theorem batch_insert_list_wise_iff (options : Options) (weight : K → V → Nat)
    (h : Stamped hash s.engine.sequence s) (hf : Fresh hash entries s.tables)
    (hv : visit.Perm (s.buckets hash entries).keys) :
    (ListWise hash fx entries (s.writeBatch hash fx weight visit entries).1
        (s.insertAll hash fx weight entries)
        (Sync.batchInsert hash fx options weight visit entries s).1
        (Sync.enforceEvictionLimits hash fx options weight
          (s.insertAll hash fx weight entries)) ↔
      s.engine.sequence + entries.length ≤ 2 ^ 64 ∧ (s.tables.previousShardCount ≠ 0 ∨
        Follows (fun e : K × V => s.shardIndex hash e.1) visit entries)) ∧
    (ListWise hash fx entries
        ({ s with engine := s.engine.mutation }.writeBatch hash fx weight visit entries).1
        (s.insertAll hash fx weight entries)
        (Async.batchInsert hash fx options weight visit entries s).1
        (Async.maintainEviction hash fx options weight none none
          (s.insertAll hash fx weight entries)) ↔
      s.engine.sequence + entries.length ≤ 2 ^ 64 ∧ (s.tables.previousShardCount ≠ 0 ∨
        Follows (fun e : K × V => s.shardIndex hash e.1) visit entries)) := by
  have hlt : s.engine.sequence < 2 ^ 64 := h.counter ▸ wrapping_lt _
  -- the ages are those of the list, which are in its order only if no stamp wraps
  have room {t : State K V} (hages : InListOrder fx t.engine entries)
      (hsame : ∀ e ∈ entries, t.engine.find? fx e.1 =
        (s.insertAll hash fx weight entries).engine.find? fx e.1) :
      s.engine.sequence + entries.length ≤ 2 ^ 64 := by
    have hlisted : InListOrder fx (s.insertAll hash fx weight entries).engine entries := by
      refine hages.imp_of_mem fun ha hb hab => ?_
      rw [← hsame _ ha, ← hsame _ hb]
      exact hab
    exact (inListOrder_insertAll_iff h hlt hf).mp hlisted
  rw [← written_eq_iff hv]
  constructor
  · obtain ⟨halike, _⟩ := (@State.writeBatch_alike _ _ _ _ fx weight _ _ _) hf h.placed hv
    constructor
    · intro hl
      have hn := room hl.ages hl.same
      exact ⟨hn, (ages_iff h hn hf hv).mp hl.ages⟩
    · intro ⟨hn, heq⟩
      have hages : InListOrder fx (s.writeBatch hash fx weight visit entries).1.engine entries :=
        (ages_iff h hn hf hv).mpr heq
      rw [heq] at halike
      exact ⟨hages, fun _ _ => halike.find? _, Sync.survivors_congr halike (h.insertAll hn).toClean⟩
  · let s₀ : State K V := { s with engine := s.engine.mutation }
    have hs : Alike s₀ s := ⟨rfl, rfl, rfl, rfl, rfl, rfl, rfl, rfl⟩
    have h₀ : Stamped hash s.engine.sequence s₀ :=
      ⟨hs.clean h.toClean, h.counter, h.incarnation_lt, h.inserted_lt, h.accessed_lt⟩
    obtain ⟨halike, _⟩ := (@State.writeBatch_alike _ _ _ _ fx weight s₀ _ _) hf h.placed hv
    constructor
    · intro hl
      have hn := room hl.ages hl.same
      exact ⟨hn, (ages_iff h₀ hn hf hv).mp hl.ages⟩
    · intro ⟨hn, heq⟩
      have hages : InListOrder fx (s₀.writeBatch hash fx weight visit entries).1.engine entries :=
        (ages_iff h₀ hn hf hv).mpr heq
      have heq₀ : s₀.written hash visit entries = entries := heq
      rw [heq₀] at halike
      have hlisted := halike.trans (hs.insertAll entries)
      exact ⟨hages, fun _ _ => hlisted.find? _,
        Async.survivors_congr hlisted (h.insertAll hn).toClean⟩

omit [DecidableEq K] in
/-- Entries that are listed in the order of the policy are their own ranking. -/
theorem candidates_of_pairwise {policy : CapacityPolicy} {e : Engine K} (hd : e.dirty = false)
    (h : (e.entries.map (e.candidate fx)).Pairwise fun a b => rank policy a ≤ rank policy b) :
    e.candidates fx policy = e.entries.map (e.candidate fx) := by
  unfold Engine.candidates
  rw [if_neg (by simp [hd])]
  exact List.mergeSort_of_pairwise (h.imp fun hab => decide_eq_true hab)

/-- At most two entries; the oldest leaves first. -/
def twoOldest : Options := ⟨⟨.fifo, some 2, none, none⟩, .inr rfl⟩

def inTurn : List (Nat × Nat) := [(0, 0), (1, 1), (2, 2), (3, 3)]

theorem fresh_inTurn : Fresh id inTurn (State.new Nat Nat 2).tables :=
  ⟨by decide, by decide⟩

/-- Whichever shard is visited first, an older key of the list outlives a younger one. -/
theorem inTurn_survivors :
    (Sync.enforceEvictionLimits id id twoOldest (fun _ _ => 1)
      ((State.new Nat Nat 2).insertAll id id (fun _ _ => 1) inTurn)).state.tables.lookup id 2 =
        some 2 ∧
    (Sync.enforceEvictionLimits id id twoOldest (fun _ _ => 1)
      ((State.new Nat Nat 2).insertAll id id (fun _ _ => 1) inTurn)).state.tables.lookup id 3 =
        some 3 ∧
    (Sync.batchInsert id id twoOldest (fun _ _ => 1) [0, 1] inTurn
      (State.new Nat Nat 2)).1.state.tables.lookup id 2 = none ∧
    (Sync.batchInsert id id twoOldest (fun _ _ => 1) [1, 0] inTurn
      (State.new Nat Nat 2)).1.state.tables.lookup id 3 = none := by
  have hnew : Stamped id 1 (State.new Nat Nat 2) := Stamped.new (by decide)
  have hlist : Clean id ((State.new Nat Nat 2).insertAll id id (fun _ _ => 1) inTurn) :=
    (hnew.insertAll (by decide)).toClean
  unfold Sync.enforceEvictionLimits
  refine ⟨?_, ?_, ?_, ?_⟩
  · rw [Sync.survivors hlist]
    unfold fullVictims
    rw [candidates_of_pairwise (by decide) (by decide)]
    decide
  · rw [Sync.survivors hlist]
    unfold fullVictims
    rw [candidates_of_pairwise (by decide) (by decide)]
    decide
  · rw [Sync.batchInsert_survivors twoOldest hnew (by decide) fresh_inTurn (by decide)]
    unfold fullVictims
    rw [candidates_of_pairwise (by decide) (by decide)]
    decide
  · rw [Sync.batchInsert_survivors twoOldest hnew (by decide) fresh_inTurn (by decide)]
    unfold fullVictims
    rw [candidates_of_pairwise (by decide) (by decide)]
    decide

/-- In a new map of two shards neither visit of the buckets is as the list. -/
theorem batch_insert_not_list_wise :
    ¬ ListWise id id inTurn
        ((State.new Nat Nat 2).writeBatch id id (fun _ _ => 1) [0, 1] inTurn).1
        ((State.new Nat Nat 2).insertAll id id (fun _ _ => 1) inTurn)
        (Sync.batchInsert id id twoOldest (fun _ _ => 1) [0, 1] inTurn (State.new Nat Nat 2)).1
        (Sync.enforceEvictionLimits id id twoOldest (fun _ _ => 1)
          ((State.new Nat Nat 2).insertAll id id (fun _ _ => 1) inTurn)) ∧
      ¬ ListWise id id inTurn
        ((State.new Nat Nat 2).writeBatch id id (fun _ _ => 1) [1, 0] inTurn).1
        ((State.new Nat Nat 2).insertAll id id (fun _ _ => 1) inTurn)
        (Sync.batchInsert id id twoOldest (fun _ _ => 1) [1, 0] inTurn (State.new Nat Nat 2)).1
        (Sync.enforceEvictionLimits id id twoOldest (fun _ _ => 1)
          ((State.new Nat Nat 2).insertAll id id (fun _ _ => 1) inTurn)) := by
  obtain ⟨htwo, hthree, hfirst, hsecond⟩ := inTurn_survivors
  constructor
  · intro h
    have := h.survivors 2
    rw [hfirst, htwo] at this
    cases this
  · intro h
    have := h.survivors 3
    rw [hsecond, hthree] at this
    cases this

theorem batch_insert_list_wise_iff_inTurn :
    (ListWise id id inTurn
        ((State.new Nat Nat 2).writeBatch id id (fun _ _ => 1) [0, 1] inTurn).1
        ((State.new Nat Nat 2).insertAll id id (fun _ _ => 1) inTurn)
        (Sync.batchInsert id id twoOldest (fun _ _ => 1) [0, 1] inTurn (State.new Nat Nat 2)).1
        (Sync.enforceEvictionLimits id id twoOldest (fun _ _ => 1)
          ((State.new Nat Nat 2).insertAll id id (fun _ _ => 1) inTurn)) ↔
      (State.new Nat Nat 2).engine.sequence + inTurn.length ≤ 2 ^ 64 ∧
        ((State.new Nat Nat 2).tables.previousShardCount ≠ 0 ∨
          Follows (fun e : Nat × Nat => (State.new Nat Nat 2).shardIndex id e.1) [0, 1] inTurn)) :=
  (batch_insert_list_wise_iff twoOldest (fun _ _ => 1) (Stamped.new (by decide)) fresh_inTurn
    (by decide)).1

end BatchInsert

end Starshard.Eviction
