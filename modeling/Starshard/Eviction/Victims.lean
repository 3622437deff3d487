import Starshard.Eviction.Greedy
import Starshard.Eviction.Passes

/-! What a pass evicts. Each decision of a pass concerns candidates that still
describe their entry, so every selected candidate is removed, and a pass amounts
to the list of its victims. -/
namespace Starshard.Eviction

open Data
open Worker (Tables slot)

variable {K V : Type}

section Removal

variable {fx : K → Nat} {e : Engine K} {x y : Entry K}

theorem Engine.drop_eq {n : Nat} {p : Entry K → Bool} (h : (e.bucket fx n).find? p = some x) :
    e.drop fx n p =
      { e with
        entries := e.entries.eraseP fun y => decide (fx y.key = n) && p y
        weight := e.weight - x.weight } := by
  unfold drop
  rw [h]

/-- The candidate of an entry names that entry and no other. -/
theorem Engine.recordEviction_split (fx : K → Nat) (hn : (e.entries.map Entry.incarnation).Nodup)
    (hx : x ∈ e.entries) :
    ∃ pre post, e.entries = pre ++ x :: post ∧
      (e.recordEviction fx (e.candidate fx x)).entries = pre ++ post ∧
      (e.recordEviction fx (e.candidate fx x)).weight = e.weight - x.weight := by
  have hinj := List.inj_on_of_nodup_map hn
  obtain ⟨y, pre, post, -, hy, hsplit, herase⟩ := List.exists_of_eraseP
    (p := fun y => decide (fx y.key = fx x.key) && decide (y.incarnation = x.incarnation)) hx
    (by simp)
  have hyx : y = x := hinj (by rw [hsplit]; simp) hx (by simpa using (Bool.and_eq_true_iff.mp hy).2)
  subst hyx
  have hfind : (e.bucket fx (fx y.key)).find? (fun z => decide (z.incarnation = y.incarnation)) =
      some y := by
    have hsome : ((e.bucket fx (fx y.key)).find? fun z =>
        decide (z.incarnation = y.incarnation)).isSome := by
      rw [List.find?_isSome]
      exact ⟨y, List.mem_filter.mpr ⟨hx, by simp⟩, by simp⟩
    obtain ⟨z, hz⟩ := Option.isSome_iff_exists.mp hsome
    have hmem := (List.mem_filter.mp (List.mem_of_find?_eq_some hz)).1
    have hinc : z.incarnation = y.incarnation := by simpa using List.find?_some hz
    rw [hz, hinj hmem hx hinc]
  have hdrop := Engine.drop_eq (e := { e with metrics := e.metrics.count .evictions }) hfind
  exact ⟨pre, post, hsplit, (congrArg entries hdrop).trans herase, congrArg Engine.weight hdrop⟩

theorem Engine.recordEviction_same (c : EvictionCandidate K) :
    (e.recordEviction fx c).epoch = e.epoch ∧ (e.recordEviction fx c).dirty = e.dirty := by
  unfold recordEviction drop
  split <;> exact ⟨rfl, rfl⟩

variable [DecidableEq K]

theorem Engine.find?_eq_some {k : K} (h : e.find? fx k = some x) : x ∈ e.entries ∧ x.key = k :=
  ⟨(List.mem_filter.mp (List.mem_of_find?_eq_some h)).1, by simpa using List.find?_some h⟩

theorem Engine.find?_isSome (fx : K → Nat) {k : K} :
    (e.find? fx k).isSome ↔ k ∈ e.entries.map Entry.key := by
  unfold find? bucket
  rw [List.find?_isSome, List.mem_map]
  constructor
  · rintro ⟨y, hy, hk⟩
    exact ⟨y, (List.mem_filter.mp hy).1, by simpa using hk⟩
  · rintro ⟨y, hy, rfl⟩
    exact ⟨y, List.mem_filter.mpr ⟨hy, by simp⟩, by simp⟩

theorem Engine.find?_split {e' : Engine K} {pre post : List (Entry K)}
    (h : e.entries = pre ++ x :: post) (h' : e'.entries = pre ++ post) {k : K} (hk : x.key ≠ k) :
    e'.find? fx k = e.find? fx k := by
  unfold find? bucket
  rw [h, h']
  simp only [List.filter_append, List.find?_append, List.filter_cons]
  congr 1
  split
  · rw [List.find?_cons_of_neg (by simpa using hk)]
  · rfl

end Removal

section Take

variable [DecidableEq K] (hash fx : K → Nat)

def Pass.take (p : Pass K V) (c : EvictionCandidate K) : Pass K V where
  state :=
    { tables := p.state.tables.remove hash c.key
      totalLen := p.state.totalLen - 1
      writeEpoch := wrapping (p.state.writeEpoch + 1)
      engine := p.state.engine.recordEviction fx c }
  removed := p.removed ++ ((p.state.tables.lookup hash c.key).map (c.key, ·)).toList

def Pass.takeAll (p : Pass K V) (cs : List (EvictionCandidate K)) : Pass K V :=
  cs.foldl (Pass.take hash fx) p

/-- The candidates describe entries of the map, one for each of their keys. -/
structure Live (s : State K V) (cs : List (EvictionCandidate K)) : Prop where
  placed : s.tables.Placed hash
  clean : s.engine.dirty = false
  incarnations : (s.engine.entries.map Entry.incarnation).Nodup
  weight : s.engine.weight = (s.engine.entries.map Entry.weight).sum
  current : ∀ c ∈ cs, ∃ x ∈ s.engine.entries, s.engine.candidate fx x = c
  stored : ∀ c ∈ cs, (s.tables.lookup hash c.key).isSome
  distinct : (cs.map EvictionCandidate.key).Nodup

variable {hash fx} {p : Pass K V} {c : EvictionCandidate K} {cs ds : List (EvictionCandidate K)}
  {s : State K V} {v : V} {i : Nat}

theorem Pass.evict_active (h : p.state.tables.Placed hash)
    (hv : (p.state.shard ⟨false, i⟩).lookup c.key = some v) :
    p.evict fx ⟨false, i⟩ c v = p.take hash fx c := by
  change (slot p.state.tables.active i).lookup c.key = some v at hv
  have hi := h.active i _ v hv
  subst hi
  have hl : p.state.tables.lookup hash c.key = some v := Tables.lookup_eq_some.mpr (.inl hv)
  have hr : p.state.eraseAt ⟨false, hash c.key % p.state.tables.shardCount⟩ c.key =
      p.state.tables.remove hash c.key := by
    unfold State.eraseAt Tables.remove Tables.detach
    cases hp : p.state.tables.previous with
    | none => simp [hp]
    | some q => simp [hp, Worker.eraseAt_of_lookup_none (h.once q hp _ _ c.key v hv)]
  unfold evict take
  rw [hr, hl]
  rfl

theorem Pass.evict_previous (h : p.state.tables.Placed hash) {q : Worker.Shards K V}
    (hq : p.state.tables.previous = some q)
    (hv : (p.state.shard ⟨true, i⟩).lookup c.key = some v) :
    p.evict fx ⟨true, i⟩ c v = p.take hash fx c := by
  have hv' : (slot q i).lookup c.key = some v := by
    simpa [State.shard, hq] using hv
  have hi := h.previous q hq i _ v hv'
  subst hi
  have hn : (slot p.state.tables.active (hash c.key % p.state.tables.shardCount)).lookup c.key =
      none := by
    cases hc : (slot p.state.tables.active (hash c.key % p.state.tables.shardCount)).lookup
        c.key with
    | none => rfl
    | some w =>
      rw [h.once q hq _ _ _ w hc] at hv'
      cases hv'
  have hl : p.state.tables.lookup hash c.key = some v :=
    Tables.lookup_eq_some.mpr (.inr ⟨hn, q, hq, hv'⟩)
  have hr : p.state.eraseAt ⟨true, hash c.key % p.state.tables.previousShardCount⟩ c.key =
      p.state.tables.remove hash c.key := by
    simp [State.eraseAt, Tables.remove, Tables.detach, Worker.eraseAt_of_lookup_none hn]
  unfold evict take
  rw [hr, hl]
  rfl

/-- Whatever shard holds a key, its removal there is its removal from the map. -/
theorem Pass.evict_eq (h : p.state.tables.Placed hash) {l : Location}
    (hv : (p.state.shard l).lookup c.key = some v) : p.evict fx l c v = p.take hash fx c := by
  obtain ⟨old, i⟩ := l
  cases old with
  | false => exact evict_active h hv
  | true =>
    cases hq : p.state.tables.previous with
    | none =>
      have hempty : p.state.shard ⟨true, i⟩ = ∅ := by simp [State.shard, hq, slot]
      rw [hempty, AList.lookup_empty] at hv
      cases hv
    | some q => exact evict_previous h hq hv

theorem Pass.lookup_shard_take {k : K} (hk : k ≠ c.key) (l : Location) :
    ((p.take hash fx c).state.shard l).lookup k = (p.state.shard l).lookup k := by
  obtain ⟨old, i⟩ := l
  cases old with
  | false =>
    change (slot (Worker.eraseAt _ c.key p.state.tables.active) i).lookup k = _
    rw [Worker.lookup_eraseAt, if_neg fun h => hk h.2]
    rfl
  | true =>
    change (slot ((p.state.tables.previous.map (Worker.eraseAt _ c.key)).getD []) i).lookup k =
      (slot (p.state.tables.previous.getD []) i).lookup k
    cases p.state.tables.previous with
    | none => rfl
    | some q =>
      change (slot (Worker.eraseAt _ c.key q) i).lookup k = _
      rw [Worker.lookup_eraseAt, if_neg fun h => hk h.2]
      rfl

theorem Pass.shard_take (i : Nat) :
    (p.take hash fx c).state.shard ⟨false, i⟩ =
      if i = p.state.shardIndex hash c.key then (p.state.shard ⟨false, i⟩).erase c.key
      else p.state.shard ⟨false, i⟩ := by
  change slot (Worker.eraseAt _ c.key p.state.tables.active) i = _
  rw [Worker.slot_eraseAt]
  unfold State.shardIndex
  split
  · next hi =>
    subst hi
    rfl
  · rfl

namespace Live

theorem sublist (h : Live hash fx s cs) (hs : ds.Sublist cs) : Live hash fx s ds where
  placed := h.placed
  clean := h.clean
  incarnations := h.incarnations
  weight := h.weight
  current c hc := h.current c (hs.subset hc)
  stored c hc := h.stored c (hs.subset hc)
  distinct := h.distinct.sublist (hs.map _)

theorem validate (h : Live hash fx s cs) (hc : c ∈ cs) : s.engine.validate fx c = true := by
  obtain ⟨x, hx, rfl⟩ := h.current c hc
  unfold Engine.validate
  rw [if_neg (by simp [h.clean, Engine.candidate]), List.any_eq_true]
  exact ⟨x, List.mem_filter.mpr ⟨hx, by simp [Engine.candidate]⟩, by simp [Engine.candidate]⟩

theorem split (h : Live hash fx p.state (c :: cs)) :
    ∃ x pre post, p.state.engine.entries = pre ++ x :: post ∧
      (p.take hash fx c).state.engine.entries = pre ++ post ∧
      (p.take hash fx c).state.engine.weight = p.state.engine.weight - c.weight ∧
      p.state.engine.candidate fx x = c := by
  obtain ⟨x, hx, rfl⟩ := h.current c List.mem_cons_self
  obtain ⟨pre, post, h₁, h₂, h₃⟩ := Engine.recordEviction_split fx h.incarnations hx
  exact ⟨x, pre, post, h₁, h₂, h₃, rfl⟩

theorem candidate_take (x : Entry K) :
    (p.take hash fx c).state.engine.candidate fx x = p.state.engine.candidate fx x := by
  change (p.state.engine.recordEviction fx c).candidate fx x = _
  unfold Engine.candidate
  rw [(Engine.recordEviction_same c).1]

theorem take (h : Live hash fx p.state (c :: cs)) : Live hash fx (p.take hash fx c).state cs := by
  obtain ⟨x, pre, post, h₁, h₂, h₃, hc⟩ := h.split
  obtain ⟨hne, hdist⟩ := List.nodup_cons.mp h.distinct
  refine ⟨h.placed.remove c.key, ?_, ?_, ?_, fun d hd => ?_, fun d hd => ?_, hdist⟩
  · exact (Engine.recordEviction_same c).2.trans h.clean
  · have hn := h.incarnations
    rw [h₁] at hn
    rw [h₂]
    exact hn.sublist (((List.sublist_cons_self x post).append_left pre).map _)
  · rw [h₃, h₂, h.weight, h₁, ← hc]
    simp [Engine.candidate]
    omega
  · obtain ⟨y, hy, rfl⟩ := h.current d (List.mem_cons_of_mem _ hd)
    refine ⟨y, ?_, candidate_take y⟩
    rw [h₂]
    rw [h₁] at hy
    have hyx : y ≠ x := by
      rintro rfl
      exact hne (List.mem_map.mpr ⟨_, hd, by rw [hc]⟩)
    rcases List.mem_append.mp hy with hy | hy
    · exact List.mem_append_left _ hy
    · exact List.mem_append_right _ ((List.mem_cons.mp hy).resolve_left hyx)
  · have hk : d.key ≠ c.key := fun hk => hne (List.mem_map.mpr ⟨d, hd, hk⟩)
    change (Tables.lookup hash (p.state.tables.remove hash c.key) d.key).isSome
    rw [Worker.Tables.Placed.lookup_remove, if_neg hk]
    exact h.stored d (List.mem_cons_of_mem _ hd)

theorem takeAll (h : Live hash fx p.state (cs ++ ds)) :
    Live hash fx (p.takeAll hash fx cs).state ds := by
  induction cs generalizing p with
  | nil => exact h
  | cons c cs ih => exact ih h.take

theorem found (h : Live hash fx s cs) (hc : c ∈ cs) :
    ∃ v, (s.shard ⟨false, s.shardIndex hash c.key⟩).lookup c.key = some v ∨
      (s.shard ⟨false, s.shardIndex hash c.key⟩).lookup c.key = none ∧
      ∃ q, s.tables.previous = some q ∧
        (s.shard ⟨true, hash c.key % s.tables.previousShardCount⟩).lookup c.key = some v := by
  obtain ⟨v, hv⟩ := Option.isSome_iff_exists.mp (h.stored c hc)
  refine ⟨v, (Tables.lookup_eq_some.mp hv).imp_right fun ⟨hn, q, hq, hv⟩ => ⟨hn, q, hq, ?_⟩⟩
  simpa [State.shard, hq] using hv

end Live

namespace Pass

theorem takeAll_append : p.takeAll hash fx (cs ++ ds) = (p.takeAll hash fx cs).takeAll hash fx ds :=
  List.foldl_append

theorem lookup_takeAll (k : K) :
    (p.takeAll hash fx cs).state.tables.lookup hash k =
      if k ∈ cs.map EvictionCandidate.key then none else p.state.tables.lookup hash k := by
  induction cs generalizing p with
  | nil => rfl
  | cons c cs ih =>
    change ((p.take hash fx c).takeAll hash fx cs).state.tables.lookup hash k = _
    rw [ih]
    change (if _ then none else (p.state.tables.remove hash c.key).lookup hash k) = _
    rw [Worker.Tables.Placed.lookup_remove]
    by_cases hk : k = c.key <;> simp [hk]

theorem removed_takeAll (hd : (cs.map EvictionCandidate.key).Nodup) :
    (p.takeAll hash fx cs).removed = p.removed ++
      cs.filterMap fun c => (p.state.tables.lookup hash c.key).map (c.key, ·) := by
  induction cs generalizing p with
  | nil => exact (List.append_nil _).symm
  | cons c cs ih =>
    obtain ⟨hne, hd⟩ := List.nodup_cons.mp hd
    change ((p.take hash fx c).takeAll hash fx cs).removed = _
    rw [ih hd]
    have hrest : (cs.filterMap fun d =>
        ((p.take hash fx c).state.tables.lookup hash d.key).map (d.key, ·)) =
        cs.filterMap fun d => (p.state.tables.lookup hash d.key).map (d.key, ·) := by
      refine List.filterMap_congr fun d hmem => ?_
      have hk : d.key ≠ c.key := fun hk => hne (List.mem_map.mpr ⟨d, hmem, hk⟩)
      change ((p.state.tables.remove hash c.key).lookup hash d.key).map _ = _
      rw [Worker.Tables.Placed.lookup_remove, if_neg hk]
    rw [hrest, take, List.append_assoc]
    congr 1
    cases hv : p.state.tables.lookup hash c.key with
    | none => simp [hv]
    | some v => simp [hv]

end Pass

end Take

end Starshard.Eviction
