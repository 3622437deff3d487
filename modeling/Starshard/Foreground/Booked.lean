import Starshard.Foreground.Ledger

/-! Every operation keeps the books: what its hooks count is what it does to an ordinary
map. -/
namespace Starshard.Foreground

open Data
open Worker (Tables Shards slot)
open Migration (Flavor)

section Events

variable {K V : Type} [DecidableEq K]

def txnEvent : TxnOp K V → Event K V
  | .read _ => .read
  | .write k v => .write k v
  | .remove k => .drop k

/-- What an operation does to the map in the directories `t`. -/
def Operation.events (t : Tables K V) : Operation K V → List (Event K V)
  | .insert k v => [.write k v]
  | .remove k => [.drop k]
  | .getOrInsertWith k f => .read :: match (contents t).lookup k with
    | some _ => []
    | none => [.write k (f ())]
  | .computeIfPresent k f => .read :: match (contents t).lookup k with
    | some v => match f v with
      | some w => [.write k w]
      | none => [.drop k]
    | none => []
  | .compareAndSwap eq k expected new => .read :: match (contents t).lookup k with
    | some v => if eq v expected then [.write k new] else []
    | none => []
  | .compareAndRemove eq k expected => .read :: match (contents t).lookup k with
    | some v => if eq v expected then [.drop k] else []
    | none => []
  | .retain predicate => (t.entries.filter fun e => !predicate e.1 e.2).map fun e => .drop e.1
  | .executeTransaction ops => ops.map txnEvent
  | .batchInsert _ entries => entries.map fun e => .write e.1 e.2
  | .batchRemove _ keys => keys.map .drop

end Events

section Books

variable {K V : Type} [DecidableEq K] {hash : K → Nat} {s s' : Live K V} {l : Ledger K V}

/-- The ledger of a map between two operations. -/
def Live.Booked (l : Ledger K V) (s : Live K V) : Prop := Books l s.map.tables s.metrics

theorem Kept.contents (h : Held hash s) (hk : Kept hash s s') :
    contents s'.map.tables = contents s.map.tables :=
  contents_congr h.placed hk.held.placed hk.find

theorem metrics_getOrInsertWith (h : Held hash s) (k : K) (f : Unit → V) :
    (getOrInsertWith hash k f s).2.metrics = match s.find hash k with
      | some _ => (s.recordRead true).metrics
      | none => (s.recordRead false).metrics.count .inserts := by
  have hshard := (h.lockKey k).shard
  unfold getOrInsertWith
  simp only [hshard]
  cases s.find hash k <;> rfl

theorem metrics_computeIfPresent (h : Held hash s) (k : K) (f : V → Option V) :
    (computeIfPresent hash k f s).2.metrics = match s.find hash k with
      | some v => match f v with
        | some _ => (s.recordRead true).metrics.count .inserts
        | none => countRemoves 1 (s.recordRead true).metrics
      | none => (s.recordRead false).metrics := by
  have hshard := (h.lockKey k).shard
  unfold computeIfPresent
  simp only [hshard]
  cases hv : s.find hash k with
  | none => rfl
  | some v =>
    dsimp only
    cases f v with
    | some w => rfl
    | none =>
      refine (metrics_trackedRemove k _).trans ?_
      change countRemoves (countGone (((s.lockKey hash k).shard (s.index hash k)).lookup k) 0)
        _ = _
      rw [hshard, hv]
      rfl

theorem metrics_compareAndSwap (h : Held hash s) (eq : V → V → Bool) (k : K)
    (expected new : V) : (compareAndSwap hash eq k expected new s).2.metrics =
      match s.find hash k with
      | some v => if eq v expected then (s.recordRead true).metrics.count .inserts
        else (s.recordRead true).metrics
      | none => (s.recordRead false).metrics := by
  have hshard := (h.lockKey k).shard
  unfold compareAndSwap
  simp only [hshard]
  cases s.find hash k with
  | none => rfl
  | some v =>
    dsimp only
    cases eq v expected <;> rfl

theorem metrics_compareAndRemove (h : Held hash s) (eq : V → V → Bool) (k : K)
    (expected : V) : (compareAndRemove hash eq k expected s).2.metrics =
      match s.find hash k with
      | some v => if eq v expected then countRemoves 1 (s.recordRead true).metrics
        else (s.recordRead true).metrics
      | none => (s.recordRead false).metrics := by
  have hshard := (h.lockKey k).shard
  unfold compareAndRemove
  simp only [hshard]
  cases hv : s.find hash k with
  | none => rfl
  | some v =>
    simp only [Option.any_some]
    by_cases he : eq v expected = true
    · rw [if_pos he, if_pos he]
      refine (metrics_trackedRemove k _).trans ?_
      change countRemoves (countGone (((s.lockKey hash k).shard (s.index hash k)).lookup k) 0)
        _ = _
      rw [hshard, hv]
      rfl
    · rw [if_neg he, if_neg he]
      rfl

theorem kept_initShards (ops : List (TxnOp K V)) : ∀ {s : Live K V}, Held hash s →
    Kept hash s (ops.foldl (fun s op => s.initShard (s.index hash op.key)) s) ∧
      (ops.foldl (fun s op => s.initShard (s.index hash op.key)) s).metrics = s.metrics := by
  induction ops with
  | nil => exact fun h => ⟨.refl h, rfl⟩
  | cons op ops ih =>
    intro s h
    have hi := h.initShard (s.index hash op.key)
    obtain ⟨hk, hm⟩ := ih hi.held
    exact ⟨hi.trans hk, hm⟩

theorem booked_transactionOp (h : Held hash s) (hb : s.Booked l) (mode : SnapshotMode)
    (op : TxnOp K V) : (transactionOp hash mode s op).Booked (l.post (txnEvent op)) := by
  have hl (k : K) : Locked hash k s (s.promote hash k) := h.promote k
  cases op with
  | read k => exact (Books.congr hb ((hl k).toKept.contents h)).read _
  | write k v => exact Books.write hb (((hl k).insert v).insert h)
  | remove k =>
    have hl := hl k
    have hfind := hl.shard
    change (if mode = .cow ∧ (((s.promote hash k).shard (s.index hash k)).lookup k).isNone then
      s.promote hash k
      else ((s.promote hash k).mutate (s.index hash k) (trackedRemove k)).2).Booked
        (l.post (.drop k))
    split
    · next hmiss =>
      have hnone : s.find hash k = none := by
        rw [← hfind]
        exact Option.isNone_iff_eq_none.mp hmiss.2
      have hd := Books.drop hb ((hl.toKept.wrote_same hnone).erase h)
      have hzero : countGone (none : Option V) 0 = 0 := rfl
      rw [h.lookup, hnone, hzero, countRemoves_zero] at hd
      exact hd
    · have hd := Books.drop hb (hl.remove.erase h)
      rw [h.lookup, ← hfind] at hd
      change Books _ _ (trackedRemove k ⟨_, _, _⟩).2.metrics
      rw [metrics_trackedRemove]
      exact hd

theorem booked_transaction (mode : SnapshotMode) (ops : List (TxnOp K V)) :
    ∀ {s : Live K V} {l : Ledger K V}, Held hash s → s.Booked l →
      (ops.foldl (transactionOp hash mode) s).Booked (l.postAll (ops.map txnEvent)) := by
  induction ops with
  | nil => exact fun _ hb => hb
  | cons op ops ih =>
    intro s l h hb
    exact ih (h.transactionOp mode op).held (booked_transactionOp h hb mode op)

theorem filter_rejected (h : Held hash s) (predicate : K → V → Bool) (k : K) :
    (s.find hash k).filter (predicate k) =
      if k ∈ (s.map.tables.entries.filter fun e => !predicate e.1 e.2).map Prod.fst then none
      else s.find hash k := by
  have hr := h.represents
  have hmem : k ∈ (s.map.tables.entries.filter fun e => !predicate e.1 e.2).map Prod.fst ↔
      ∃ v, s.find hash k = some v ∧ predicate k v = false := by
    rw [List.mem_map]
    constructor
    · rintro ⟨e, he, rfl⟩
      obtain ⟨he, hp⟩ := List.mem_filter.mp he
      exact ⟨e.2, (hr.mem e.1 e.2).mp he, by simpa using hp⟩
    · rintro ⟨v, hv, hp⟩
      exact ⟨(k, v), List.mem_filter.mpr ⟨(hr.mem k v).mpr hv, by simpa using hp⟩, rfl⟩
  cases hv : s.find hash k with
  | none => simp
  | some v =>
    rw [hv] at hmem
    cases hp : predicate k v with
    | true =>
      rw [if_neg fun hm => ?_, Option.filter_some, if_pos hp]
      obtain ⟨w, hw, hf⟩ := hmem.mp hm
      cases hw
      rw [hp] at hf
      cases hf
    | false =>
      rw [if_pos (hmem.mpr ⟨v, rfl, hp⟩), Option.filter_some, hp]
      rfl

theorem booked_retain (h : Held hash s) (hb : s.Booked l) (predicate : K → V → Bool) :
    (retain predicate s).Booked
      (l.postAll ((Operation.retain predicate).events s.map.tables)) := by
  obtain ⟨he, hf⟩ := h.retain predicate
  have hr := h.represents
  have hsizes := sizes_retain predicate (s.map.tables.active ++ s.map.tables.previous.getD [])
  rw [← length_entries, ← h.len] at hsizes
  have hlen := h.len_card
  have hlen' := he.held.len_card
  have htotal : (retain predicate s).map.totalLen = s.map.totalLen -
    ((s.map.tables.active ++ s.map.tables.previous.getD []).map fun m =>
      (m.getD ∅).size - (retainShard predicate (m.getD ∅)).size).sum := rfl
  have hd := Books.dropAll hb
    ((s.map.tables.entries.filter fun e => !predicate e.1 e.2).map Prod.fst) (fun k => by
      rw [he.held.lookup, hf, h.lookup]
      exact filter_rejected h predicate k)
    (show _ + ((s.map.tables.active ++ s.map.tables.previous.getD []).map fun m =>
      (m.getD ∅).size - (retainShard predicate (m.getD ∅)).size).sum = _ by omega)
  rw [List.map_map] at hd
  exact hd

theorem booked_operation (h : Held hash s) (hb : s.Booked l) (flavor : Flavor)
    (mode : SnapshotMode) (op : Operation K V) (ho : op.Ordered hash s) :
    (op.apply hash flavor mode s).Booked (l.postAll (op.events s.map.tables)) := by
  cases op with
  | insert k v => exact Books.write hb ((h.insert k v).2.insert h)
  | remove k =>
    have hd := Books.drop hb ((h.remove flavor mode k).2.erase h)
    rw [h.lookup] at hd
    unfold Live.Booked Operation.apply
    rwa [metrics_remove flavor mode h]
  | getOrInsertWith k f =>
    have hw := (h.getOrInsertWith k f).2
    have hread (hit : Bool) := Books.read hb hit
    unfold Live.Booked Operation.apply Operation.events
    dsimp only
    rw [metrics_getOrInsertWith h, h.lookup]
    cases hv : s.find hash k with
    | some v =>
      rw [hv] at hw
      exact (hread true).congr (hw.same h hv)
    | none =>
      rw [hv] at hw
      exact (hread false).write (hw.insert h)
  | computeIfPresent k f =>
    have hw := (h.computeIfPresent k f).2
    have hread (hit : Bool) := Books.read hb hit
    unfold Live.Booked Operation.apply Operation.events
    dsimp only
    rw [metrics_computeIfPresent h, h.lookup]
    cases hv : s.find hash k with
    | none =>
      rw [hv] at hw
      exact (hread false).congr (hw.same h hv)
    | some v =>
      rw [hv, Option.bind_some] at hw
      dsimp only
      cases hfv : f v with
      | some w =>
        rw [hfv] at hw
        exact (hread true).write (hw.insert h)
      | none =>
        rw [hfv] at hw
        have hd := (hread true).drop (hw.erase h)
        rw [h.lookup, hv] at hd
        exact hd
  | compareAndSwap eq k expected new =>
    have hw := (h.compareAndSwap eq k expected new).2
    have hread (hit : Bool) := Books.read hb hit
    unfold Live.Booked Operation.apply Operation.events
    dsimp only
    rw [metrics_compareAndSwap h, h.lookup]
    cases hv : s.find hash k with
    | none =>
      rw [hv] at hw
      exact (hread false).congr (hw.same h hv)
    | some v =>
      rw [hv, Option.map_some] at hw
      dsimp only
      split
      · next he =>
        rw [if_pos he] at hw
        exact (hread true).write (hw.insert h)
      · next he =>
        rw [if_neg he] at hw
        exact (hread true).congr (hw.same h hv)
  | compareAndRemove eq k expected =>
    have hw := (h.compareAndRemove eq k expected).2
    have hread (hit : Bool) := Books.read hb hit
    unfold Live.Booked Operation.apply Operation.events
    dsimp only
    rw [metrics_compareAndRemove h, h.lookup]
    cases hv : s.find hash k with
    | none =>
      rw [hv] at hw
      exact (hread false).congr (hw.same h hv)
    | some v =>
      rw [hv] at hw
      dsimp only
      split
      · next he =>
        rw [Option.filter_some, if_neg (by simp [he])] at hw
        have hd := (hread true).drop (hw.erase h)
        rw [h.lookup, hv] at hd
        exact hd
      · next he =>
        rw [Option.filter_some, if_pos (by simp [he])] at hw
        exact (hread true).congr (hw.same h hv)
  | retain predicate => exact booked_retain h hb predicate
  | executeTransaction ops =>
    obtain ⟨hk, hm⟩ := kept_initShards ops h
    refine booked_transaction mode ops hk.held ?_
    unfold Live.Booked
    rw [hm]
    exact Books.congr hb (hk.contents h)
  | batchInsert order entries =>
    obtain ⟨es, hi, hlen, hes⟩ := h.batchInsert flavor ho
    have hw := Books.writeAll hb entries fun k => by
      rw [hi.edited.held.lookup, hi.find, funext h.lookup]
      exact writes_congr rfl (hes k)
    rw [← hlen] at hw
    change Books _ _ (batchInsert hash flavor order entries s).2.metrics
    rw [hi.metrics]
    exact hw
  | batchRemove order keys =>
    obtain ⟨ks, hr, hp⟩ := h.batchRemove flavor mode ho
    have hlen := h.len_card
    have hlen' := hr.edited.held.len_card
    have hcount : (batchRemove hash flavor mode order keys s).1 +
        (batchRemove hash flavor mode order keys s).2.map.totalLen = 0 + s.map.totalLen := hr.count
    have hd := Books.dropAll hb keys (fun k => by
      rw [hr.edited.held.lookup, hr.find, h.lookup]
      simp only [hp.mem_iff])
      (show _ + (batchRemove hash flavor mode order keys s).1 = _ by omega)
    change Books _ _ (batchRemove hash flavor mode order keys s).2.metrics
    rw [hr.metrics]
    exact hd

theorem booked_batchGet (h : Held hash s) (hb : s.Booked l) (flavor : Flavor)
    {order : List Nat} {keys : List K}
    (ho : order.Perm (Data.bucketize (fun e => s.index hash e.2) (positions keys)).keys) :
    (batchGet hash flavor order keys s).2.map = s.map ∧
      (batchGet hash flavor order keys s).2.Booked
        (l.postAll (List.replicate keys.length .read)) := by
  obtain ⟨ks, hg, hp⟩ := h.batchGet flavor ho
  have hmap : (batchGet hash flavor order keys s).2.map = s.map := hg.map
  refine ⟨hmap, ?_⟩
  have hlen : ks.length = keys.length := by
    rw [hp.length_eq, ← List.length_map Prod.snd, positions_snd]
  have hsum : (ks.countP fun e => (s.find hash e.2).isSome) +
      (ks.countP fun e => (s.find hash e.2).isNone) = keys.length := by
    rw [← hlen, List.length_eq_countP_add_countP fun e => (s.find hash e.2).isSome]
    refine congrArg _ (List.countP_congr fun e _ => ?_)
    cases s.find hash e.2 <;> simp
  unfold Live.Booked
  rw [hmap, hg.metrics]
  exact Books.readAll hb hsum

end Books

section Emptied

variable {K V : Type} [DecidableEq K] {hash : K → Nat} {s : Live K V} {l : Ledger K V}

/-- The body of the async `clear` and `drain`, with all shards locked. -/
def drainAll (now : Nat) (s : Live K V) : Live K V where
  map :=
    { tables := s.map.tables.clear
      totalLen := 0
      writeEpoch := if s.map.tables.entries.isEmpty then s.map.writeEpoch
        else (s.map.writeEpoch + 1) % 2 ^ 64
      tracker := s.map.tracker.finish now }
  metrics := countRemoves s.map.tables.entries.length s.metrics

/-- `clear` and `drain` of both map types. -/
def clearOrDrain (flavor : Flavor) (now : Nat) (s : Live K V) : Live K V :=
  match flavor with
  | .sync => (removeAll now s).2
  | .async => drainAll now s

theorem booked_clearOrDrain (h : Held hash s) (hb : s.Booked l) (flavor : Flavor) (now : Nat) :
    (clearOrDrain flavor now s).Booked
      (l.postAll (s.map.tables.entries.map fun e => .drop e.1)) := by
  have hcontents := contents_removeAll h now
  have hlen := h.len_card
  have hl := h.len
  have hd : Books _ (removeAll now s).2.map.tables
      (countRemoves s.map.tables.entries.length s.metrics) :=
    Books.dropAll hb (s.map.tables.entries.map Prod.fst) (fun k => by
      rw [hcontents, Finmap.lookup_empty, h.lookup]
      split
      · rfl
      · next hk =>
        cases hv : s.find hash k with
        | none => rfl
        | some v =>
          exact absurd (List.mem_map.mpr ⟨(k, v), (h.represents.mem k v).mpr hv, rfl⟩) hk)
    (by
      rw [hcontents, Finmap.keys_empty, Finset.card_empty]
      omega)
  rw [List.map_map] at hd
  cases flavor <;> exact hd

end Emptied
end Starshard.Foreground
