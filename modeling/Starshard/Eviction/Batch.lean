import Starshard.Data.Grouping
import Starshard.Eviction.Hooks
import Starshard.Eviction.Outcome

/-! `batch_insert` of a configured map that is used by one task: the path of a stable
layout visits the entries shard by shard, the path of a migration in the order of the
list. Both maps write alike and differ in the pass that closes the call. -/
namespace Starshard.Eviction

open Data
open Worker (Tables slot insertAt slot_set eraseAt_of_lookup_none)

variable {K V : Type} [DecidableEq K]

namespace State

variable (hash fx : K → Nat) (weight : K → V → Nat)

/-- `promote_previous`. -/
def promotePrevious (k : K) (s : State K V) : State K V :=
  if s.tables.previousShardCount = 0 then s
  else { s with tables := s.tables.move hash (hash k % s.tables.previousShardCount) k }

/-- `tracked_insert` on the guard of the active shard `index`, and the count of the keys
that were new. -/
def trackedInsert (index : Nat) (r : State K V × Nat) (e : K × V) : State K V × Nat :=
  let replaced := ((slot r.1.tables.active index).lookup e.1).isSome
  ({ r.1 with
      tables := { r.1.tables with active := insertAt index e.1 e.2 r.1.tables.active }
      engine := r.1.engine.mutation.recordInsert fx e.1 (weight e.1 e.2) replaced },
    if replaced then r.2 else r.2 + 1)

/-- A `ShardMutation` of the active shard `index` that inserts `es` is dropped. -/
def writeShard (index : Nat) (es : List (K × V)) (r : State K V × Nat) : State K V × Nat :=
  let initialLen := (slot r.1.tables.active index).size
  let r := es.foldl (trackedInsert fx weight index) r
  let finalLen := (slot r.1.tables.active index).size
  ({ r.1 with
      totalLen := if initialLen < finalLen then r.1.totalLen + (finalLen - initialLen)
        else r.1.totalLen - (initialLen - finalLen)
      writeEpoch := if !es.isEmpty || finalLen != initialLen then wrapping (r.1.writeEpoch + 1)
        else r.1.writeEpoch }, r.2)

def insertInner (r : State K V × Nat) (e : K × V) : State K V × Nat :=
  let s := r.1.promotePrevious hash e.1
  writeShard fx weight (s.shardIndex hash e.1) [e] (s, r.2)

/-- The entries by their shard; `buckets` is an unordered map. -/
def buckets (entries : List (K × V)) (s : State K V) : Assoc Nat (List (K × V)) :=
  Data.bucketize (fun e => s.shardIndex hash e.1) entries

/-- The writes of `batch_insert`. `visit` is the order in which the map of the buckets is
iterated. -/
def writeBatch (visit : List Nat) (entries : List (K × V)) (s : State K V) : State K V × Nat :=
  if s.tables.previousShardCount ≠ 0 then entries.foldl (insertInner hash fx weight) (s, 0)
  else visit.foldl (fun r index =>
    writeShard fx weight index (((s.buckets hash entries).lookup index).getD []) r) (s, 0)

/-- The list from left to right with `insert`, without maintenance. -/
def insertAll (entries : List (K × V)) (s : State K V) : State K V :=
  entries.foldl (fun s e => s.insert hash fx e.1 e.2 (weight e.1 e.2)) s

end State

section Call

variable (hash fx : K → Nat) (options : Options) (weight : K → V → Nat)

def Sync.batchInsert (visit : List Nat) (entries : List (K × V)) (s : State K V) :
    Pass K V × Nat :=
  let r := s.writeBatch hash fx weight visit entries
  (Sync.runEviction hash fx options weight none none r.1, r.2)

/-- The ticket of the operation is open from the start. -/
def Async.batchInsert (visit : List Nat) (entries : List (K × V)) (s : State K V) :
    Pass K V × Nat :=
  let r := { s with engine := s.engine.mutation }.writeBatch hash fx weight visit entries
  (Async.maintainEviction hash fx options weight none none r.1, r.2)

end Call

structure Fresh (hash : K → Nat) (entries : List (K × V)) (t : Tables K V) : Prop where
  once : (entries.map Prod.fst).Nodup
  absent : ∀ e ∈ entries, t.lookup hash e.1 = none

section Writes

variable {hash fx : K → Nat} {weight : K → V → Nat} {s : State K V} {t : Tables K V}
  {entries es : List (K × V)} {e : K × V} {k : K}

theorem Fresh.perm (h : Fresh hash entries t) (hp : es.Perm entries) : Fresh hash es t :=
  ⟨(hp.map Prod.fst).nodup_iff.mpr h.once, fun e he => h.absent e (hp.mem_iff.mp he)⟩

theorem Fresh.head (h : Fresh hash (e :: es) t) : t.lookup hash e.1 = none :=
  h.absent e List.mem_cons_self

theorem Fresh.tail (h : Fresh hash (e :: es) t) (hp : t.Placed hash) :
    Fresh hash es (t.insert hash e.1 e.2) := by
  obtain ⟨hnot, hn⟩ := List.nodup_cons.mp h.once
  refine ⟨hn, fun d hd => ?_⟩
  have hne : d.1 ≠ e.1 := fun he => hnot (he ▸ List.mem_map_of_mem hd)
  rw [hp.lookup_insert, if_neg hne]
  exact h.absent d (List.mem_cons_of_mem _ hd)

/-- States that differ at most in the version, in the pending work and in the metrics. -/
structure State.Alike (s s' : State K V) : Prop where
  tables : s.tables = s'.tables
  totalLen : s.totalLen = s'.totalLen
  entries : s.engine.entries = s'.engine.entries
  weight : s.engine.weight = s'.engine.weight
  sequence : s.engine.sequence = s'.engine.sequence
  epoch : s.engine.epoch = s'.engine.epoch
  dirtyEpoch : s.engine.dirtyEpoch = s'.engine.dirtyEpoch
  repairedEpoch : s.engine.repairedEpoch = s'.engine.repairedEpoch

namespace State

omit [DecidableEq K] in
theorem Alike.refl (s : State K V) : Alike s s := ⟨rfl, rfl, rfl, rfl, rfl, rfl, rfl, rfl⟩

omit [DecidableEq K] in
theorem Alike.trans {s s' s'' : State K V} (h : Alike s s') (h' : Alike s' s'') : Alike s s'' :=
  ⟨h.tables.trans h'.tables, h.totalLen.trans h'.totalLen, h.entries.trans h'.entries,
    h.weight.trans h'.weight, h.sequence.trans h'.sequence, h.epoch.trans h'.epoch,
    h.dirtyEpoch.trans h'.dirtyEpoch, h.repairedEpoch.trans h'.repairedEpoch⟩

theorem Alike.insert {s s' : State K V} (h : Alike s s') (k : K) (v : V) (w : Nat) :
    Alike (s.insert hash fx k v w) (s'.insert hash fx k v w) := by
  have hfind : s.engine.mutation.find? fx k = s'.engine.mutation.find? fx k := by
    unfold Engine.find? Engine.bucket
    rw [show s.engine.mutation.entries = s'.engine.mutation.entries from h.entries]
  have hengine : (s.insert hash fx k v w).engine =
      s.engine.mutation.recordInsert fx k w (s.tables.lookup hash k).isSome := rfl
  have hengine' : (s'.insert hash fx k v w).engine =
      s'.engine.mutation.recordInsert fx k w (s.tables.lookup hash k).isSome := by
    rw [h.tables]
    rfl
  refine ⟨congrArg (Tables.insert hash k v) h.tables, ?_, ?_, ?_, ?_, ?_, ?_, ?_⟩
  · change (if _ then _ else _) = if _ then _ else _
    rw [h.tables, h.totalLen]
  all_goals
    rw [hengine, hengine', Engine.recordInsert_eq, Engine.recordInsert_eq, hfind]
    cases s'.engine.mutation.find? fx k <;>
      simp [Engine.mutation, Engine.markPending, h.entries, h.weight, h.sequence, h.epoch,
        h.dirtyEpoch, h.repairedEpoch]

theorem Alike.insertAll {s s' : State K V} (h : Alike s s') (es : List (K × V)) :
    Alike (s.insertAll hash fx weight es) (s'.insertAll hash fx weight es) := by
  induction es generalizing s s' with
  | nil => exact h
  | cons e es ih => exact ih (h.insert e.1 e.2 _)

theorem insertAll_congr (fx : K → Nat) (weight : K → V → Nat) {s s' : State K V}
    (ht : s.tables = s'.tables) (he : s.engine = s'.engine) (es : List (K × V)) :
    (s.insertAll hash fx weight es).tables = (s'.insertAll hash fx weight es).tables ∧
      (s.insertAll hash fx weight es).engine = (s'.insertAll hash fx weight es).engine := by
  induction es generalizing s s' with
  | nil => exact ⟨ht, he⟩
  | cons e es ih =>
    refine @ih (s.insert hash fx e.1 e.2 _) (s'.insert hash fx e.1 e.2 _) ?_ ?_
    · exact congrArg (Tables.insert hash e.1 e.2) ht
    · change Engine.recordInsert fx _ _ _ _ = Engine.recordInsert fx _ _ _ _
      rw [ht, he]

theorem slots_absent (hk : t.lookup hash k = none) :
    (slot t.active (hash k % t.shardCount)).lookup k = none ∧
      ∀ p, t.previous = some p → (slot p (hash k % t.previousShardCount)).lookup k = none := by
  unfold Tables.lookup at hk
  cases ha : (slot t.active (hash k % t.shardCount)).lookup k with
  | some v =>
    rw [ha] at hk
    cases hk
  | none =>
    rw [ha] at hk
    refine ⟨rfl, fun p hp => ?_⟩
    rw [hp] at hk
    exact hk

theorem insert_absent (hk : t.lookup hash k = none) (v : V) :
    t.insert hash k v = { t with active := insertAt (hash k % t.shardCount) k v t.active } := by
  have hdetach : t.detach hash k = t := by
    unfold Tables.detach
    cases hp : t.previous with
    | none => rw [Option.map_none, ← hp]
    | some p => rw [Option.map_some, eraseAt_of_lookup_none ((slots_absent hk).2 p hp), ← hp]
  unfold Tables.insert
  rw [hdetach]
  rfl

theorem promotePrevious_absent (hk : s.tables.lookup hash k = none) :
    s.promotePrevious hash k = s := by
  unfold promotePrevious Tables.move
  by_cases hc : s.tables.previousShardCount = 0
  · rw [if_pos hc]
  · rw [if_neg hc]
    cases hp : s.tables.previous with
    | none => rfl
    | some p => simp only [(slots_absent hk).2 p hp]

theorem trackedInsert_absent (hk : s.tables.lookup hash e.1 = none) (n : Nat) :
    trackedInsert fx weight (s.shardIndex hash e.1) (s, n) e =
      ({ s.insert hash fx e.1 e.2 (weight e.1 e.2) with
          totalLen := s.totalLen
          writeEpoch := s.writeEpoch }, n + 1) := by
  have hslot : (slot s.tables.active (s.shardIndex hash e.1)).lookup e.1 = none :=
    (slots_absent hk).1
  unfold trackedInsert State.insert
  dsimp only
  rw [hslot, hk, insert_absent hk]
  rfl

theorem size_insert_absent (hp : t.Placed hash) (hk : t.lookup hash e.1 = none) :
    (slot (t.insert hash e.1 e.2).active (hash e.1 % t.shardCount)).size =
      (slot t.active (hash e.1 % t.shardCount)).size + 1 := by
  rw [insert_absent hk]
  dsimp only
  unfold insertAt
  rw [slot_set (hp.index_lt e.1), if_pos rfl, Assoc.size_insert, (slots_absent hk).1]
  rfl

/-- What the new entries of one shard write before their `ShardMutation` is dropped. -/
theorem foldl_trackedInsert {index : Nat} (n : Nat) (hf : Fresh hash entries s.tables)
    (hp : s.tables.Placed hash) (hi : ∀ e ∈ entries, s.shardIndex hash e.1 = index) :
    (entries.foldl (trackedInsert fx weight index) (s, n)).1.tables =
        (s.insertAll hash fx weight entries).tables ∧
      (entries.foldl (trackedInsert fx weight index) (s, n)).1.engine =
        (s.insertAll hash fx weight entries).engine ∧
      (entries.foldl (trackedInsert fx weight index) (s, n)).1.totalLen = s.totalLen ∧
      (entries.foldl (trackedInsert fx weight index) (s, n)).2 = n + entries.length ∧
      (slot (s.insertAll hash fx weight entries).tables.active index).size =
        (slot s.tables.active index).size + entries.length := by
  induction entries generalizing s n with
  | nil => exact ⟨rfl, rfl, rfl, rfl, rfl⟩
  | cons e es ih =>
    have hindex := hi e List.mem_cons_self
    let s' : State K V := { s.insert hash fx e.1 e.2 (weight e.1 e.2) with
      totalLen := s.totalLen
      writeEpoch := s.writeEpoch }
    obtain ⟨ht, he, hl, hn, hs⟩ := ih (s := s') (n + 1) (hf.tail hp) (hp.insert e.1 e.2)
      fun d hd => hi d (List.mem_cons_of_mem _ hd)
    obtain ⟨htables, hengine⟩ := (@insertAll_congr _ _ _ hash fx weight s'
      (s.insert hash fx e.1 e.2 (weight e.1 e.2))) rfl rfl es
    have hsize : (slot s'.tables.active index).size = (slot s.tables.active index).size + 1 := by
      rw [← hindex]
      exact size_insert_absent hp hf.head
    rw [List.foldl_cons, ← hindex, trackedInsert_absent hf.head, hindex]
    refine ⟨ht.trans htables, he.trans hengine, hl, ?_, ?_⟩
    · rw [hn, List.length_cons]
      omega
    · rw [htables, hsize] at hs
      refine hs.trans ?_
      rw [List.length_cons]
      omega

theorem totalLen_insertAll (hf : Fresh hash entries s.tables) (hp : s.tables.Placed hash) :
    (s.insertAll hash fx weight entries).totalLen = s.totalLen + entries.length := by
  induction entries generalizing s with
  | nil => rfl
  | cons e es ih =>
    change ((s.insert hash fx e.1 e.2 _).insertAll hash fx weight es).totalLen = _
    rw [ih (s := s.insert hash fx e.1 e.2 _) (hf.tail hp) (hp.insert e.1 e.2)]
    change (if _ then _ else _) + _ = _
    rw [hf.head, List.length_cons, if_neg (by simp)]
    omega

/-- The new entries of one shard are written as one by one. -/
theorem writeShard_alike {index : Nat} (n : Nat) (hf : Fresh hash entries s.tables)
    (hp : s.tables.Placed hash) (hi : ∀ e ∈ entries, s.shardIndex hash e.1 = index) :
    Alike (writeShard fx weight index entries (s, n)).1 (s.insertAll hash fx weight entries) ∧
      (writeShard fx weight index entries (s, n)).2 = n + entries.length := by
  obtain ⟨ht, he, hl, hn, hs⟩ := (@foldl_trackedInsert _ _ _ _ fx weight) n hf hp hi
  refine ⟨⟨ht, ?_, ?_, ?_, ?_, ?_, ?_, ?_⟩, hn⟩
  · unfold writeShard
    dsimp only
    rw [ht, hl, hs, totalLen_insertAll hf hp]
    split
    · omega
    · omega
  · exact congrArg Engine.entries he
  · exact congrArg Engine.weight he
  · exact congrArg Engine.sequence he
  · exact congrArg Engine.epoch he
  · exact congrArg Engine.dirtyEpoch he
  · exact congrArg Engine.repairedEpoch he

theorem insertInner_alike (n : Nat) (hk : s.tables.lookup hash e.1 = none)
    (hp : s.tables.Placed hash) :
    Alike (insertInner hash fx weight (s, n) e).1 (s.insert hash fx e.1 e.2 (weight e.1 e.2)) ∧
      (insertInner hash fx weight (s, n) e).2 = n + 1 := by
  have hf : Fresh hash [e] s.tables :=
    ⟨List.nodup_singleton _, fun d hd => by rwa [List.mem_singleton.mp hd]⟩
  unfold insertInner
  dsimp only
  rw [promotePrevious_absent hk]
  exact writeShard_alike n hf hp fun d hd => by rw [List.mem_singleton.mp hd]

/-- On the path of a migration the list is inserted from left to right. -/
theorem foldl_insertInner {r : State K V × Nat} (hr : Alike r.1 s)
    (hf : Fresh hash entries s.tables) (hp : s.tables.Placed hash) :
    Alike (entries.foldl (insertInner hash fx weight) r).1 (s.insertAll hash fx weight entries) ∧
      (entries.foldl (insertInner hash fx weight) r).2 = r.2 + entries.length := by
  induction entries generalizing s r with
  | nil => exact ⟨hr, rfl⟩
  | cons e es ih =>
    have hk : r.1.tables.lookup hash e.1 = none := hr.tables ▸ hf.head
    have hp' : r.1.tables.Placed hash := hr.tables ▸ hp
    obtain ⟨hone, hcount⟩ := (@insertInner_alike _ _ _ _ fx weight) r.2 hk hp'
    obtain ⟨hall, hn⟩ := ih (s := s.insert hash fx e.1 e.2 (weight e.1 e.2))
      (hone.trans (hr.insert e.1 e.2 _)) (hf.tail hp) (hp.insert e.1 e.2)
    refine ⟨hall, ?_⟩
    rw [List.foldl_cons, hn, hcount, List.length_cons]
    omega

theorem Fresh.append {es' : List (K × V)} (hf : Fresh hash (es ++ es') s.tables)
    (hp : s.tables.Placed hash) : Fresh hash es s.tables ∧
      (s.insertAll hash fx weight es).tables.Placed hash ∧
      Fresh hash es' (s.insertAll hash fx weight es).tables := by
  induction es generalizing s with
  | nil => exact ⟨⟨List.nodup_nil, nofun⟩, hp, hf⟩
  | cons e es ih =>
    obtain ⟨_, hp', hf'⟩ := ih (s := s.insert hash fx e.1 e.2 (weight e.1 e.2)) (hf.tail hp)
      (hp.insert e.1 e.2)
    refine ⟨⟨?_, fun d hd => hf.absent d (List.mem_append_left _ hd)⟩, hp', hf'⟩
    have := hf.once
    rw [List.map_append] at this
    exact this.of_append_left

theorem shardCount_insertAll (es : List (K × V)) :
    (s.insertAll hash fx weight es).tables.shardCount = s.tables.shardCount := by
  induction es generalizing s with
  | nil => rfl
  | cons e es ih => exact ih (s := s.insert hash fx e.1 e.2 (weight e.1 e.2))

/-- On the path of a stable layout the buckets are inserted one after the other. -/
theorem foldl_writeShard {b : Nat → List (K × V)} {visit : List Nat} {r : State K V × Nat}
    (hr : Alike r.1 s) (hf : Fresh hash (visit.flatMap b) s.tables) (hp : s.tables.Placed hash)
    (hi : ∀ i ∈ visit, ∀ e ∈ b i, s.shardIndex hash e.1 = i) :
    Alike (visit.foldl (fun r i => writeShard fx weight i (b i) r) r).1
        (s.insertAll hash fx weight (visit.flatMap b)) ∧
      (visit.foldl (fun r i => writeShard fx weight i (b i) r) r).2 =
        r.2 + (visit.flatMap b).length := by
  induction visit generalizing s r with
  | nil => exact ⟨hr, rfl⟩
  | cons i visit ih =>
    rw [List.flatMap_cons] at hf
    obtain ⟨hhead, hp', htail⟩ := (@Fresh.append _ _ _ _ fx weight _ _ _) hf hp
    have hindex : ∀ e ∈ b i, r.1.shardIndex hash e.1 = i := by
      intro e he
      rw [← hi i List.mem_cons_self e he]
      unfold shardIndex
      rw [hr.tables]
    obtain ⟨hone, hcount⟩ := (@writeShard_alike _ _ _ _ fx weight _ _ _) r.2
      (hr.tables ▸ hhead) (hr.tables ▸ hp) hindex
    obtain ⟨hall, hn⟩ := ih (s := s.insertAll hash fx weight (b i))
      (hone.trans (hr.insertAll (b i))) htail hp' fun j hj e he => by
        rw [← hi j (List.mem_cons_of_mem _ hj) e he]
        unfold shardIndex
        rw [shardCount_insertAll]
    have hsplit : s.insertAll hash fx weight ((i :: visit).flatMap b) =
        (s.insertAll hash fx weight (b i)).insertAll hash fx weight (visit.flatMap b) := by
      rw [List.flatMap_cons]
      exact List.foldl_append
    rw [hsplit, List.foldl_cons]
    refine ⟨hall, ?_⟩
    rw [hn, hcount, List.flatMap_cons, List.length_append]
    omega

def written (hash : K → Nat) (visit : List Nat) (entries : List (K × V)) (s : State K V) :
    List (K × V) :=
  if s.tables.previousShardCount ≠ 0 then entries
  else grouped (fun e => s.shardIndex hash e.1) visit entries

variable {visit : List Nat}

omit [DecidableEq K] in
theorem mem_visit (hv : visit.Perm (s.buckets hash entries).keys) :
    visit.Nodup ∧ ∀ e ∈ entries, s.shardIndex hash e.1 ∈ visit :=
  ⟨hv.nodup_iff.mpr (AList.keys_nodup _), fun e he =>
    hv.mem_iff.mpr (mem_keys_bucketize.mpr ⟨e, he, rfl⟩)⟩

omit [DecidableEq K] in
theorem written_perm (hv : visit.Perm (s.buckets hash entries).keys) :
    (s.written hash visit entries).Perm entries := by
  unfold written
  split
  · exact .refl _
  · exact grouped_perm (mem_visit hv).1 entries (mem_visit hv).2

/-- `batch_insert` inserts one by one what it has put in its own order. -/
theorem writeBatch_alike (hf : Fresh hash entries s.tables) (hp : s.tables.Placed hash)
    (hv : visit.Perm (s.buckets hash entries).keys) :
    Alike (s.writeBatch hash fx weight visit entries).1
        (s.insertAll hash fx weight (s.written hash visit entries)) ∧
      (s.writeBatch hash fx weight visit entries).2 = entries.length := by
  have hlen := (written_perm hv).length_eq
  have hfresh := hf.perm (written_perm hv)
  unfold written at hlen hfresh ⊢
  unfold writeBatch
  by_cases hc : s.tables.previousShardCount ≠ 0
  · rw [if_pos hc, if_pos hc]
    obtain ⟨hall, hn⟩ := (@foldl_insertInner _ _ _ _ fx weight) (.refl s) hf hp (r := (s, 0))
    exact ⟨hall, hn.trans (Nat.zero_add _)⟩
  · rw [if_neg hc] at hlen hfresh
    rw [if_neg hc, if_neg hc]
    simp only [buckets, bucket_eq]
    obtain ⟨hall, hn⟩ := (@foldl_writeShard _ _ _ _ fx weight) (.refl s) hfresh hp
      (r := (s, 0)) fun i _ e he => of_decide_eq_true (List.mem_filter.mp he).2
    exact ⟨hall, hn.trans (by rw [Nat.zero_add]; exact hlen)⟩

end State

end Writes

end Starshard.Eviction
