import Starshard.Foreground.Keyed

/-! What a batch leaves and counts, whether it runs key by key or bucket by bucket. -/
namespace Starshard.Foreground

open Data
open Worker (Tables Shards slot)
open Migration (Flavor)

variable {K V : Type} [DecidableEq K] {hash : K → Nat}

section Writes

def writes (es : List (K × V)) (d : K → Option V) : K → Option V :=
  es.foldl (fun d e => Function.update d e.1 (some e.2)) d

theorem writes_cons (e : K × V) (es : List (K × V)) (d : K → Option V) :
    writes (e :: es) d = writes es (Function.update d e.1 (some e.2)) := rfl

theorem writes_append (es es' : List (K × V)) (d : K → Option V) :
    writes (es ++ es') d = writes es' (writes es d) := List.foldl_append

theorem writes_filter (es : List (K × V)) (k : K) :
    ∀ d d' : K → Option V, d k = d' k →
      writes es d k = writes (es.filter fun e => e.1 = k) d' k := by
  induction es with
  | nil => exact fun _ _ h => h
  | cons e es ih =>
    intro d d' h
    rw [writes_cons]
    by_cases he : e.1 = k
    · rw [List.filter_cons_of_pos (by simpa using he), writes_cons]
      refine ih _ _ ?_
      rw [← he, Function.update_self, Function.update_self]
    · rw [List.filter_cons_of_neg (by simpa using he)]
      refine ih _ _ ?_
      rw [Function.update_of_ne (Ne.symm he)]
      exact h

theorem writes_congr {es es' : List (K × V)} {k : K} {d d' : K → Option V} (hd : d k = d' k)
    (h : (es.filter fun e => e.1 = k) = es'.filter fun e => e.1 = k) :
    writes es d k = writes es' d' k := by
  rw [writes_filter es k d d rfl, h]
  exact (writes_filter es' k d' d hd.symm).symm

theorem writes_other {es : List (K × V)} {k : K} (d : K → Option V)
    (h : ∀ e ∈ es, e.1 ≠ k) : writes es d k = d k := by
  rw [writes_filter es k d d rfl, List.filter_eq_nil_iff.mpr (by simpa using h)]
  rfl

end Writes

section Length

variable {s s' : Live K V} {k : K}

theorem Held.represents (h : Held hash s) : Represents s.map.tables.entries (s.find hash) :=
  Migration.represents_entries h.placed

theorem Held.len_congr (h : Held hash s) (h' : Held hash s')
    (hf : ∀ k, s'.find hash k = s.find hash k) : s'.map.totalLen = s.map.totalLen := by
  rw [h.len, h'.len]
  exact Migration.length_entries_congr h.placed h'.placed hf

theorem Wrote.len_insert {v : V} (h : Held hash s) (hw : Wrote hash k (some v) s s') :
    s'.map.totalLen = countNew (s.find hash k) s.map.totalLen := by
  have hr := hw.held.represents
  rw [funext hw.find] at hr
  rw [hw.held.len, h.len]
  exact h.represents.length_insert hr

theorem Wrote.len_remove (h : Held hash s) (hw : Wrote hash k none s s') :
    countGone (s.find hash k) s'.map.totalLen = s.map.totalLen := by
  have hr := hw.held.represents
  rw [hw.held.len, h.len]
  unfold countGone
  cases hk : s.find hash k with
  | none =>
    refine Migration.length_entries_congr h.placed hw.held.placed fun k' => ?_
    refine (hw.find k').trans ?_
    by_cases hk' : k' = k
    · rw [if_pos hk', hk']
      exact hk.symm
    · exact if_neg hk'
  | some v =>
    exact (h.represents.length_erase hr hk ((hw.find k).trans (if_pos rfl))
      fun k' hk' => (hw.find k').trans (if_neg hk')).symm

theorem len_mutate {α : Type} (h : Held hash s) {i : Nat} (hi : i < s.map.tables.active.length)
    (use : ShardMutation K V → α × ShardMutation K V) :
    (s.mutate i use).2.map.totalLen + (s.shard i).size =
      s.map.totalLen + (use ⟨s.shard i, false, s.metrics⟩).2.map.size := by
  have hle : (s.shard i).size ≤ s.map.totalLen := by
    rw [h.len]
    exact size_slot_le s.map.tables hi
  change (if (s.shard i).size < (use ⟨s.shard i, false, s.metrics⟩).2.map.size then _ else _) + _
    = _
  split <;> omega

end Length

section Stable

/-- A map without a source directory. -/
def Stable (s : Live K V) : Prop := s.map.tables.previous = none

theorem Edited.stable {s s' : Live K V} (h : Edited hash s s') (hs : Stable s) : Stable s' := by
  have := h.generations
  rw [show s.map.tables.previous = none from hs] at this
  exact Option.isNone_iff_eq_none.mp (by simpa using this)

theorem Stable.find {s : Live K V} (hs : Stable s) (k : K) :
    s.find hash k = (s.shard (s.index hash k)).lookup k := by
  have hg : Gone k s.map.tables := fun p hp => by rw [hs] at hp; cases hp
  exact hg.lookup

/-- Both map types group a batch exactly when there is no source directory. -/
theorem Held.stable {s : Live K V} (h : Held hash s) {flavor : Flavor}
    (hm : s.migrating flavor = false) : Stable s := by
  cases flavor with
  | sync => exact h.previous_none (by simpa [Live.migrating] using hm)
  | async =>
    have := h.migrating
    rw [show s.map.tracker.migrating = false from hm] at this
    exact Option.isNone_iff_eq_none.mp (by simpa using this)

omit [DecidableEq K] in
theorem order_lt {β : Type} {f : β → K} {c : Nat} (hc : 0 < c) {order : List Nat} {xs : List β}
    (ho : order.Perm (Data.bucketize (fun x => hash (f x) % c) xs).keys) :
    ∀ i ∈ order, i < c := by
  intro i hi
  obtain ⟨x, _, rfl⟩ := mem_keys_bucketize.mp (ho.mem_iff.mp hi)
  exact Nat.mod_lt _ hc

/-- The grouped batch lists every element once, in the order of its bucket. -/
theorem grouped_order {β : Type} {f : β → Nat} {order : List Nat} {xs : List β}
    (ho : order.Perm (Data.bucketize f xs).keys) : (grouped f order xs).Perm xs :=
  grouped_perm (ho.nodup_iff.mpr (Data.bucketize f xs).keys_nodup) xs
    fun x hx => ho.mem_iff.mpr (mem_keys_bucketize.mpr ⟨x, hx, rfl⟩)

end Stable

section Insert

structure Inserted (hash : K → Nat) (es : List (K × V)) (acc acc' : Nat × Live K V) : Prop where
  edited : Edited hash acc.2 acc'.2
  find : ∀ k, acc'.2.find hash k = writes es (acc.2.find hash) k
  count : acc'.1 + acc.2.map.totalLen = acc.1 + acc'.2.map.totalLen
  metrics : acc'.2.metrics = { acc.2.metrics with
    inserts := acc.2.metrics.inserts + UInt64.ofNat es.length }

variable {acc acc' acc'' : Nat × Live K V}

theorem Inserted.nil (h : Held hash acc.2) : Inserted hash [] acc acc :=
  ⟨.refl h, fun _ => rfl, rfl, by simp⟩

theorem Inserted.append {es es' : List (K × V)} (h : Inserted hash es acc acc')
    (h' : Inserted hash es' acc' acc'') : Inserted hash (es ++ es') acc acc'' where
  edited := h.edited.trans h'.edited
  find k := by
    rw [h'.find k, writes_append, ← funext h.find]
  count := by
    have := h.count
    have := h'.count
    omega
  metrics := by
    rw [h'.metrics, h.metrics, List.length_append, UInt64.ofNat_add, UInt64.add_assoc]

theorem inserted_one (h : Held hash acc.2) (e : K × V) :
    Inserted hash [e] acc (insertOne hash acc e) := by
  obtain ⟨hr, hw⟩ := h.insert e.1 e.2
  refine ⟨hw.toEdited, fun k => ?_, ?_, rfl⟩
  · refine (hw.find k).trans ?_
    change _ = Function.update (acc.2.find hash) e.1 (some e.2) k
    by_cases hk : k = e.1
    · rw [if_pos hk, hk, Function.update_self]
    · rw [if_neg hk, Function.update_of_ne hk]
  · have hlen := hw.len_insert h
    unfold insertOne
    dsimp only
    rw [hr, hlen]
    unfold countNew
    split <;> omega

theorem inserted_all (es : List (K × V)) :
    ∀ {acc : Nat × Live K V}, Held hash acc.2 →
      Inserted hash es acc (es.foldl (insertOne hash) acc) := by
  induction es with
  | nil => exact fun h => .nil h
  | cons e es ih =>
    intro acc h
    have hone := inserted_one h e
    exact hone.append (ih hone.edited.held)

theorem insertTracked_foldl (es : List (K × V)) :
    ∀ acc : Nat × ShardMutation K V,
      (∀ k, (es.foldl insertTracked acc).2.map.lookup k = writes es acc.2.map.lookup k) ∧
      (es.foldl insertTracked acc).1 + acc.2.map.size =
        acc.1 + (es.foldl insertTracked acc).2.map.size ∧
      (es.foldl insertTracked acc).2.metrics =
        { acc.2.metrics with
          inserts := acc.2.metrics.inserts + UInt64.ofNat es.length } := by
  induction es with
  | nil => exact fun acc => ⟨fun _ => rfl, rfl, by simp⟩
  | cons e es ih =>
    intro acc
    obtain ⟨hl, hc, hm⟩ := ih (insertTracked acc e)
    have hsize : (insertTracked acc e).2.map.size =
        countNew (acc.2.map.lookup e.1) acc.2.map.size := Assoc.size_insert ..
    refine ⟨fun k => ?_, ?_, ?_⟩
    · rw [List.foldl_cons, hl, writes_cons]
      refine writes_congr ?_ rfl
      by_cases hk : k = e.1
      · rw [hk, Function.update_self]
        exact AList.lookup_insert _
      · rw [Function.update_of_ne hk]
        exact AList.lookup_insert_ne hk
    · rw [List.foldl_cons]
      rw [hsize] at hc
      have hone : (insertTracked acc e).1 = countNew (acc.2.map.lookup e.1) acc.1 := rfl
      rw [hone] at hc
      unfold countNew at hc
      split at hc <;> omega
    · rw [List.foldl_cons, hm, List.length_cons]
      change ({ acc.2.metrics with
        inserts := acc.2.metrics.inserts + 1 + UInt64.ofNat es.length } : Metrics) = _
      rw [UInt64.add_assoc, UInt64.add_comm 1, UInt64.ofNat_add]
      rfl

theorem inserted_bucket (h : Held hash acc.2) (hs : Stable acc.2)
    {buckets : Assoc Nat (List (K × V))} {es : List (K × V)} {i : Nat}
    (hb : (buckets.lookup i).getD [] = es) (hi : ∀ e ∈ es, acc.2.index hash e.1 = i)
    (hlt : i < acc.2.map.tables.shardCount) :
    Inserted hash es acc (insertBucket buckets acc i) := by
  have hinit := h.initShard i
  have hlen : i < (acc.2.initShard i).map.tables.active.length := by
    rw [hinit.held.placed.count, hinit.count]
    exact hlt
  have hs' := hinit.toEdited.stable hs
  obtain ⟨hl, hc, hm⟩ := insertTracked_foldl es
    (acc.1, ⟨(acc.2.initShard i).shard i, false, (acc.2.initShard i).metrics⟩)
  have hcount := hinit.count
  have hfits : Fits hash i (acc.2.initShard i).map.tables (es.foldl insertTracked
      (acc.1, ⟨(acc.2.initShard i).shard i, false, (acc.2.initShard i).metrics⟩)).2.map := by
    refine ⟨fun k v hv => ?_, fun k v _ p hp => by rw [hs'] at hp; cases hp⟩
    rw [hl] at hv
    by_cases hk : ∃ e ∈ es, e.1 = k
    · obtain ⟨e, he, rfl⟩ := hk
      rw [hcount]
      exact hi e he
    · rw [writes_other _ fun e he hek => hk ⟨e, he, hek⟩] at hv
      exact hinit.held.placed.active i k v hv
  have hmut : Edited hash (acc.2.initShard i)
      ((acc.2.initShard i).mutate i fun m => es.foldl insertTracked (acc.1, m)).2 :=
    hinit.held.mutate hlen hfits
  have heq : insertBucket buckets acc i =
      (acc.2.initShard i).mutate i fun m => es.foldl insertTracked (acc.1, m) := by
    unfold insertBucket
    rw [hb]
  rw [heq]
  refine ⟨hinit.toEdited.trans hmut, fun k => ?_, ?_, hm⟩
  · rw [find_mutate hlen, hl, ← funext hinit.find]
    split
    · next hk =>
      rw [show (acc.2.initShard i).map.tables.previous = none from hs']
      simp only [Option.bind_none, Option.orElse_eq_orElse, Option.orElse_eq_or, Option.or_none]
      refine writes_congr ?_ rfl
      rw [hs'.find , Live.index, hk]
    · next hk =>
      rw [writes_other _ fun e he hek => hk ?_]
      rw [← hek, hcount]
      exact hi e he
  · have hsum := len_mutate hinit.held hlen fun m => es.foldl insertTracked (acc.1, m)
    have hsame : (acc.2.initShard i).map.totalLen = acc.2.map.totalLen := rfl
    rw [hsame] at hsum
    dsimp only at hc hsum
    change (es.foldl insertTracked _).1 + _ = _
    omega

theorem inserted_buckets (es : List (K × V)) {c : Nat} (order : List Nat) :
    ∀ {acc : Nat × Live K V}, Held hash acc.2 → Stable acc.2 →
      acc.2.map.tables.shardCount = c → (∀ i ∈ order, i < c) →
      Inserted hash (grouped (fun e => hash e.1 % c) order es) acc
        (order.foldl (insertBucket (Data.bucketize (fun e => hash e.1 % c) es)) acc) := by
  induction order with
  | nil => exact fun h _ _ _ => .nil h
  | cons i order ih =>
    intro acc h hs hc hlt
    have hone := inserted_bucket h hs (bucket_eq (fun e => hash e.1 % c) es i)
      (fun e he => by
        unfold Live.index
        rw [hc]
        exact of_decide_eq_true (List.mem_filter.mp he).2)
      (hc ▸ hlt i List.mem_cons_self)
    exact hone.append (ih hone.edited.held (hone.edited.stable hs) (hone.edited.count.trans hc)
      fun j hj => hlt j (List.mem_cons_of_mem _ hj))

/-- A batch inserts its entries, those of one key in the order of the list. -/
theorem Held.batchInsert {s : Live K V} (h : Held hash s) (flavor : Flavor) {order : List Nat}
    {es : List (K × V)} (ho : order.Perm (Data.bucketize (fun e => s.index hash e.1) es).keys) :
    ∃ es', Inserted hash es' (0, s) (batchInsert hash flavor order es s) ∧
      es'.length = es.length ∧
      ∀ k, (es'.filter fun e => e.1 = k) = es.filter fun e => e.1 = k := by
  unfold Foreground.batchInsert
  cases hm : s.migrating flavor with
  | true => exact ⟨es, inserted_all es h, rfl, fun _ => rfl⟩
  | false =>
    refine ⟨_, inserted_buckets es order h (h.stable hm) rfl (order_lt h.placed.pos ho),
      (grouped_order ho).length_eq, fun k => ?_⟩
    refine filter_grouped (ho.nodup_iff.mpr (AList.keys_nodup _))
      (fun e he => ho.mem_iff.mpr (mem_keys_bucketize.mpr ⟨e, he, rfl⟩))
      (c := hash k % s.map.tables.shardCount) fun e he => ?_
    rw [of_decide_eq_true he]
    rfl

end Insert

section Remove

variable (flavor : Flavor) (mode : SnapshotMode)

structure Removed (hash : K → Nat) (ks : List K) (acc acc' : Nat × Live K V) : Prop where
  edited : Edited hash acc.2 acc'.2
  find : ∀ k, acc'.2.find hash k = if k ∈ ks then none else acc.2.find hash k
  mono : acc.1 ≤ acc'.1
  count : acc'.1 + acc'.2.map.totalLen = acc.1 + acc.2.map.totalLen
  metrics : acc'.2.metrics = countRemoves (acc'.1 - acc.1) acc.2.metrics

variable {acc acc' acc'' : Nat × Live K V}

theorem Removed.miss {ks : List K} (h : Held hash acc.2)
    (hn : ∀ k ∈ ks, acc.2.find hash k = none) : Removed hash ks acc acc where
  edited := .refl h
  find k := by
    split
    · next hk => exact hn k hk
    · rfl
  mono := Nat.le_refl _
  count := rfl
  metrics := by rw [Nat.sub_self, countRemoves_zero]

theorem Removed.append {ks ks' : List K} (h : Removed hash ks acc acc')
    (h' : Removed hash ks' acc' acc'') : Removed hash (ks ++ ks') acc acc'' where
  edited := h.edited.trans h'.edited
  find k := by
    rw [h'.find, h.find]
    by_cases hk : k ∈ ks <;> simp [hk]
  mono := h.mono.trans h'.mono
  count := h'.count.trans h.count
  metrics := by
    have := h.mono
    have := h'.mono
    have hsum : acc''.1 - acc.1 = (acc'.1 - acc.1) + (acc''.1 - acc'.1) := by omega
    rw [h'.metrics, h.metrics, hsum, countRemoves_add]

theorem metrics_trackedRemove (k : K) (m : ShardMutation K V) :
    (trackedRemove k m).2.metrics = countRemoves (countGone (m.map.lookup k) 0) m.metrics := by
  unfold trackedRemove countGone
  cases m.map.lookup k with
  | none => exact (countRemoves_zero _).symm
  | some v => rfl

theorem metrics_remove {s : Live K V} (h : Held hash s) (k : K) :
    (remove hash flavor mode k s).2.metrics =
      countRemoves (countGone (s.find hash k) 0) s.metrics := by
  have hl := h.lockKey k
  have hr := (h.remove flavor mode k).1
  rw [← hr]
  unfold remove
  split
  · exact (countRemoves_zero _).symm
  · dsimp only
    split
    · exact hl.metrics.trans (countRemoves_zero _).symm
    · refine (metrics_trackedRemove k _).trans ?_
      rw [hl.metrics]
      rfl

theorem removed_one (h : Held hash acc.2) (k : K) :
    Removed hash [k] acc (removeOne hash flavor mode acc k) := by
  obtain ⟨hr, hw⟩ := h.remove flavor mode k
  have hlen := hw.len_remove h
  have hm := metrics_remove flavor mode h k
  unfold removeOne
  dsimp only
  rw [hr]
  refine ⟨hw.toEdited, fun k' => ?_, ?_, ?_, ?_⟩
  · refine (hw.find k').trans ?_
    simp
  · dsimp only
    unfold countGone
    split <;> omega
  · dsimp only
    unfold countGone at hlen ⊢
    split at hlen
    · next hf =>
      rw [if_pos hf]
      omega
    · next hf =>
      rw [if_neg hf]
      omega
  · dsimp only
    rw [hm]
    unfold countGone
    split <;> simp

theorem removeTracked_foldl (ks : List K) :
    ∀ acc : Nat × ShardMutation K V,
      (∀ k, (ks.foldl removeTracked acc).2.map.lookup k =
        if k ∈ ks then none else acc.2.map.lookup k) ∧
      acc.1 ≤ (ks.foldl removeTracked acc).1 ∧
      (ks.foldl removeTracked acc).1 + (ks.foldl removeTracked acc).2.map.size =
        acc.1 + acc.2.map.size ∧
      (ks.foldl removeTracked acc).2.metrics =
        countRemoves ((ks.foldl removeTracked acc).1 - acc.1) acc.2.metrics := by
  induction ks with
  | nil =>
    refine fun acc => ⟨fun k => by simp, Nat.le_refl _, rfl, ?_⟩
    rw [List.foldl_nil, Nat.sub_self, countRemoves_zero]
  | cons k ks ih =>
    intro acc
    obtain ⟨hl, hmono, hc, hm⟩ := ih (removeTracked acc k)
    have hone : (removeTracked acc k).1 = countGone (acc.2.map.lookup k) acc.1 := rfl
    have hle : acc.1 ≤ (removeTracked acc k).1 := by
      rw [hone]
      unfold countGone
      split <;> omega
    have hsize : (removeTracked acc k).1 + (removeTracked acc k).2.map.size =
        acc.1 + acc.2.map.size := by
      have hs : (removeTracked acc k).2.map.size =
          if (acc.2.map.lookup k).isSome then acc.2.map.size - 1 else acc.2.map.size :=
        Assoc.size_erase ..
      rw [hone, hs]
      unfold countGone
      split
      · next hf =>
        obtain ⟨v, hv⟩ := Option.isSome_iff_exists.mp hf
        have := Assoc.size_pos_of_lookup hv
        omega
      · rfl
    rw [List.foldl_cons]
    refine ⟨fun k' => ?_, hle.trans hmono, hc.trans hsize, ?_⟩
    · rw [hl]
      by_cases hk : k' = k
      · subst hk
        rw [if_pos List.mem_cons_self]
        split
        · rfl
        · exact AList.lookup_erase ..
      · have hother : (removeTracked acc k).2.map.lookup k' = acc.2.map.lookup k' :=
          AList.lookup_erase_ne hk
        rw [hother]
        simp [hk]
    · have hfirst : (removeTracked acc k).2.metrics =
          countRemoves ((removeTracked acc k).1 - acc.1) acc.2.metrics := by
        refine (metrics_trackedRemove k acc.2).trans ?_
        rw [hone]
        unfold countGone
        split <;> simp
      have hsum : (ks.foldl removeTracked (removeTracked acc k)).1 - acc.1 =
          ((removeTracked acc k).1 - acc.1) +
            ((ks.foldl removeTracked (removeTracked acc k)).1 - (removeTracked acc k).1) := by
        omega
      rw [hm, hfirst, hsum, countRemoves_add]

theorem removed_bucket (h : Held hash acc.2) (hs : Stable acc.2)
    {buckets : Assoc Nat (List K)} {ks : List K} {i : Nat}
    (hb : (buckets.lookup i).getD [] = ks) (hi : ∀ k ∈ ks, acc.2.index hash k = i)
    (hlt : i < acc.2.map.tables.shardCount) :
    Removed hash ks acc (removeBucket mode buckets acc i) := by
  have hread (k : K) (hk : k ∈ ks) : acc.2.find hash k = (acc.2.shard i).lookup k := by
    rw [hs.find, hi k hk]
  unfold removeBucket
  dsimp only
  rw [hb]
  cases hslot : acc.2.map.tables.active[i]?.join with
  | none =>
    refine .miss h fun k hk => ?_
    rw [hread k hk, Live.shard, Worker.slot_of_eq_none hslot]
    rfl
  | some shard =>
    have hshard : acc.2.shard i = shard := by
      unfold Live.shard slot
      rw [hslot]
      rfl
    dsimp only
    split
    · next hmiss =>
      refine .miss h fun k hk => ?_
      have hnone := hmiss.2
      rw [Bool.not_eq_true', List.any_eq_false] at hnone
      rw [hread k hk, hshard]
      simpa using hnone k hk
    · have hlen : i < acc.2.map.tables.active.length := by
        rw [h.placed.count]
        exact hlt
      obtain ⟨hl, hmono, hc, hm⟩ := removeTracked_foldl ks
        (acc.1, ⟨acc.2.shard i, false, acc.2.metrics⟩)
      have hfits : Fits hash i acc.2.map.tables
          (ks.foldl removeTracked (acc.1, ⟨acc.2.shard i, false, acc.2.metrics⟩)).2.map := by
        refine ⟨fun k v hv => ?_, fun k v _ p hp => by rw [hs] at hp; cases hp⟩
        rw [hl] at hv
        split at hv
        · cases hv
        · exact h.placed.active i k v hv
      have hmut : Edited hash acc.2
          (acc.2.mutate i fun m => ks.foldl removeTracked (acc.1, m)).2 := h.mutate hlen hfits
      refine ⟨hmut, fun k => ?_, hmono, ?_, hm⟩
      · rw [find_mutate hlen, hl]
        split
        · next hk =>
          rw [show acc.2.map.tables.previous = none from hs, hs.find , Live.index, hk]
          simp
        · next hk =>
          rw [if_neg fun hmem => hk (hi k hmem)]
      · have hsum := len_mutate h hlen fun m => ks.foldl removeTracked (acc.1, m)
        dsimp only at hc hsum
        change (ks.foldl removeTracked _).1 + _ = _
        omega

theorem removed_all (ks : List K) :
    ∀ {acc : Nat × Live K V}, Held hash acc.2 →
      Removed hash ks acc (ks.foldl (removeOne hash flavor mode) acc) := by
  induction ks with
  | nil => exact fun h => .miss h fun _ hk => absurd hk List.not_mem_nil
  | cons k ks ih =>
    intro acc h
    have hone := removed_one flavor mode h k
    exact hone.append (ih hone.edited.held)

theorem removed_buckets (ks : List K) {c : Nat} (order : List Nat) :
    ∀ {acc : Nat × Live K V}, Held hash acc.2 → Stable acc.2 →
      acc.2.map.tables.shardCount = c → (∀ i ∈ order, i < c) →
      Removed hash (grouped (fun k => hash k % c) order ks) acc
        (order.foldl (removeBucket mode (Data.bucketize (fun k => hash k % c) ks)) acc) := by
  induction order with
  | nil => exact fun h _ _ _ => .miss h fun _ hk => absurd hk List.not_mem_nil
  | cons i order ih =>
    intro acc h hs hc hlt
    have hone := removed_bucket mode h hs
      (bucket_eq (fun k => hash k % c) ks i)
      (fun k hk => by
        unfold Live.index
        rw [hc]
        exact of_decide_eq_true (List.mem_filter.mp hk).2)
      (hc ▸ hlt i List.mem_cons_self)
    exact hone.append (ih hone.edited.held (hone.edited.stable hs) (hone.edited.count.trans hc)
      fun j hj => hlt j (List.mem_cons_of_mem _ hj))

theorem Held.batchRemove {s : Live K V} (h : Held hash s) {order : List Nat} {ks : List K}
    (ho : order.Perm (Data.bucketize (fun k => s.index hash k) ks).keys) :
    ∃ ks', Removed hash ks' (0, s) (batchRemove hash flavor mode order ks s) ∧ ks'.Perm ks := by
  unfold Foreground.batchRemove
  cases hm : s.migrating flavor with
  | true => exact ⟨ks, removed_all flavor mode ks h, .refl _⟩
  | false =>
    have hlt : ∀ i ∈ order, i < s.map.tables.shardCount := by
      intro i hi
      obtain ⟨k, _, rfl⟩ := mem_keys_bucketize.mp (ho.mem_iff.mp hi)
      exact Nat.mod_lt _ h.placed.pos
    exact ⟨_, removed_buckets mode ks order h (h.stable hm) rfl hlt, grouped_order ho⟩

end Remove

section Get

/-- The results `r` agree with `wanted` at the positions that are `done`, and are blank or
right elsewhere. -/
structure Agrees (wanted : List (Option V)) (done : List Nat) (r : List (Option V)) : Prop where
  length : r.length = wanted.length
  right : ∀ p ∈ done, r[p]? = wanted[p]?
  rest : ∀ p : Nat, r[p]? = wanted[p]? ∨ r[p]? = some none

variable {wanted : List (Option V)} {done : List Nat} {r : List (Option V)} {p : Nat}

theorem Agrees.blank (wanted : List (Option V)) :
    Agrees wanted [] (List.replicate wanted.length none) where
  length := List.length_replicate
  right _ hp := absurd hp List.not_mem_nil
  rest p := by
    rw [List.getElem?_replicate]
    split
    · exact .inr rfl
    · next hp => exact .inl (List.getElem?_eq_none (Nat.le_of_not_lt hp)).symm

theorem Agrees.set {v : Option V} (h : Agrees wanted done r) (hv : wanted[p]? = some v) :
    Agrees wanted (done ++ [p]) (r.set p v) := by
  have hlt : p < r.length := by
    rw [h.length]
    exact (List.getElem?_eq_some_iff.mp hv).1
  have hself : (r.set p v)[p]? = wanted[p]? := by
    rw [List.getElem?_set_self hlt, hv]
  refine ⟨List.length_set.trans h.length, fun q hq => ?_, fun q => ?_⟩
  · by_cases hqp : q = p
    · rw [hqp, hself]
    · rw [List.getElem?_set_ne (Ne.symm hqp)]
      exact h.right q ((List.mem_append.mp hq).resolve_right fun hm => hqp (List.mem_singleton.mp hm))
  · by_cases hqp : q = p
    · rw [hqp]
      exact .inl hself
    · rw [List.getElem?_set_ne (Ne.symm hqp)]
      exact h.rest q

theorem Agrees.skip (h : Agrees wanted done r) (hv : wanted[p]? = some none) :
    Agrees wanted (done ++ [p]) r where
  length := h.length
  right q hq := by
    rcases List.mem_append.mp hq with hq | hq
    · exact h.right q hq
    · rw [List.mem_singleton.mp hq, hv]
      rcases h.rest p with hr | hr
      · rw [hr, hv]
      · exact hr
  rest := h.rest

theorem Agrees.eq (h : Agrees wanted done r) (hd : ∀ p < wanted.length, p ∈ done) : r = wanted := by
  refine List.ext_getElem? fun p => ?_
  by_cases hp : p < wanted.length
  · exact h.right p (hd p hp)
  · rw [List.getElem?_eq_none (h.length ▸ Nat.le_of_not_lt hp),
      List.getElem?_eq_none (Nat.le_of_not_lt hp)]

/-- The counters after reads of which `hits` found a key. -/
def countReads (hits misses : Nat) (m : Metrics) : Metrics :=
  { m with
    gets := m.gets + UInt64.ofNat (hits + misses)
    hits := m.hits + UInt64.ofNat hits
    misses := m.misses + UInt64.ofNat misses }

theorem countReads_add (hits misses hits' misses' : Nat) (m : Metrics) :
    countReads hits' misses' (countReads hits misses m) =
      countReads (hits + hits') (misses + misses') m := by
  simp only [countReads, UInt64.ofNat_add, Metrics.mk.injEq, true_and, and_true]
  refine ⟨?_, UInt64.add_assoc .., UInt64.add_assoc ..⟩
  ac_rfl

/-- The keys `ks` were read at their positions, with the values of `d`. -/
structure Got (d : K → Option V) (ks : List (Nat × K)) (acc acc' : List (Option V) × Live K V) :
    Prop where
  map : acc'.2.map = acc.2.map
  metrics : acc'.2.metrics = countReads (ks.countP fun e => (d e.2).isSome)
    (ks.countP fun e => (d e.2).isNone) acc.2.metrics
  results : ∀ wanted done, (∀ e ∈ ks, wanted[e.1]? = some (d e.2)) →
    Agrees wanted done acc.1 → Agrees wanted (done ++ ks.map Prod.fst) acc'.1

variable {d : K → Option V} {acc acc' acc'' : List (Option V) × Live K V}

omit [DecidableEq K] in
theorem Got.nil : Got d [] acc acc where
  map := rfl
  metrics := by simp [countReads]
  results _ done _ h := by
    rw [List.map_nil, List.append_nil]
    exact h

omit [DecidableEq K] in
theorem Got.append {ks ks' : List (Nat × K)} (h : Got d ks acc acc') (h' : Got d ks' acc' acc'') :
    Got d (ks ++ ks') acc acc'' where
  map := h'.map.trans h.map
  metrics := by
    rw [h'.metrics, h.metrics, List.countP_append, List.countP_append, countReads_add]
  results wanted done hw ha := by
    have h₁ := h.results wanted done (fun e he => hw e (List.mem_append_left _ he)) ha
    have h₂ := h'.results wanted _ (fun e he => hw e (List.mem_append_right _ he)) h₁
    rwa [List.append_assoc, ← List.map_append] at h₂

omit [DecidableEq K] in
theorem metrics_recordRead (s : Live K V) (e : Nat × K) :
    (s.recordRead (d e.2).isSome).metrics = countReads ([e].countP fun e => (d e.2).isSome)
      ([e].countP fun e => (d e.2).isNone) s.metrics := by
  unfold Live.recordRead
  cases hd : d e.2 <;> simp [hd, Metrics.count, countReads]

theorem got_one {s : Live K V} (h : Held hash s) (hm : acc.2.map = s.map) (e : Nat × K) :
    Got (s.find hash) [e] acc (getOne hash acc e) := by
  have hread : readInner (·.lookup e.2) (hash e.2) acc.2.map.tables = s.find hash e.2 := by
    rw [hm]
    exact readInner_eq h e.2 _ rfl
  have heq : getOne hash acc e =
      (acc.1.set e.1 (s.find hash e.2), acc.2.recordRead (s.find hash e.2).isSome) := by
    unfold getOne get readWith
    dsimp only
    rw [hread, Option.map_id]
    rfl
  rw [heq]
  exact ⟨rfl, metrics_recordRead acc.2 e,
    fun wanted done hw ha => ha.set (hw e (List.mem_singleton_self e))⟩

theorem got_tracked {shard : Option (Assoc K V)} {e : Nat × K}
    (hd : d e.2 = shard.bind (·.lookup e.2)) : Got d [e] acc (getTracked shard acc e) := by
  cases shard with
  | none =>
    have hd : d e.2 = none := hd
    refine ⟨rfl, ?_, fun wanted done hw ha => ha.skip ?_⟩
    · refine Eq.trans ?_ (metrics_recordRead acc.2 e)
      rw [hd]
      rfl
    · rw [hw e (List.mem_singleton_self e), hd]
  | some m =>
    have hd : d e.2 = m.lookup e.2 := hd
    unfold getTracked
    dsimp only
    rw [← hd]
    exact ⟨rfl, metrics_recordRead acc.2 e,
      fun wanted done hw ha => ha.set (hw e (List.mem_singleton_self e))⟩

theorem got_all {s : Live K V} (h : Held hash s) (ks : List (Nat × K)) :
    ∀ {acc : List (Option V) × Live K V}, acc.2.map = s.map →
      Got (s.find hash) ks acc (ks.foldl (getOne hash) acc) := by
  induction ks with
  | nil => exact fun _ => .nil
  | cons e ks ih =>
    intro acc hm
    have hone := got_one h hm e
    exact hone.append (ih (hone.map.trans hm))

theorem got_bucket {shard : Option (Assoc K V)} (ks : List (Nat × K)) :
    ∀ {acc : List (Option V) × Live K V}, (∀ e ∈ ks, d e.2 = shard.bind (·.lookup e.2)) →
      Got d ks acc (ks.foldl (getTracked shard) acc) := by
  induction ks with
  | nil => exact fun _ => .nil
  | cons e ks ih =>
    intro acc hd
    have hone : Got d [e] acc (getTracked shard acc e) := got_tracked (hd e List.mem_cons_self)
    exact hone.append (ih fun e he => hd e (List.mem_cons_of_mem _ he))

theorem got_buckets {s : Live K V} (hs : Stable s) (ks : List (Nat × K)) (order : List Nat) :
    ∀ {acc : List (Option V) × Live K V}, acc.2.map = s.map →
      Got (s.find hash) (grouped (fun e => s.index hash e.2) order ks) acc
        (order.foldl (getBucket (Data.bucketize (fun e => s.index hash e.2) ks)) acc) := by
  induction order with
  | nil => exact fun _ => .nil
  | cons i order ih =>
    intro acc hm
    have hone : Got (s.find hash) (ks.filter fun e => s.index hash e.2 = i) acc
        (getBucket (Data.bucketize (fun e => s.index hash e.2) ks) acc i) := by
      unfold getBucket
      rw [bucket_eq]
      refine got_bucket _ fun e he => ?_
      rw [hs.find, of_decide_eq_true (List.mem_filter.mp he).2, hm]
      unfold Live.shard slot
      cases s.map.tables.active[i]?.join <;> rfl
    exact hone.append (ih (hone.map.trans hm))

end Get
end Starshard.Foreground
