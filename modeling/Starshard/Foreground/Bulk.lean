import Starshard.Foreground.Keyed

/-! The operations that hold routing exclusively, and transactions. -/
namespace Starshard.Foreground

open Data
open Worker (Tables Shards slot)
open Migration (Flavor)

variable {K V : Type} [DecidableEq K] {hash : K → Nat} {s : Live K V}

section Retain

variable (predicate : K → V → Bool)

omit [DecidableEq K] in
theorem slot_retain (shards : Shards K V) (i : Nat) :
    slot (shards.map fun m => m.map (retainShard predicate)) i =
      retainShard predicate (slot shards i) := by
  unfold slot
  rw [List.getElem?_map]
  cases shards[i]? with
  | none => rfl
  | some m => cases m <;> rfl

theorem lookup_retainShard {m : Assoc K V} {k : K} {v : V}
    (h : (retainShard predicate m).lookup k = some v) : m.lookup k = some v := by
  rw [retainShard, Assoc.lookup_retain] at h
  exact (Option.filter_eq_some_iff.mp h).1

omit [DecidableEq K] in
theorem size_retainShard_le (m : Assoc K V) : (retainShard predicate m).size ≤ m.size :=
  List.length_filter_le ..

omit [DecidableEq K] in
/-- What the shards keep and what is counted as removed are all their entries. -/
theorem sizes_retain (shards : Shards K V) :
    ((shards.map fun m => m.map (retainShard predicate)).map fun m => (m.getD ∅).size).sum +
      (shards.map fun m => (m.getD ∅).size - (retainShard predicate (m.getD ∅)).size).sum =
    (shards.map fun m => (m.getD ∅).size).sum := by
  induction shards with
  | nil => rfl
  | cons m shards ih =>
    have hm : (m.map (retainShard predicate)).getD ∅ = retainShard predicate (m.getD ∅) := by
      cases m <;> rfl
    have hle := size_retainShard_le predicate (m.getD ∅)
    simp only [List.map_cons, List.sum_cons, hm]
    omega

omit [DecidableEq K] in
theorem length_entries (t : Tables K V) : t.entries.length =
    ((t.active ++ t.previous.getD []).map fun m => (m.getD ∅).size).sum := by
  unfold Tables.entries
  rw [List.length_flatMap]
  simp

theorem Held.retain (h : Held hash s) : Edited hash s (retain predicate s) ∧
    ∀ k, (retain predicate s).find hash k = (s.find hash k).filter (predicate k) := by
  have hslot := slot_retain (V := V) predicate
  refine ⟨⟨⟨⟨?_, h.placed.pos, fun i k v hv => ?_, fun p hp => ?_, fun p hp => ?_,
    fun p hp i k v hv => ?_, fun p hp i j k v hv => ?_⟩, ?_, ?_⟩, rfl, rfl, rfl, ?_, ?_⟩,
    fun k => ?_⟩
  · exact (List.length_map ..).trans h.placed.count
  · simp only [Foreground.retain, hslot] at hv
    exact h.placed.active i k v (lookup_retainShard predicate hv)
  · obtain ⟨q, hq, rfl⟩ := Option.map_eq_some_iff.mp hp
    exact (List.length_map ..).trans (h.placed.length q hq)
  · obtain ⟨q, hq, rfl⟩ := Option.map_eq_some_iff.mp hp
    rw [List.length_map]
    exact h.placed.sources q hq
  · obtain ⟨q, hq, rfl⟩ := Option.map_eq_some_iff.mp hp
    rw [hslot] at hv
    exact h.placed.previous q hq i k v (lookup_retainShard predicate hv)
  · obtain ⟨q, hq, rfl⟩ := Option.map_eq_some_iff.mp hp
    simp only [Foreground.retain, hslot] at hv
    rw [hslot, retainShard, Assoc.lookup_retain,
      h.placed.once q hq i j k v (lookup_retainShard predicate hv)]
    rfl
  · have hsizes := sizes_retain predicate (s.map.tables.active ++ s.map.tables.previous.getD [])
    have hlen := h.len
    have hprev : (s.map.tables.previous.map fun slots => slots.map fun m =>
        m.map (retainShard predicate)).getD [] = (s.map.tables.previous.getD []).map fun m =>
          m.map (retainShard predicate) := by
      cases s.map.tables.previous <;> rfl
    rw [length_entries] at hlen ⊢
    simp only [Foreground.retain, hprev, ← List.map_append]
    omega
  · exact (Option.isSome_map ..).trans h.migrating
  · exact Option.isSome_map ..
  · intro p hp
    obtain ⟨q, hq, rfl⟩ := Option.map_eq_some_iff.mp hp
    refine ⟨q, hq, List.length_map .., fun i hi => ?_⟩
    rw [hslot, hi]
    rfl
  · simp only [Live.find, Foreground.retain, Tables.lookup, hslot]
    rw [retainShard, Assoc.lookup_retain]
    cases hp : s.map.tables.previous with
    | none => cases (slot s.map.tables.active _).lookup k <;> simp
    | some p =>
      simp only [Option.map_some, Option.bind_some, hslot]
      rw [retainShard, Assoc.lookup_retain]
      cases hv : (slot s.map.tables.active (hash k % s.map.tables.shardCount)).lookup k with
      | none => simp
      | some v =>
        rw [h.placed.once p hp _ _ k v hv]
        simp

end Retain

section RemoveAll

theorem Held.removeAll (h : Held hash s) (now : Nat) :
    Held hash (removeAll now s).2 ∧ (∀ k, (removeAll now s).2.find hash k = none) ∧
      Represents (removeAll now s).1 (s.find hash) := by
  have hplaced : s.map.tables.clear.Placed hash := (h.placed.wipe _).finish
  have hempty : s.map.tables.clear.entries = [] := Migration.entries_clear
  refine ⟨⟨hplaced, ?_, rfl⟩, fun k => ?_, Migration.represents_entries h.placed⟩
  · change s.map.totalLen - s.map.tables.entries.length = s.map.tables.clear.entries.length
    rw [h.len, hempty, Nat.sub_self]
    rfl
  · change s.map.tables.clear.lookup hash k = none
    cases hv : s.map.tables.clear.lookup hash k with
    | none => rfl
    | some v =>
      have hm := ((Migration.represents_entries hplaced).mem k v).mpr hv
      rw [hempty] at hm
      cases hm

end RemoveAll

section Drain

omit [DecidableEq K]

/-- The iterator after `n` steps, with the length reported before each step and what the
step yields. -/
def DrainIterator.steps : Nat → DrainIterator K V →
    List (Nat × Option (K × V)) × DrainIterator K V
  | 0, it => ([], it)
  | n + 1, it =>
    let rest := (it.next.2).steps n
    ((it.len, it.next.1) :: rest.1, rest.2)

theorem DrainIterator.next_cons (e : K × V) (items : List (K × V)) :
    (⟨e :: items, 0⟩ : DrainIterator K V).next =
      (some e, ⟨swapRemove (e :: items) 0, 0⟩) := rfl

/-- Every entry is yielded once, and the length before each step is exact. -/
theorem DrainIterator.drained (items : List (K × V)) :
    ∃ (yielded : List (K × V)) (last : DrainIterator K V), yielded.Perm items ∧
      (⟨items, 0⟩ : DrainIterator K V).steps items.length =
        ((List.range items.length).zipWith (fun n e => (items.length - n, some e)) yielded, last) ∧
      last.len = 0 ∧ last.next = (none, last) := by
  induction hn : items.length generalizing items with
  | zero =>
    rw [List.length_eq_zero_iff] at hn
    subst hn
    exact ⟨[], ⟨[], 0⟩, .refl _, rfl, rfl, rfl⟩
  | succ n ih =>
    obtain ⟨e, items, rfl⟩ := List.exists_cons_of_length_eq_add_one hn
    have hperm : (e :: swapRemove (e :: items) 0).Perm (e :: items) := swapRemove_perm rfl
    have hlen : (swapRemove (e :: items) 0).length = n := by
      have := hperm.length_eq
      simp only [List.length_cons] at this hn
      omega
    obtain ⟨yielded, last, hy, hsteps, hend⟩ := ih _ hlen
    refine ⟨e :: yielded, last, (hy.cons e).trans hperm, ?_, hend⟩
    have hl : (⟨e :: items, 0⟩ : DrainIterator K V).len = n + 1 := hn
    rw [DrainIterator.steps, DrainIterator.next_cons, hsteps, hl, List.range_succ_eq_map, List.zipWith_cons_cons,
      List.zipWith_map_left]
    simp

end Drain

section Transaction

theorem Held.transactionOp (h : Held hash s) (mode : SnapshotMode) (op : TxnOp K V) :
    Edited hash s (transactionOp hash mode s op) := by
  have hl := h.promote op.key
  cases op with
  | read k => exact (hl.recordRead _).toEdited
  | write k v => exact (hl.insert v).toEdited
  | remove k =>
    unfold Foreground.transactionOp
    dsimp only
    split
    · exact hl.toEdited
    · exact hl.remove.toEdited

theorem Edited.foldl {β : Type} {f : Live K V → β → Live K V}
    (hf : ∀ s x, Held hash s → Edited hash s (f s x)) (xs : List β) :
    ∀ {s : Live K V}, Held hash s → Edited hash s (xs.foldl f s) := by
  induction xs with
  | nil => exact fun h => .refl h
  | cons x xs ih =>
    intro s h
    have hx := hf s x h
    exact hx.trans (ih hx.held)

theorem Held.executeTransaction (h : Held hash s) (mode : SnapshotMode) (ops : List (TxnOp K V)) :
    Edited hash s (executeTransaction hash mode ops s).2 := by
  have hinit : Edited hash s
      (ops.foldl (fun s' op => s'.initShard (s'.index hash op.key)) s) :=
    Edited.foldl (fun _ _ h => (h.initShard _).toEdited) ops h
  exact hinit.trans (Edited.foldl (fun s' op h => h.transactionOp mode op) ops hinit.held)

end Transaction
end Starshard.Foreground
