import Starshard.Eviction.Victims

/-! The hooks of writes and reads keep the metadata clean. -/
namespace Starshard.Eviction

open Data
open Worker (Tables)

variable {K V : Type} [DecidableEq K] (hash fx : K → Nat)

namespace State

def new (K V : Type) (count : Nat) : State K V where
  tables := ⟨List.replicate count none, none, count, 0⟩
  totalLen := 0
  writeEpoch := 0
  engine := .new K

/-- `tracked_insert`: promote the key, write it and stamp its entry. -/
def insert (k : K) (v : V) (weight : Nat) (s : State K V) : State K V :=
  let replaced := (s.tables.lookup hash k).isSome
  { tables := s.tables.insert hash k v
    totalLen := if replaced then s.totalLen else s.totalLen + 1
    writeEpoch := wrapping (s.writeEpoch + 1)
    engine := s.engine.mutation.recordInsert fx k weight replaced }

/-- `tracked_read`. -/
def read (k : K) (s : State K V) : State K V :=
  { s with engine := s.engine.recordRead fx k (s.tables.lookup hash k).isSome }

end State

/-- The metadata describe exactly the stored entries. Stamps are drawn from one
counter, so no two entries share one. -/
structure Clean (s : State K V) : Prop where
  placed : s.tables.Placed hash
  clean : s.engine.dirty = false
  tracked : (s.engine.entries.map Entry.key).Perm (s.tables.entries.map Prod.fst)
  weight : s.engine.weight = (s.engine.entries.map Entry.weight).sum
  total : s.totalLen = s.tables.entries.length
  incarnations : (s.engine.entries.map Entry.incarnation).Nodup
  inserted : (s.engine.entries.map Entry.inserted).Nodup
  accessed : (s.engine.entries.map Entry.accessed).Nodup

/-- The counter has advanced to `n`, and all stamps are older. -/
structure Stamped (n : Nat) (s : State K V) : Prop extends Clean hash s where
  counter : s.engine.sequence = wrapping n
  incarnation_lt : ∀ x ∈ s.engine.entries, x.incarnation < n
  inserted_lt : ∀ x ∈ s.engine.entries, x.inserted < n
  accessed_lt : ∀ x ∈ s.engine.entries, x.accessed < n

variable {hash fx} {s : State K V} {k : K} {v : V} {w n : Nat}

namespace Clean

variable (h : Clean hash s)

include h

theorem keys_nodup : (s.engine.entries.map Entry.key).Nodup :=
  h.tracked.nodup_iff.mpr h.placed.entries_nodup

theorem stored {x : Entry K} (hx : x ∈ s.engine.entries) :
    (s.tables.lookup hash x.key).isSome := by
  obtain ⟨⟨k, v⟩, he, hk⟩ := List.mem_map.mp
    (h.tracked.subset (List.mem_map_of_mem (f := Entry.key) hx))
  dsimp only at hk
  subst hk
  rw [h.placed.stores_iff.mp (Worker.Tables.mem_entries.mp he)]
  rfl

theorem find (fx : K → Nat) {k : K} (hk : (s.tables.lookup hash k).isSome) :
    ∃ x ∈ s.engine.entries, x.key = k ∧ s.engine.find? fx k = some x := by
  obtain ⟨v, hv⟩ := Option.isSome_iff_exists.mp hk
  have hmem : k ∈ s.tables.entries.map Prod.fst :=
    List.mem_map.mpr ⟨(k, v), Worker.Tables.mem_entries.mpr (h.placed.stores_iff.mpr hv), rfl⟩
  obtain ⟨x, hx⟩ := Option.isSome_iff_exists.mp
    ((Engine.find?_isSome fx).mpr (h.tracked.symm.subset hmem))
  exact ⟨x, (Engine.find?_eq_some hx).1, (Engine.find?_eq_some hx).2, hx⟩

end Clean

theorem mem_keys_entries {t : Tables K V} (h : t.Placed hash) :
    k ∈ t.entries.map Prod.fst ↔ (t.lookup hash k).isSome := by
  rw [List.mem_map, Option.isSome_iff_exists]
  constructor
  · rintro ⟨⟨k, v⟩, he, rfl⟩
    exact ⟨v, h.stores_iff.mp (Worker.Tables.mem_entries.mp he)⟩
  · rintro ⟨v, hv⟩
    exact ⟨(k, v), Worker.Tables.mem_entries.mpr (h.stores_iff.mpr hv), rfl⟩

theorem keys_perm {t : Tables K V} (h : t.Placed hash) {l : List K} (hn : l.Nodup)
    (hl : ∀ k, k ∈ l ↔ (t.lookup hash k).isSome) : l.Perm (t.entries.map Prod.fst) :=
  (List.perm_ext_iff_of_nodup hn h.entries_nodup).mpr fun k => by rw [hl, mem_keys_entries h]

omit [DecidableEq K] in
theorem nodup_fresh {pre post : List (Entry K)} {x x' : Entry K} {f : Entry K → Nat} {n : Nat}
    (hn : ((pre ++ x :: post).map f).Nodup) (hlt : ∀ y ∈ pre ++ x :: post, f y < n)
    (hx' : f x' = n) : ((pre ++ x' :: post).map f).Nodup := by
  rw [(List.perm_middle.map f).nodup_iff, List.map_cons, List.nodup_cons] at hn ⊢
  refine ⟨fun hmem => ?_, hn.2⟩
  obtain ⟨y, hy, he⟩ := List.mem_map.mp hmem
  have hy' : y ∈ pre ++ x :: post := by
    rcases List.mem_append.mp hy with hy | hy
    · exact List.mem_append_left _ hy
    · exact List.mem_append_right _ (List.mem_cons_of_mem _ hy)
  have := hlt y hy'
  omega

theorem map_split {es : List (Entry K)} {x : Entry K} (hn : (es.map Entry.key).Nodup) (hx : x ∈ es)
    (f : Entry K → Entry K) :
    ∃ pre post, es = pre ++ x :: post ∧
      es.map (fun y => if y.key = x.key then f y else y) = pre ++ f x :: post := by
  obtain ⟨pre, post, rfl⟩ := List.append_of_mem hx
  rw [List.map_append, List.map_cons, List.nodup_append] at hn
  obtain ⟨-, hpost, hpre⟩ := hn
  have hid : ∀ l : List (Entry K), (∀ y ∈ l, y.key ≠ x.key) →
      l.map (fun y => if y.key = x.key then f y else y) = l := fun l hl => by
    have : l.map (fun y => if y.key = x.key then f y else y) = l.map id :=
      List.map_congr_left fun y hy => if_neg (hl y hy)
    rw [this, List.map_id]
  have hpre' := hid pre fun y hy hk => hpre _ (List.mem_map_of_mem hy) _ List.mem_cons_self hk
  have hpost' := hid post fun y hy hk =>
    (List.nodup_cons.mp hpost).1 (hk ▸ List.mem_map_of_mem hy)
  refine ⟨pre, post, rfl, ?_⟩
  rw [List.map_append, List.map_cons, if_pos rfl, hpre', hpost']

namespace Stamped

theorem new {count : Nat} (hc : 0 < count) : Stamped hash 1 (State.new K V count) where
  placed :=
    { count := List.length_replicate
      pos := hc
      active := fun i k v hv => by simp [State.new] at hv
      length := fun _ hp => by cases hp
      sources := fun _ hp => by cases hp
      previous := fun _ hp => by cases hp
      once := fun _ hp => by cases hp }
  clean := rfl
  tracked := by
    have : (State.new K V count).tables.entries = [] := by
      simp [State.new, Tables.entries, Assoc.items]
    rw [this]
    exact .refl _
  weight := rfl
  total := by simp [State.new, Tables.entries, Assoc.items]
  incarnations := List.nodup_nil
  inserted := List.nodup_nil
  accessed := List.nodup_nil
  counter := rfl
  incarnation_lt _ hx := by cases hx
  inserted_lt _ hx := by cases hx
  accessed_lt _ hx := by cases hx

end Stamped

theorem Engine.recordInsert_eq (e : Engine K) (k : K) (w : Nat) (b : Bool) :
    e.recordInsert fx k w b = match e.find? fx k with
      | some x =>
        { e with
          metrics := e.metrics.count .inserts
          sequence := wrapping (e.sequence + 1)
          entries := e.entries.map fun y => if y.key = k then refresh e.sequence w b y else y
          weight := e.weight - x.weight + w }
      | none =>
        { e with
          metrics := e.metrics.count .inserts
          sequence := wrapping (e.sequence + 1)
          entries := e.entries ++ [.fresh k e.sequence w]
          weight := e.weight + w } := rfl

section Insert

variable (h : Stamped hash n s) (hn : n < 2 ^ 64)

include h hn

theorem Stamped.insert_present (hk : (s.tables.lookup hash k).isSome) :
    Stamped hash (n + 1) (s.insert hash fx k v w) := by
  obtain rfl : s.engine.sequence = n := h.counter.trans (wrapping_of_lt hn)
  obtain ⟨x, hx, rfl, hfind⟩ := h.find fx hk
  obtain ⟨pre, post, hsplit, hmap⟩ := map_split h.keys_nodup hx
    (Engine.refresh s.engine.sequence w true)
  have hins : s.insert hash fx x.key v w =
      { tables := s.tables.insert hash x.key v
        totalLen := s.totalLen
        writeEpoch := wrapping (s.writeEpoch + 1)
        engine :=
          { s.engine.mutation with
            metrics := s.engine.metrics.count .inserts
            sequence := wrapping (s.engine.sequence + 1)
            entries := pre ++ Engine.refresh s.engine.sequence w true x :: post
            weight := s.engine.weight - x.weight + w } } := by
    unfold State.insert
    dsimp only
    rw [hk, Engine.recordInsert_eq, show s.engine.mutation.find? fx x.key = some x from hfind, ← hmap]
    rfl
  have hkeys : (pre ++ Engine.refresh s.engine.sequence w true x :: post).map Entry.key =
      s.engine.entries.map Entry.key := by
    rw [hsplit]
    simp [Engine.refresh]
  have hold : ∀ y ∈ pre ++ Engine.refresh s.engine.sequence w true x :: post,
      y ∈ s.engine.entries ∨ y = Engine.refresh s.engine.sequence w true x := by
    intro y hy
    rw [hsplit]
    simp only [List.mem_append, List.mem_cons] at hy ⊢
    tauto
  have hinc := h.incarnation_lt
  have hacc := h.accessed_lt
  have hincn := h.incarnations
  have haccn := h.accessed
  rw [hsplit] at hinc hacc hincn haccn
  have htracked : (s.engine.entries.map Entry.key).Perm
      ((s.tables.insert hash x.key v).entries.map Prod.fst) := by
    refine keys_perm (h.placed.insert _ v) h.keys_nodup fun k => ?_
    rw [h.tracked.mem_iff, mem_keys_entries h.placed, h.placed.lookup_insert]
    by_cases hkx : k = x.key
    · subst hkx
      simp [hk]
    · rw [if_neg hkx]
  rw [hins]
  refine ⟨⟨h.placed.insert _ v, h.clean, ?_, ?_, ?_, nodup_fresh hincn hinc rfl, ?_,
    nodup_fresh haccn hacc rfl⟩, rfl, fun y hy => ?_, fun y hy => ?_, fun y hy => ?_⟩
  · dsimp only
    rw [hkeys]
    exact htracked
  · dsimp only
    rw [h.weight, hsplit]
    simp [Engine.refresh]
    omega
  · have h₁ := h.tracked.length_eq
    have h₂ := htracked.length_eq
    simp only [List.length_map] at h₁ h₂
    exact h.total.trans (h₁.symm.trans h₂)
  · dsimp only
    have : (pre ++ Engine.refresh s.engine.sequence w true x :: post).map Entry.inserted =
        s.engine.entries.map Entry.inserted := by
      rw [hsplit]
      simp [Engine.refresh]
    rw [this]
    exact h.inserted
  all_goals
    dsimp only at hy ⊢
    rcases hold y hy with hy | rfl
  · exact Nat.lt_succ_of_lt (h.incarnation_lt y hy)
  · exact Nat.lt_succ_self _
  · exact Nat.lt_succ_of_lt (h.inserted_lt y hy)
  · exact Nat.lt_succ_of_lt (h.inserted_lt x hx)
  · exact Nat.lt_succ_of_lt (h.accessed_lt y hy)
  · exact Nat.lt_succ_self _

theorem Stamped.insert_absent (hk : s.tables.lookup hash k = none) :
    Stamped hash (n + 1) (s.insert hash fx k v w) := by
  obtain rfl : s.engine.sequence = n := h.counter.trans (wrapping_of_lt hn)
  have hnone : s.engine.find? fx k = none := by
    rw [← Option.not_isSome_iff_eq_none, Engine.find?_isSome, h.tracked.mem_iff,
      mem_keys_entries h.placed, hk]
    simp
  have hnew : k ∉ s.engine.entries.map Entry.key := by
    rw [← Engine.find?_isSome fx, hnone]
    simp
  have hins : s.insert hash fx k v w =
      { tables := s.tables.insert hash k v
        totalLen := s.totalLen + 1
        writeEpoch := wrapping (s.writeEpoch + 1)
        engine :=
          { s.engine.mutation with
            metrics := s.engine.metrics.count .inserts
            sequence := wrapping (s.engine.sequence + 1)
            entries := s.engine.entries ++ [.fresh k s.engine.sequence w]
            weight := s.engine.weight + w } } := by
    unfold State.insert
    dsimp only
    rw [hk, Engine.recordInsert_eq, show s.engine.mutation.find? fx k = none from hnone]
    rfl
  have htracked : ((s.engine.entries ++ [Entry.fresh k s.engine.sequence w]).map Entry.key).Perm
      ((s.tables.insert hash k v).entries.map Prod.fst) := by
    refine keys_perm (h.placed.insert k v) ?_ fun k' => ?_
    · rw [List.map_append]
      exact List.nodup_append.mpr ⟨h.keys_nodup, by simp, fun a ha b hb => by
        rintro rfl
        obtain rfl : a = k := List.mem_singleton.mp hb
        exact hnew ha⟩
    · rw [List.map_append, List.mem_append, h.tracked.mem_iff, mem_keys_entries h.placed,
        h.placed.lookup_insert]
      by_cases hkk : k' = k
      · simp [hkk, Entry.fresh]
      · simp [hkk, Entry.fresh]
  have hfresh : ∀ f : Entry K → Nat, (s.engine.entries.map f).Nodup →
      (∀ y ∈ s.engine.entries, f y < s.engine.sequence) →
      f (.fresh k s.engine.sequence w) = s.engine.sequence →
      ((s.engine.entries ++ [Entry.fresh k s.engine.sequence w]).map f).Nodup := by
    intro f hn hlt hf
    rw [List.map_append]
    refine List.nodup_append.mpr ⟨hn, by simp, fun a ha b hb => ?_⟩
    obtain ⟨y, hy, rfl⟩ := List.mem_map.mp ha
    rw [List.map_singleton, List.mem_singleton, hf] at hb
    have := hlt y hy
    omega
  have hold : ∀ (f : Entry K → Nat), (∀ y ∈ s.engine.entries, f y < s.engine.sequence) →
      f (.fresh k s.engine.sequence w) = s.engine.sequence →
      ∀ y ∈ s.engine.entries ++ [Entry.fresh k s.engine.sequence w], f y < s.engine.sequence + 1 := by
    intro f hlt hf y hy
    rcases List.mem_append.mp hy with hy | hy
    · exact Nat.lt_succ_of_lt (hlt y hy)
    · rw [List.mem_singleton.mp hy, hf]
      exact Nat.lt_succ_self _
  rw [hins]
  refine ⟨⟨h.placed.insert k v, h.clean, htracked, ?_, ?_,
    hfresh _ h.incarnations h.incarnation_lt rfl, hfresh _ h.inserted h.inserted_lt rfl,
    hfresh _ h.accessed h.accessed_lt rfl⟩, rfl, hold _ h.incarnation_lt rfl, hold _ h.inserted_lt rfl,
    hold _ h.accessed_lt rfl⟩
  · simp [h.weight, Entry.fresh]
  · have h₁ := h.tracked.length_eq
    have h₂ := htracked.length_eq
    simp only [List.length_map, List.length_append, List.length_singleton] at h₁ h₂
    exact (congrArg (· + 1) (h.total.trans h₁.symm)).trans h₂

theorem Stamped.insert : Stamped hash (n + 1) (s.insert hash fx k v w) := by
  cases hk : s.tables.lookup hash k with
  | some _ => exact h.insert_present hn (by rw [hk]; rfl)
  | none => exact h.insert_absent hn hk

end Insert

section Read

theorem Engine.recordRead_hit (e : Engine K) (k : K) :
    e.recordRead fx k true = match e.find? fx k with
      | none => { e with metrics := (e.metrics.count .gets).count .hits }
      | some _ =>
        { e with
          metrics := (e.metrics.count .gets).count .hits
          sequence := wrapping (e.sequence + 1)
          entries := e.entries.map fun y => if y.key = k then touch e.sequence y else y } := rfl

theorem Stamped.read (h : Stamped hash n s) (hn : n < 2 ^ 64) :
    ∃ m, m ≤ n + 1 ∧ Stamped hash m (s.read hash fx k) := by
  obtain rfl : s.engine.sequence = n := h.counter.trans (wrapping_of_lt hn)
  cases hk : s.tables.lookup hash k with
  | none =>
    have hr : s.read hash fx k =
        { s with engine := { s.engine with
          metrics := (s.engine.metrics.count .gets).count .misses } } := by
      unfold State.read
      rw [hk]
      rfl
    rw [hr]
    exact ⟨_, Nat.le_succ _, ⟨h.placed, h.clean, h.tracked, h.weight, h.total, h.incarnations,
      h.inserted, h.accessed⟩, h.counter, h.incarnation_lt, h.inserted_lt, h.accessed_lt⟩
  | some v =>
    obtain ⟨x, hx, rfl, hfind⟩ := h.find fx (k := k) (by rw [hk]; rfl)
    obtain ⟨pre, post, hsplit, hmap⟩ := map_split h.keys_nodup hx (Engine.touch s.engine.sequence)
    have hmax : (Engine.touch s.engine.sequence x).accessed = s.engine.sequence :=
      Nat.max_eq_right (Nat.le_of_lt (h.accessed_lt x hx))
    have hr : s.read hash fx x.key =
        { s with engine := { s.engine with
          metrics := (s.engine.metrics.count .gets).count .hits
          sequence := wrapping (s.engine.sequence + 1)
          entries := pre ++ Engine.touch s.engine.sequence x :: post } } := by
      unfold State.read
      rw [hk, Option.isSome_some, Engine.recordRead_hit, hfind, ← hmap]
    have hold : ∀ y ∈ pre ++ Engine.touch s.engine.sequence x :: post,
        y ∈ s.engine.entries ∨ y = Engine.touch s.engine.sequence x := by
      intro y hy
      rw [hsplit]
      simp only [List.mem_append, List.mem_cons] at hy ⊢
      tauto
    have same : ∀ {β : Type} (f : Entry K → β), f (Engine.touch s.engine.sequence x) = f x →
        (pre ++ Engine.touch s.engine.sequence x :: post).map f = s.engine.entries.map f := by
      intro β f hf
      rw [hsplit]
      simp [hf]
    have hacc := h.accessed_lt
    have haccn := h.accessed
    rw [hsplit] at hacc haccn
    rw [hr]
    refine ⟨_, Nat.le_refl _, ⟨h.placed, h.clean, ?_, ?_, h.total, ?_, ?_,
      nodup_fresh haccn hacc hmax⟩, rfl, fun y hy => ?_, fun y hy => ?_, fun y hy => ?_⟩
    · exact (same Entry.key rfl).symm ▸ h.tracked
    · exact h.weight.trans (congrArg List.sum (same Entry.weight rfl).symm)
    · exact (same Entry.incarnation rfl).symm ▸ h.incarnations
    · exact (same Entry.inserted rfl).symm ▸ h.inserted
    all_goals
      dsimp only at hy ⊢
      rcases hold y hy with hy | rfl
    · exact Nat.lt_succ_of_lt (h.incarnation_lt y hy)
    · exact Nat.lt_succ_of_lt (h.incarnation_lt x hx)
    · exact Nat.lt_succ_of_lt (h.inserted_lt y hy)
    · exact Nat.lt_succ_of_lt (h.inserted_lt x hx)
    · exact Nat.lt_succ_of_lt (h.accessed_lt y hy)
    · rw [hmax]
      exact Nat.lt_succ_self _

end Read

end Starshard.Eviction
