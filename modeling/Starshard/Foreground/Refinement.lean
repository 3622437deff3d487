import Starshard.Foreground.Runs
import Starshard.Migration.Staged

/-! The sharded map is one finite map. -/
namespace Starshard.Foreground

open Data
open Worker (Tables Shards slot)
open Migration (Flavor)

/-! The operations of an ordinary finite map. -/
namespace Ordinary

variable {K V : Type} [DecidableEq K]

def get (k : K) (c : FiniteMap K V) : Option V × FiniteMap K V := (c.lookup k, c)

def readWith {R : Type} (k : K) (read : V → R) (c : FiniteMap K V) :
    Option R × FiniteMap K V := ((c.lookup k).map read, c)

def contains (k : K) (c : FiniteMap K V) : Bool × FiniteMap K V := (decide (k ∈ c), c)

def insert (k : K) (v : V) (c : FiniteMap K V) : Option V × FiniteMap K V :=
  (c.lookup k, c.insert k v)

def remove (k : K) (c : FiniteMap K V) : Option V × FiniteMap K V := (c.lookup k, c.erase k)

def getOrInsertWith (k : K) (f : Unit → V) (c : FiniteMap K V) : V × FiniteMap K V :=
  match c.lookup k with
  | some v => (v, c)
  | none => (f (), c.insert k (f ()))

def computeIfPresent (k : K) (f : V → Option V) (c : FiniteMap K V) :
    Option V × FiniteMap K V :=
  match c.lookup k with
  | none => (none, c)
  | some v => match f v with
    | some w => (some w, c.insert k w)
    | none => (none, c.erase k)

def compareAndSwap (eq : V → V → Bool) (k : K) (expected new : V) (c : FiniteMap K V) :
    CasResult V × FiniteMap K V :=
  match c.lookup k with
  | none => (.failure new, c)
  | some v => if eq v expected then (.success new, c.insert k new) else (.failure v, c)

def compareAndRemove (eq : V → V → Bool) (k : K) (expected : V) (c : FiniteMap K V) :
    Bool × FiniteMap K V :=
  match c.lookup k with
  | none => (false, c)
  | some v => if eq v expected then (true, c.erase k) else (false, c)

end Ordinary

variable {K V : Type} [DecidableEq K] {hash : K → Nat}

section Contents

/-- The union of the active and the previous generation. -/
def contents (t : Tables K V) : FiniteMap K V :=
  merged ((t.active ++ t.previous.getD []).map fun m => m.getD ∅)

theorem lookup_contents {t : Tables K V} (h : t.Placed hash) (k : K) :
    (contents t).lookup k = t.lookup hash k := by
  have hr := Migration.represents_entries h
  have hmem (m : Assoc K V) (v : V)
      (hm : m ∈ (t.active ++ t.previous.getD []).map fun m => m.getD ∅)
      (hv : m.lookup k = some v) : t.lookup hash k = some v := by
    obtain ⟨a, ha, rfl⟩ := List.mem_map.mp hm
    exact (hr.mem k v).mp (List.mem_flatMap.mpr ⟨a, ha, Assoc.mem_items.mpr hv⟩)
  unfold contents
  rw [lookup_merged]
  cases hf : ((t.active ++ t.previous.getD []).map fun m => m.getD ∅).findSome?
      (·.lookup k) with
  | some v =>
    obtain ⟨m, hm, hv⟩ := List.exists_of_findSome?_eq_some hf
    exact (hmem m v hm hv).symm
  | none =>
    cases hv : t.lookup hash k with
    | none => rfl
    | some v =>
      obtain ⟨a, ha, hi⟩ := List.mem_flatMap.mp ((hr.mem k v).mpr hv)
      rw [List.findSome?_eq_none_iff] at hf
      have := hf _ (List.mem_map_of_mem ha)
      rw [Assoc.mem_items.mp hi] at this
      cases this

theorem contents_congr {t t' : Tables K V} (h : t.Placed hash) (h' : t'.Placed hash)
    (hl : ∀ k, t'.lookup hash k = t.lookup hash k) : contents t' = contents t :=
  Finmap.ext_lookup fun k => by rw [lookup_contents h', lookup_contents h, hl]

variable {s s' : Live K V}

theorem Held.lookup (h : Held hash s) (k : K) :
    (contents s.map.tables).lookup k = s.find hash k := lookup_contents h.placed k

theorem Wrote.insert {k : K} {v : V} (h : Held hash s) (hw : Wrote hash k (some v) s s') :
    contents s'.map.tables = (contents s.map.tables).insert k v := by
  refine Finmap.ext_lookup fun k' => ?_
  rw [hw.held.lookup, hw.find]
  by_cases hk : k' = k
  · rw [if_pos hk, hk, Finmap.lookup_insert]
  · rw [if_neg hk, Finmap.lookup_insert_of_ne _ hk, h.lookup]

theorem Wrote.erase {k : K} (h : Held hash s) (hw : Wrote hash k none s s') :
    contents s'.map.tables = (contents s.map.tables).erase k := by
  refine Finmap.ext_lookup fun k' => ?_
  rw [hw.held.lookup, hw.find]
  by_cases hk : k' = k
  · rw [if_pos hk, hk, Finmap.lookup_erase]
  · rw [if_neg hk, Finmap.lookup_erase_ne hk, h.lookup]

theorem Wrote.same {k : K} {value : Option V} (h : Held hash s) (hw : Wrote hash k value s s')
    (hk : s.find hash k = value) : contents s'.map.tables = contents s.map.tables := by
  refine Finmap.ext_lookup fun k' => ?_
  rw [hw.held.lookup, hw.find, h.lookup]
  by_cases hk' : k' = k
  · rw [if_pos hk', hk', hk]
  · rw [if_neg hk']

end Contents

section Simulation

/-- The operation returns and leaves what the ordinary one does. -/
def Refines {α : Type} (op : Live K V → α × Live K V)
    (ordinary : FiniteMap K V → α × FiniteMap K V) (s : Live K V) : Prop :=
  (op s).1 = (ordinary (contents s.map.tables)).1 ∧
    contents (op s).2.map.tables = (ordinary (contents s.map.tables)).2

variable {s : Live K V}

theorem refines_readWith (h : Held hash s) {R : Type} (k : K) (read : V → R) :
    Refines (readWith hash k read) (Ordinary.readWith k read) s := by
  refine ⟨?_, rfl⟩
  unfold readWith Ordinary.readWith
  dsimp only
  rw [readInner_eq h k _ rfl, h.lookup]

theorem refines_get (h : Held hash s) (k : K) : Refines (get hash k) (Ordinary.get k) s := by
  refine ⟨?_, rfl⟩
  have := (refines_readWith h k id).1
  unfold Ordinary.readWith at this
  rw [Option.map_id] at this
  exact this

theorem refines_contains (h : Held hash s) (k : K) :
    Refines (contains hash k) (Ordinary.contains k) s := by
  refine ⟨?_, rfl⟩
  have hread := (refines_readWith h k fun _ => ()).1
  change (readWith hash k (fun _ => ()) s).1.isSome = decide (k ∈ contents s.map.tables)
  rw [hread, Bool.eq_iff_iff, decide_eq_true_iff, ← Finmap.lookup_isSome]
  unfold Ordinary.readWith
  rw [Option.isSome_map]

section Borrow

variable {Q : Type} [DecidableEq Q]

theorem refines_getBorrowed (h : Held hash s) (b : Borrowed K Q hash) (k : K) :
    Refines (getBorrowed b (b.borrow k)) (Ordinary.get k) s := by
  refine ⟨?_, rfl⟩
  unfold getBorrowed Ordinary.get
  dsimp only
  rw [funext (find?_borrow b k), readInner_eq h k _ (b.agrees k), h.lookup]

omit [DecidableEq K] in
theorem getBorrowed_none (b : Borrowed K Q hash) {q : Q} (hq : ∀ k, b.borrow k ≠ q)
    (s : Live K V) : (getBorrowed b q s).1 = none := by
  unfold getBorrowed
  dsimp only
  rw [funext (find?_unborrowed b hq), readInner_none]

end Borrow

theorem refines_insert (h : Held hash s) (k : K) (v : V) :
    Refines (insert hash k v) (Ordinary.insert k v) s := by
  obtain ⟨hr, hw⟩ := h.insert k v
  exact ⟨hr.trans (h.lookup k).symm, hw.insert h⟩

theorem refines_remove (h : Held hash s) (flavor : Flavor) (mode : SnapshotMode) (k : K) :
    Refines (remove hash flavor mode k) (Ordinary.remove k) s := by
  obtain ⟨hr, hw⟩ := h.remove flavor mode k
  exact ⟨hr.trans (h.lookup k).symm, hw.erase h⟩

theorem refines_getOrInsertWith (h : Held hash s) (k : K) (f : Unit → V) :
    Refines (getOrInsertWith hash k f) (Ordinary.getOrInsertWith k f) s := by
  obtain ⟨hr, hw⟩ := h.getOrInsertWith k f
  unfold Refines Ordinary.getOrInsertWith
  rw [h.lookup]
  cases hv : s.find hash k with
  | none =>
    rw [hv] at hr hw
    exact ⟨hr, hw.insert h⟩
  | some v =>
    rw [hv] at hr hw
    exact ⟨hr, hw.same h hv⟩

theorem refines_computeIfPresent (h : Held hash s) (k : K) (f : V → Option V) :
    Refines (computeIfPresent hash k f) (Ordinary.computeIfPresent k f) s := by
  obtain ⟨hr, hw⟩ := h.computeIfPresent k f
  unfold Refines Ordinary.computeIfPresent
  rw [h.lookup]
  cases hv : s.find hash k with
  | none =>
    rw [hv] at hr hw
    exact ⟨hr, hw.same h hv⟩
  | some v =>
    rw [hv, Option.bind_some] at hr hw
    dsimp only
    cases hf : f v with
    | none =>
      rw [hf] at hr hw
      exact ⟨hr, hw.erase h⟩
    | some w =>
      rw [hf] at hr hw
      exact ⟨hr, hw.insert h⟩

variable (eq : V → V → Bool)

theorem refines_compareAndSwap (h : Held hash s) (k : K) (expected new : V) :
    Refines (compareAndSwap hash eq k expected new)
      (Ordinary.compareAndSwap eq k expected new) s := by
  obtain ⟨hr, hw⟩ := h.compareAndSwap eq k expected new
  unfold Refines Ordinary.compareAndSwap
  rw [h.lookup]
  cases hv : s.find hash k with
  | none =>
    rw [hv] at hr hw
    exact ⟨hr, hw.same h hv⟩
  | some v =>
    rw [hv, Option.map_some] at hw
    rw [hv] at hr
    dsimp only at hr ⊢
    cases he : eq v expected with
    | true =>
      rw [if_pos he] at hr hw
      exact ⟨hr, hw.insert h⟩
    | false =>
      rw [if_neg (by simp [he])] at hr hw
      exact ⟨hr, hw.same h hv⟩

theorem refines_compareAndRemove (h : Held hash s) (k : K) (expected : V) :
    Refines (compareAndRemove hash eq k expected) (Ordinary.compareAndRemove eq k expected) s := by
  obtain ⟨hr, hw⟩ := h.compareAndRemove eq k expected
  unfold Refines Ordinary.compareAndRemove
  rw [h.lookup]
  cases hv : s.find hash k with
  | none =>
    rw [hv] at hr hw
    exact ⟨hr, hw.same h hv⟩
  | some v =>
    rw [hv] at hr hw
    dsimp only at hr ⊢
    cases he : eq v expected with
    | true =>
      rw [Option.filter_some, if_neg (by simp [he])] at hw
      exact ⟨hr.trans he, hw.erase h⟩
    | false =>
      rw [Option.filter_some, if_pos (by simp [he])] at hw
      exact ⟨hr.trans he, hw.same h hv⟩

theorem contents_retain (h : Held hash s) (predicate : K → V → Bool) :
    contents (retain predicate s).map.tables =
      FiniteMap.retain predicate (contents s.map.tables) := by
  obtain ⟨he, hf⟩ := h.retain predicate
  refine Finmap.ext_lookup fun k => ?_
  rw [he.held.lookup, hf, FiniteMap.lookup_retain, h.lookup]

theorem contents_removeAll (h : Held hash s) (now : Nat) :
    contents (removeAll now s).2.map.tables = ∅ := by
  obtain ⟨he, hf, _⟩ := h.removeAll now
  refine Finmap.ext_lookup fun k => ?_
  rw [he.lookup, hf, Finmap.lookup_empty]

end Simulation

section Topology

/-- A section of a rebalance keeps the contents and the length. -/
structure Unchanged (s s' : Migration.State K V) : Prop where
  contents : contents s'.tables = contents s.tables
  len : s'.totalLen = s.totalLen

theorem Unchanged.refl (s : Migration.State K V) : Unchanged s s := ⟨rfl, rfl⟩

variable {s : Migration.State K V}

theorem unchanged_of_same (h : s.Sound hash) {s' : Migration.State K V}
    (hs : Migration.Same hash s s') : Unchanged s s' :=
  ⟨contents_congr h.placed hs.sound.placed hs.lookup, hs.len⟩

theorem unchanged_start (h : s.Sound hash) (newShardCount now : Nat) :
    Unchanged s (startRebalanceOnline newShardCount now s).2 := by
  unfold startRebalanceOnline
  cases ht : strictShardCount newShardCount MAX_SHARDS with
  | error e => exact .refl s
  | ok target =>
    dsimp only
    split
    · exact .refl s
    · next hgo =>
      have hpos := (strictShardCount_ok ht).1
      have hcap := Migration.strictShardCount_lt ht
      have hm : s.tracker.migrating = false := by simpa using fun hm => hgo (.inl hm)
      obtain ⟨hb, hl, _⟩ := h.begin hm hpos hcap now
      exact ⟨contents_congr h.placed hb.placed hl, rfl⟩

/-- A batch of any budget returns and keeps the contents and the length. -/
theorem unchanged_advance (h : s.Sound hash) (env : Migration.Env K V)
    (budget : Migration.Budget) (he : 0 < budget.maxEntries) {fuel : Nat}
    (hf : Migration.workLeft s < fuel) (readings : Nat) :
    ∃ b, Migration.advanceRebalanceInner env hash budget fuel (.start s readings) = .ok b ∧
      Unchanged s b.state := by
  by_cases hp : s.tracker.telemetry.paused = true ∨ budget.maxShards = 0
  · refine ⟨_, if_pos hp, .refl s⟩
  by_cases hm : s.tracker.migrating = false
  · exact ⟨_, (if_neg hp).trans (if_pos hm), .refl s⟩
  · have hm : s.tracker.migrating = true := by simpa using hm
    have hpaused : s.tracker.telemetry.paused = false := by simpa using fun hu => hp (.inl hu)
    have hshards : 0 < budget.maxShards := Nat.pos_of_ne_zero fun hz => hp (.inr hz)
    obtain ⟨b, hadv, _, _, hkept, _⟩ :=
      Migration.advanceRebalanceInner_ends h hm hpaused env budget hshards he hf readings
    exact ⟨_, hadv, unchanged_of_same h (hkept.finish env budget _ _).same⟩

theorem unchanged_staged (h : s.Sound hash) (newShardCount elapsed : Nat) : ∃ result s',
    (Migration.rebalanceStaged hash .sync newShardCount elapsed fun _ => false).run s =
      (result, s') ∧ Unchanged s s' := by
  cases ht : strictShardCount newShardCount MAX_SHARDS with
  | error e =>
    refine ⟨.error (.rejected e), s, ?_, .refl s⟩
    unfold Migration.rebalanceStaged
    rw [ht]
    rfl
  | ok target =>
    by_cases hn : target = s.tables.shardCount ∧ s.tracker.migrating = false
    · refine ⟨.ok ⟨s.tables.shardCount, target, 0, 0⟩, s, ?_, .refl s⟩
      unfold Migration.rebalanceStaged
      rw [ht]
      dsimp only
      rw [Failing.run_bind]
      change (if _ then _ else _ : Migration.Section K V RebalanceReport).run s = _
      rw [if_pos hn]
      rfl
    · have hcalm (n : Nat) (_ : n < s.tables.entries.length) :
          (fun _ : Nat => false) n = false := rfl
      obtain ⟨maps, hrun, hplaced, hlookup⟩ :=
        Migration.rebalanceStaged_returns .sync elapsed h ht hn hcalm
      exact ⟨_, _, hrun, contents_congr h.placed hplaced hlookup, rfl⟩

/-- The cooperative `rebalance_to` returns and keeps the contents and the length. -/
theorem unchanged_rebalanceTo (h : s.Sound hash) (newShardCount : Nat) (env : Migration.Env K V)
    (options : RebalanceOptions) (readings : Nat) :
    ∃ enough, ∀ fuel batchFuel, enough ≤ fuel → enough ≤ batchFuel →
      (∃ e, strictShardCount newShardCount MAX_SHARDS = .error e ∧
        Migration.rebalanceTo env hash newShardCount options fuel batchFuel
          (.start s readings) = .ok (.error e)) ∨
      ∃ b report, Migration.rebalanceTo env hash newShardCount options fuel batchFuel
        (.start s readings) = .ok (.ok (b, report)) ∧ Unchanged s b.state := by
  cases ht : strictShardCount newShardCount MAX_SHARDS with
  | error e =>
    refine ⟨0, fun fuel batchFuel _ _ => .inl ⟨e, rfl, ?_⟩⟩
    unfold Migration.rebalanceTo
    rw [ht]
  | ok target =>
    refine ⟨Migration.journey target s + s.tables.entries.length + Migration.usizeMax + 1,
      fun fuel batchFuel hfuel hbatch => .inr ?_⟩
    obtain ⟨b, report, heq, hsame, _⟩ := Migration.rebalanceTo_ends h ht env options readings
      (by omega : Migration.journey target s < fuel)
      (by omega : s.tables.entries.length + Migration.usizeMax < batchFuel)
    exact ⟨b, report, heq, unchanged_of_same h hsame⟩

end Topology

theorem Held.len_card {s : Live K V} (h : Held hash s) :
    s.map.totalLen = (contents s.map.tables).keys.card := by
  have hr := h.represents
  have hkeys : (contents s.map.tables).keys = (s.map.tables.entries.map Prod.fst).toFinset := by
    refine Finset.ext fun k => ?_
    rw [Finmap.mem_keys, ← Finmap.lookup_isSome, h.lookup, List.mem_toFinset, List.mem_map,
      Option.isSome_iff_exists]
    constructor
    · rintro ⟨v, hv⟩
      exact ⟨(k, v), (hr.mem k v).mpr hv, rfl⟩
    · rintro ⟨e, he, rfl⟩
      exact ⟨e.2, (hr.mem e.1 e.2).mp he⟩
  rw [hkeys, List.toFinset_card_of_nodup hr.nodup, List.length_map, h.len]

/-- In every state of a sync map, at any stage of a migration, each operation returns and
leaves what it does on one ordinary map with the union of both generations; no step of a
rebalance changes the contents or the length. -/
theorem sync_map_refines_finite_map {mode : SnapshotMode} {s : Live K V}
    (hs : Reachable hash .sync mode s.map) :
    s.map.totalLen = (contents s.map.tables).keys.card ∧
    (∀ k, Refines (get hash k) (Ordinary.get k) s) ∧
    (∀ (Q : Type) (_ : DecidableEq Q) (b : Borrowed K Q hash) (q : Q),
      (∀ k, b.borrow k = q → Refines (getBorrowed b q) (Ordinary.get k) s) ∧
      ((∀ k, b.borrow k ≠ q) → (getBorrowed b q s).1 = none ∧
        contents (getBorrowed b q s).2.map.tables = contents s.map.tables)) ∧
    (∀ k, Refines (contains hash k) (Ordinary.contains k) s) ∧
    (∀ (R : Type) (k : K) (read : V → R),
      Refines (readWith hash k read) (Ordinary.readWith k read) s) ∧
    (∀ k v, Refines (insert hash k v) (Ordinary.insert k v) s) ∧
    (∀ k, Refines (remove hash .sync mode k) (Ordinary.remove k) s) ∧
    (∀ k f, Refines (getOrInsertWith hash k f) (Ordinary.getOrInsertWith k f) s) ∧
    (∀ k f, Refines (computeIfPresent hash k f) (Ordinary.computeIfPresent k f) s) ∧
    (∀ eq k expected new, Refines (compareAndSwap hash eq k expected new)
      (Ordinary.compareAndSwap eq k expected new) s) ∧
    (∀ eq k expected, Refines (compareAndRemove hash eq k expected)
      (Ordinary.compareAndRemove eq k expected) s) ∧
    (∀ predicate, contents (retain predicate s).map.tables =
      FiniteMap.retain predicate (contents s.map.tables)) ∧
    (∀ now, contents (clear now s).map.tables = ∅) ∧
    (∀ now, contents (drain now s).2.map.tables = ∅ ∧
      ∃ (yielded : List (K × V)) (last : DrainIterator K V),
        Represents yielded (fun k => (contents s.map.tables).lookup k) ∧
        (drain now s).1.steps yielded.length =
          ((List.range yielded.length).zipWith
            (fun n e => (yielded.length - n, some e)) yielded, last) ∧
        last.len = 0 ∧ last.next = (none, last)) ∧
    (∀ newShardCount now, Unchanged s.map (startRebalanceOnline newShardCount now s.map).2) ∧
    (∀ env fuel readings, Migration.workLeft s.map < fuel →
      (∀ maxShards, ∃ b, Migration.advanceRebalance env hash maxShards fuel
        (.start s.map readings) = .ok b ∧ Unchanged s.map b.state) ∧
      ∀ options, ∃ b, Migration.advanceRebalanceWithOptions env hash options fuel
        (.start s.map readings) = .ok b ∧ Unchanged s.map b.state) ∧
    Unchanged s.map (pauseRebalance s.map).2 ∧ Unchanged s.map (resumeRebalance s.map).2 ∧
    (∀ newShardCount elapsed, ∃ result s',
      (Migration.rebalanceStaged hash .sync newShardCount elapsed fun _ => false).run s.map =
        (result, s') ∧ Unchanged s.map s') ∧
    ∀ newShardCount env options readings, ∃ enough, ∀ fuel batchFuel, enough ≤ fuel →
      enough ≤ batchFuel →
      (∃ e, strictShardCount newShardCount MAX_SHARDS = .error e ∧
        Migration.rebalanceTo env hash newShardCount options fuel batchFuel
          (.start s.map readings) = .ok (.error e)) ∨
      ∃ b report, Migration.rebalanceTo env hash newShardCount options fuel batchFuel
        (.start s.map readings) = .ok (.ok (b, report)) ∧ Unchanged s.map b.state := by
  have h : Held hash s := hs.held s.metrics
  have hsound := hs.sound
  refine ⟨h.len_card, refines_get h, fun Q _ b q => ⟨fun k hk => ?_, fun hq => ?_⟩,
    refines_contains h, fun R k read => refines_readWith h k read, refines_insert h,
    refines_remove h .sync mode, refines_getOrInsertWith h, refines_computeIfPresent h,
    fun eq => refines_compareAndSwap eq h, fun eq => refines_compareAndRemove eq h,
    contents_retain h, contents_removeAll h, fun now => ⟨contents_removeAll h now, ?_⟩,
    unchanged_start hsound, fun env fuel readings hf => ⟨fun maxShards => ?_, fun options => ?_⟩,
    ⟨rfl, rfl⟩, ⟨rfl, rfl⟩, unchanged_staged hsound, unchanged_rebalanceTo hsound⟩
  · subst hk
    exact refines_getBorrowed h b k
  · exact ⟨getBorrowed_none b hq s, rfl⟩
  · obtain ⟨yielded, last, hperm, hsteps, hend⟩ :=
      DrainIterator.drained (removeAll now s).1
    have hr : Represents yielded (fun k => (contents s.map.tables).lookup k) := by
      rw [funext h.lookup]
      exact (h.removeAll now).2.2.of_perm hperm.symm
    rw [← hperm.length_eq] at hsteps
    exact ⟨yielded, last, hr, hsteps, hend⟩
  · exact unchanged_advance hsound env _ (by simp [Migration.usizeMax]) hf readings
  · exact unchanged_advance hsound env _ (Nat.lt_of_lt_of_le Nat.one_pos (Nat.le_max_right _ _))
      hf readings

/-- Two entries in the previous generation of a growing map. -/
theorem sync_map_refines_finite_map_spreading :
    Refines (remove id .sync .cow 0) (Ordinary.remove 0)
        ⟨Migration.spreading, ⟨0, 0, 0, 0, 0, 0⟩⟩ ∧
      Unchanged Migration.spreading (startRebalanceOnline 3 0 Migration.spreading).2 :=
  have h := sync_map_refines_finite_map (s := ⟨Migration.spreading, ⟨0, 0, 0, 0, 0, 0⟩⟩)
    (.of_migration (Migration.spreading_reachable .sync) .cow)
  ⟨h.2.2.2.2.2.2.1 0, h.2.2.2.2.2.2.2.2.2.2.2.2.2.2.1 3 0⟩

end Starshard.Foreground
