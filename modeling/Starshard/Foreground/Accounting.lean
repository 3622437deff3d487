import Starshard.Eviction.Removals
import Starshard.Eviction.Victims
import Starshard.Foreground.Booked

/-! Runs of a map with its metadata, in which every operation and every maintenance pass
is counted. -/
namespace Starshard.Foreground

open Data
open Worker (Tables)
open Migration (Flavor)
open Eviction (Engine)
open Relation (ReflTransGen)

section Maintenance

variable {K V : Type} [DecidableEq K] {hash fx : K → Nat} {l : Ledger K V}

def passLive (tracker : Progress) (p : Eviction.Pass K V) : Live K V where
  map :=
    { tables := p.state.tables
      totalLen := p.state.totalLen
      writeEpoch := p.state.writeEpoch % 2 ^ 64
      tracker := tracker }
  metrics := p.state.engine.metrics

/-- What the entries that a pass removed leave of the map. -/
structure Evicted (hash : K → Nat) (tracker : Progress) (l : Ledger K V)
    (p q : Eviction.Pass K V) : Prop where
  edited : Edited hash (passLive tracker p) (passLive tracker q)
  shrinks : q.state.tables.entries.length ≤ p.state.tables.entries.length
  booked : ∃ es, q.removed = p.removed ++ es ∧
    (passLive tracker q).Booked (l.postAll (es.map fun e => .evict e.1))

theorem evicted_one {tracker : Progress} {p q : Eviction.Pass K V}
    (hr : Eviction.Removal fx p q) (h : Held hash (passLive tracker p))
    (hb : (passLive tracker p).Booked l) : Evicted hash tracker l p q := by
  cases hr with
  | metadata he =>
    refine ⟨⟨⟨h.placed, h.len, h.migrating⟩, rfl, rfl, rfl, rfl,
      fun p hp => ⟨p, hp, rfl, fun _ hi => hi⟩⟩, Nat.le_refl _, [],
      (List.append_nil _).symm, ?_⟩
    unfold Live.Booked passLive
    rw [he]
    exact hb
  | @evict loc c v hv =>
    have hplaced : p.state.tables.Placed hash := h.placed
    have htake : p.evict fx loc c v = p.take hash fx c := Eviction.Pass.evict_eq hplaced hv
    have hfound : p.state.tables.lookup hash c.key = some v := by
      have hremoved := congrArg Eviction.Pass.removed htake
      unfold Eviction.Pass.evict Eviction.Pass.take at hremoved
      have hone := List.append_cancel_left hremoved
      cases hl : p.state.tables.lookup hash c.key with
      | none =>
        rw [hl] at hone
        cases hone
      | some w =>
        rw [hl] at hone
        cases hone
        rfl
    have hlen := Migration.length_entries_remove hplaced c.key
    rw [hfound] at hlen
    have htables : (p.evict fx loc c v).state.tables = p.state.tables.remove hash c.key :=
      congrArg (fun q => q.state.tables) htake
    have hw : Wrote hash c.key none (passLive tracker p)
        (passLive tracker (p.evict fx loc c v)) := by
      rw [htake]
      refine ⟨⟨⟨hplaced.remove c.key, ?_, ?_⟩, rfl, rfl, rfl, Option.isSome_map ..,
        fun p hp => Worker.previous_detach hp⟩, fun k => ?_⟩
      · have hold : p.state.totalLen = p.state.tables.entries.length := h.len
        refine (congrArg (· - 1) hold).trans ?_
        exact hlen.symm
      · exact (Option.isSome_map ..).trans h.migrating
      · exact Tables.Placed.lookup_remove c.key k
    refine ⟨hw.toEdited, ?_, [(c.key, v)], rfl, ?_⟩
    · rw [htables, hlen]
      exact Nat.sub_le ..
    · have hsome : ((contents (passLive tracker p).map.tables).lookup c.key).isSome := by
        rw [h.lookup]
        exact congrArg Option.isSome hfound
      have hevict := Books.evict hb hsome (hw.erase h)
      have hmetrics : (passLive tracker (p.evict fx loc c v)).metrics =
          (passLive tracker p).metrics.count .evictions :=
        Eviction.Engine.metrics_recordEviction ..
      unfold Live.Booked
      rw [hmetrics]
      exact hevict

theorem evicted_all {tracker : Progress} {p q : Eviction.Pass K V}
    (hr : Eviction.Removals fx p q) (h : Held hash (passLive tracker p))
    (hb : (passLive tracker p).Booked l) : Evicted hash tracker l p q := by
  induction hr with
  | refl => exact ⟨.refl h, Nat.le_refl _, [], (List.append_nil _).symm, hb⟩
  | tail _ hs ih =>
    obtain ⟨es, hes, hb⟩ := ih.booked
    have hone := evicted_one hs ih.edited.held hb
    obtain ⟨es', hes', hb'⟩ := hone.booked
    refine ⟨ih.edited.trans hone.edited, hone.shrinks.trans ih.shrinks, es ++ es', ?_, ?_⟩
    · rw [hes', hes, List.append_assoc]
    · rw [List.map_append, Ledger.postAll_append]
      exact hb'

end Maintenance

section Machine

/-- A map with its metadata, next to the ledger of what was done to it. -/
structure Counted (K V : Type) where
  map : Migration.Map K V
  engine : Engine K
  ledger : Ledger K V

variable {K V : Type} [DecidableEq K]

namespace Counted

def new (K V : Type) [DecidableEq K] (count : Nat) : Counted K V :=
  ⟨.new K V count, .new K, .new K V⟩

def live (c : Counted K V) : Live K V := ⟨c.map.state, c.engine.metrics⟩

def record (c : Counted K V) (s : Live K V) (events : List (Event K V)) : Counted K V where
  map := put c.map s.map
  engine := { c.engine with metrics := s.metrics }
  ledger := c.ledger.postAll events

def evictionState (c : Counted K V) : Eviction.State K V where
  tables := c.map.owner.tables
  totalLen := c.map.totalLen
  writeEpoch := c.map.writeEpoch
  engine := c.engine

def maintained (c : Counted K V) (p : Eviction.Pass K V) : Counted K V where
  map := put c.map (passLive c.map.owner.tracker p).map
  engine := p.state.engine
  ledger := c.ledger.postAll (p.removed.map fun e => .evict e.1)

end Counted

variable (hash fx : K → Nat)

/-- One step of a map whose counters are not reset. What the hooks, the repairs and the
callbacks of a configured map do to its metadata is a step of its own; a snapshot or an
iteration only reads the shards. -/
inductive Counts (flavor : Flavor) (mode : SnapshotMode) : Counted K V → Counted K V → Prop where
  | route {c : Counted K V} {l : Worker.Label K V} {m : Migration.Map K V} :
      Migration.Step hash flavor l c.map m → l.writes = false →
      Counts flavor mode c { c with map := m }
  | metadata {c : Counted K V} (e : Engine K) : e.metrics = c.engine.metrics →
      Counts flavor mode c { c with engine := e }
  -- the routing lock is free in the following steps
  | operation {c : Counted K V} (op : Operation K V) : c.map.owner.batch = none →
      op.Ordered hash c.live →
      (op.apply hash flavor mode c.live).map.tables.entries.length < Migration.usizeMax →
      Counts flavor mode c
        (c.record (op.apply hash flavor mode c.live) (op.events c.map.owner.tables))
  | clearOrDrain {c : Counted K V} (now : Nat) : c.map.owner.batch = none →
      Counts flavor mode c (c.record (Foreground.clearOrDrain flavor now c.live)
        (c.map.owner.tables.entries.map fun e => .drop e.1))
  | readWith {c : Counted K V} {R : Type} (k : K) (read : V → R) : c.map.owner.batch = none →
      Counts flavor mode c (c.record (Foreground.readWith hash k read c.live).2 [.read])
  | get {c : Counted K V} (k : K) : c.map.owner.batch = none →
      Counts flavor mode c (c.record (Foreground.get hash k c.live).2 [.read])
  | contains {c : Counted K V} (k : K) : c.map.owner.batch = none →
      Counts flavor mode c (c.record (Foreground.contains hash k c.live).2 [.read])
  | getBorrowed {c : Counted K V} {Q : Type} [DecidableEq Q] (b : Borrowed K Q hash) (q : Q) :
      c.map.owner.batch = none →
      Counts flavor mode c (c.record (Foreground.getBorrowed b q c.live).2 [.read])
  | batchGet {c : Counted K V} (order : List Nat) (keys : List K) : c.map.owner.batch = none →
      order.Perm (Data.bucketize (fun e => c.live.index hash e.2) (positions keys)).keys →
      Counts flavor mode c (c.record (Foreground.batchGet hash flavor order keys c.live).2
        (List.replicate keys.length .read))
  | runEviction {c : Counted K V} (options : Eviction.Options) (weight : K → V → Nat)
      (requested : Option Nat) (policy : Option CapacityPolicy) : flavor = .sync →
      c.map.owner.batch = none →
      Counts flavor mode c (c.maintained
        (Eviction.Sync.runEviction hash fx options weight requested policy c.evictionState))
  | maintainEviction {c : Counted K V} (options : Eviction.Options) (weight : K → V → Nat)
      (requested : Option Nat) (policy : Option CapacityPolicy) : flavor = .async →
      c.map.owner.batch = none →
      Counts flavor mode c (c.maintained
        (Eviction.Async.maintainEviction hash fx options weight requested policy c.evictionState))

def Counted.Reachable (flavor : Flavor) (mode : SnapshotMode) (c : Counted K V) : Prop :=
  ∃ count, 0 < count ∧ count < Migration.usizeMax ∧
    ReflTransGen (Counts hash fx flavor mode) (.new K V count) c

/-- The invariant of a run. -/
structure Audited (c : Counted K V) : Prop where
  sound : Migration.Sound hash c.map
  booked : c.live.Booked c.ledger

variable {hash fx} {flavor : Flavor} {mode : SnapshotMode} {c c' : Counted K V}

theorem Audited.held (h : Audited hash c) : Held hash c.live :=
  held_of_sound h.sound c.engine.metrics

theorem Audited.new {count : Nat} (hpos : 0 < count) (hcap : count < Migration.usizeMax) :
    Audited hash (Counted.new K V count) where
  sound := .new hpos hcap
  booked := by
    have hs : Migration.Sound hash (Migration.Map.new K V count) := .new hpos hcap
    have hzero : (contents (Counted.new K V count).live.map.tables).keys.card = 0 :=
      (held_of_sound hs (Engine.new K).metrics).len_card.symm
    refine ⟨?_, rfl, rfl, rfl, rfl, rfl, rfl⟩
    refine Finmap.ext_lookup fun k => (Finmap.lookup_empty k).trans (Eq.symm ?_)
    refine Finmap.lookup_eq_none.mpr fun hk => ?_
    have hmem := Finmap.mem_keys.mpr hk
    rw [Finset.card_eq_zero.mp hzero] at hmem
    exact Finset.notMem_empty k hmem

theorem Audited.contents_route (h : Audited hash c) {l : Worker.Label K V}
    {m : Migration.Map K V} (hs : Migration.Step hash flavor l c.map m)
    (hw : l.writes = false) :
    contents m.owner.tables = contents c.map.owner.tables := by
  refine contents_congr h.sound.laid.placed (h.sound.step hs).laid.placed fun k => ?_
  cases hs with
  | step hs _ _ _ _ => exact h.sound.laid.lookup_step hs hw k
  | drain now _ _ => cases hw
  | staged n elapsed _ _ hstrict _ =>
    exact Migration.lookup_asyncStage h.sound.laid.placed (strictShardCount_ok hstrict).1 k

theorem Audited.reads (h : Audited hash c) {s : Live K V} {events : List (Event K V)}
    (hmap : s.map = c.map.state) (hb : s.Booked (c.ledger.postAll events)) :
    Audited hash (c.record s events) := by
  have hput : put c.map s.map = c.map := by
    rw [hmap]
    rfl
  have hrecord : c.record s events =
      ⟨c.map, { c.engine with metrics := s.metrics }, c.ledger.postAll events⟩ := by
    unfold Counted.record
    rw [hput]
  rw [hrecord]
  unfold Live.Booked at hb
  rw [hmap] at hb
  exact ⟨h.sound, hb⟩

theorem Audited.clearOrDrain (h : Audited hash c) (hb : c.map.owner.batch = none) (flavor : Flavor)
    (now : Nat) : Audited hash (c.record (Foreground.clearOrDrain flavor now c.live)
      (c.map.owner.tables.entries.map fun e => .drop e.1)) where
  sound := by
    have hd := h.sound.step (.drain now rfl hb : Migration.Step hash .async _ c.map _)
    have hlen : c.map.totalLen - c.map.owner.tables.entries.length =
        c.map.owner.tables.clear.entries.length := by
      rw [h.sound.len, Nat.sub_self, Migration.entries_clear]
      rfl
    cases flavor with
    | sync => exact ⟨hd.laid, hlen, hd.room, hd.count, hd.sources, hd.completed, hd.strict,
        hd.ends⟩
    | async => exact ⟨hd.laid, hd.len, hd.room, hd.count, hd.sources, hd.completed, hd.strict,
        hd.ends⟩
  booked := booked_clearOrDrain h.held h.booked flavor now

theorem Audited.maintained (h : Audited hash c) (hb : c.map.owner.batch = none)
    {p : Eviction.Pass K V} (hp : Eviction.Removals fx ⟨c.evictionState, []⟩ p) :
    Audited hash (c.maintained p) := by
  have hheld : Held hash (passLive c.map.owner.tracker ⟨c.evictionState, []⟩) :=
    ⟨h.sound.laid.placed, h.sound.len, h.sound.laid.migrating⟩
  have he := evicted_all hp hheld (h.booked : Live.Booked c.ledger
    (passLive c.map.owner.tracker ⟨c.evictionState, []⟩))
  obtain ⟨es, hes, hbooked⟩ := he.booked
  have hedited : Edited hash c.live (passLive c.map.owner.tracker p) :=
    ⟨he.edited.held, he.edited.count, he.edited.previousCount, he.edited.tracker,
      he.edited.generations, he.edited.previous⟩
  refine ⟨sound_put h.sound hb hedited (Nat.lt_of_le_of_lt he.shrinks h.sound.room), ?_⟩
  have hremoved : p.removed = es := hes
  unfold Counted.maintained
  rw [hremoved]
  exact hbooked

theorem Audited.step (h : Audited hash c) (hs : Counts hash fx flavor mode c c') :
    Audited hash c' := by
  cases hs with
  | route hs hw =>
    exact ⟨h.sound.step hs, Books.congr h.booked (h.contents_route hs hw)⟩
  | metadata e he =>
    refine ⟨h.sound, ?_⟩
    have hb := h.booked
    unfold Live.Booked Counted.live at hb ⊢
    rw [he]
    exact hb
  | operation op hb ho hroom =>
    exact ⟨sound_put h.sound hb (op.edited h.held flavor mode ho) hroom,
      booked_operation h.held h.booked flavor mode op ho⟩
  | clearOrDrain now hb => exact h.clearOrDrain hb flavor now
  | readWith k read hb => exact h.reads rfl (Books.read h.booked _)
  | get k hb => exact h.reads rfl (Books.read h.booked _)
  | contains k hb => exact h.reads rfl (Books.read h.booked _)
  | getBorrowed b q hb => exact h.reads rfl (Books.read h.booked _)
  | batchGet order keys hb ho =>
    obtain ⟨hmap, hbooked⟩ := booked_batchGet h.held h.booked flavor ho
    exact h.reads hmap hbooked
  | runEviction options weight requested policy _ hb =>
    exact h.maintained hb (Eviction.Sync.runEviction_removals ..)
  | maintainEviction options weight requested policy _ hb =>
    exact h.maintained hb (Eviction.Async.maintainEviction_removals ..)

theorem Counted.Reachable.audited (h : c.Reachable hash fx flavor mode) : Audited hash c := by
  obtain ⟨count, hpos, hcap, hr⟩ := h
  induction hr with
  | refl => exact .new hpos hcap
  | tail _ hs ih => exact ih.step hs

/-- In every run of either map type, the counters are those of the ledger, modulo `2 ^ 64`,
and the length is what was created and not removed or evicted; promotion, migration and the
repair of the metadata count nothing, and the hooks of a configured map count what any map
counts. -/
theorem operations_counted_exactly (h : c.Reachable hash fx flavor mode) :
    c.ledger.contents = contents c.map.owner.tables ∧
    c.engine.metrics.inserts = UInt64.ofNat c.ledger.writes ∧
    c.engine.metrics.removes = UInt64.ofNat c.ledger.removed ∧
    c.engine.metrics.evictions = UInt64.ofNat c.ledger.evicted ∧
    c.engine.metrics.gets = UInt64.ofNat c.ledger.gets ∧
    c.engine.metrics.hits + c.engine.metrics.misses = c.engine.metrics.gets ∧
    c.map.totalLen + c.ledger.removed + c.ledger.evicted = c.ledger.created ∧
    UInt64.ofNat c.map.totalLen + c.engine.metrics.removes + c.engine.metrics.evictions =
      UInt64.ofNat c.ledger.created ∧
    (∀ k, (c.live.promote hash k).metrics = c.engine.metrics ∧
      (c.live.promote hash k).map.totalLen = c.map.totalLen) ∧
    (∀ weight, (c.evictionState.reconcile fx weight).engine.metrics = c.engine.metrics) ∧
    (∀ k weight replaced hit,
      (c.engine.recordInsert fx k weight replaced).metrics = c.engine.metrics.count .inserts ∧
      (c.engine.recordRemove fx k).metrics = c.engine.metrics.count .removes ∧
      (c.engine.recordRead fx k hit).metrics = (c.live.recordRead hit).metrics) ∧
    ∀ l m, Migration.Step hash flavor l c.map m → l.writes = false →
      m.totalLen = c.map.totalLen := by
  have ha := h.audited
  have hb := ha.booked
  have hlen := ha.held.len_card
  have hbalanced : c.map.totalLen + c.ledger.removed + c.ledger.evicted = c.ledger.created := by
    have hbalanced := hb.balanced
    unfold Ledger.Balanced at hbalanced
    rw [hb.contents, ← hlen] at hbalanced
    exact hbalanced
  refine ⟨hb.contents, hb.inserts, hb.removes, hb.evictions, hb.gets, hb.reads, hbalanced, ?_,
    fun k => ⟨rfl, rfl⟩, fun weight => Eviction.State.metrics_reconcile fx weight _,
    fun k weight replaced hit => ⟨Engine.metrics_recordInsert .., Engine.metrics_recordRemove ..,
      Engine.metrics_recordRead ..⟩, fun l m hs hw => ?_⟩
  · have hremoves : c.engine.metrics.removes = UInt64.ofNat c.ledger.removed := hb.removes
    have hevictions : c.engine.metrics.evictions = UInt64.ofNat c.ledger.evicted := hb.evictions
    rw [hremoves, hevictions, ← UInt64.ofNat_add, ← UInt64.ofNat_add, hbalanced]
  · have hm := (held_of_sound (ha.sound.step hs) c.engine.metrics).len_card
    refine hm.trans (Eq.trans ?_ hlen.symm)
    exact congrArg (fun x => (Finmap.keys x).card) (ha.contents_route hs hw)

/-- Two writes, a removal, a read that misses, and a pass that evicts the key whose metadata
the hooks have written. -/
theorem operations_counted_exactly_evicted : ∃ c : Counted Nat Nat,
    c.Reachable id id .sync .cow ∧ c.ledger.created = 2 ∧
      c.engine.metrics.inserts = 2 ∧ c.engine.metrics.removes = 1 ∧
      c.engine.metrics.evictions = 1 ∧ c.engine.metrics.misses = 1 ∧
      c.map.totalLen + c.ledger.removed + c.ledger.evicted = 2 := by
  let wrote (c : Counted Nat Nat) (op : Operation Nat Nat) : Counted Nat Nat :=
    c.record (op.apply id .sync .cow c.live) (op.events c.map.owner.tables)
  let first := wrote (.new Nat Nat 2) (.insert 1 7)
  let second := wrote first (.insert 2 8)
  let third := wrote second (.remove 1)
  let missed := third.record (get id 5 third.live).2 [.read]
  let tracked : Counted Nat Nat := { missed with
    engine := { missed.engine with entries := [.fresh 2 1 1], weight := 1, sequence := 2 } }
  let pass := Eviction.Sync.runEviction id id ⟨⟨.lru, none, none, none⟩, .inl rfl⟩
    (fun _ _ => 1) (some 0) none tracked.evictionState
  have hfirst : Counts id id .sync .cow (.new Nat Nat 2) first :=
    .operation (.insert 1 7) rfl trivial (by decide)
  have hsecond : Counts id id .sync .cow first second :=
    .operation (.insert 2 8) rfl trivial (by decide)
  have hthird : Counts id id .sync .cow second third :=
    .operation (.remove 1) rfl trivial (by decide)
  have hmissed : Counts id id .sync .cow third missed := .get 5 rfl
  have htracked : Counts id id .sync .cow missed tracked := .metadata _ rfl
  have hpass : Counts id id .sync .cow tracked (tracked.maintained pass) :=
    .runEviction _ _ _ _ rfl rfl
  have hrun : Counted.Reachable id id .sync .cow (tracked.maintained pass) :=
    ⟨2, by decide, by decide, .tail (.tail (.tail (.tail (.tail (.single hfirst) hsecond) hthird)
      hmissed) htracked) hpass⟩
  have hcounted := operations_counted_exactly hrun
  have hinserts : (tracked.maintained pass).engine.metrics.inserts = 2 := by decide
  have hremoves : (tracked.maintained pass).engine.metrics.removes = 1 := by decide
  have hevictions : (tracked.maintained pass).engine.metrics.evictions = 1 := by decide
  have hmisses : (tracked.maintained pass).engine.metrics.misses = 1 := by decide
  have hcreated : (tracked.maintained pass).ledger.created = 2 := by decide
  exact ⟨_, hrun, hcreated, hinserts, hremoves, hevictions, hmisses,
    hcounted.2.2.2.2.2.2.1.trans hcreated⟩

end Machine

section Wrapping

theorem written_often (n : Nat) : ∃ c : Counted Nat Nat, c.Reachable id id .sync .cow ∧
    c.map.owner.batch = none ∧ c.ledger.writes = n ∧ c.ledger.contents.keys ⊆ {1} := by
  induction n with
  | zero => exact ⟨.new Nat Nat 1, ⟨1, by decide, by decide, .refl⟩, rfl, rfl, by decide⟩
  | succ n ih =>
    obtain ⟨c, hr, hbatch, hwrites, hkeys⟩ := ih
    have ha := hr.audited
    let op : Operation Nat Nat := .insert 1 7
    have hledger : (c.ledger.contents.insert 1 7).keys ⊆ {1} := by
      intro k hk
      rw [Finmap.mem_keys, Finmap.mem_insert, ← Finmap.mem_keys] at hk
      rcases hk with hk | hk
      · exact Finset.mem_singleton.mpr hk
      · exact hkeys hk
    have hroom : (op.apply id .sync .cow c.live).map.tables.entries.length <
        Migration.usizeMax := by
      have hheld := (op.edited ha.held .sync .cow trivial).held
      have hbooked := booked_operation ha.held ha.booked .sync .cow op trivial
      have hcontents : c.ledger.contents.insert 1 7 =
          contents (op.apply id .sync .cow c.live).map.tables := hbooked.contents
      have hcard := Finset.card_le_card hledger
      rw [hcontents, ← hheld.len_card, hheld.len] at hcard
      exact Nat.lt_of_le_of_lt hcard (by decide)
    obtain ⟨count, hpos, hcap, hr⟩ := hr
    refine ⟨_, ⟨count, hpos, hcap, hr.tail (.operation op hbatch trivial hroom)⟩, hbatch, ?_,
      hledger⟩
    exact congrArg (· + 1) hwrites

/-- After `2 ^ 64` writes the counter of the writes is back at zero. -/
theorem operations_counted_wraps : ∃ c : Counted Nat Nat, c.Reachable id id .sync .cow ∧
    c.ledger.writes = 2 ^ 64 ∧ c.engine.metrics.inserts.toNat ≠ c.ledger.writes := by
  obtain ⟨c, hr, -, hwrites, -⟩ := written_often (2 ^ 64)
  refine ⟨c, hr, hwrites, fun h => ?_⟩
  have hlt := c.engine.metrics.inserts.toNat_lt
  rw [h, hwrites] at hlt
  exact Nat.lt_irrefl _ hlt

end Wrapping
end Starshard.Foreground
