import Starshard.Data.Failing
import Starshard.Migration.Cooperative

/-! `rebalance_to` with `background = false`: the replacement generation is staged from
both sources under exclusive routing and then published field by field. -/
namespace Starshard.Migration

open Data Worker

variable {K V : Type}

inductive Failure where
  | rejected (error : ShardCountError)
  /-- User `Hash`, `Eq` or `Clone`, or the clone of the hasher, unwinds. -/
  | panicked
  deriving DecidableEq

/-- A section under exclusive routing. What it wrote before a failure stays. -/
abbrev Section (K V : Type) := ExceptT Failure (StateM (State K V))

/-- The entries in the order the staging reads them. -/
def sources (flavor : Flavor) (t : Tables K V) : List (K × V) :=
  match flavor with
  | .sync => t.entries
  | .async => asyncEntries t

section Staged

variable [DecidableEq K] (hash : K → Nat)

/-- Copy one entry to its destination and count it; `panics n` if user code unwinds at
the entry read as number `n`. A present key keeps its value in the sync map only. -/
def stageOne (flavor : Flavor) (target : Nat) (panics : Nat → Bool) (acc : Shards K V × Nat)
    (e : (K × V) × Nat) : Section K V (Shards K V × Nat) := do
  if panics e.2 then throw .panicked
  match flavor with
  | .sync =>
    if ((slot acc.1 (hash e.1.1 % target)).lookup e.1.1).isSome then pure acc
    else pure (insertAt (hash e.1.1 % target) e.1.1 e.1.2 acc.1, acc.2 + 1)
  | .async => pure (insertAt (hash e.1.1 % target) e.1.1 e.1.2 acc.1, acc.2)

/-- The publication: no user code runs between its writes. -/
def publish (flavor : Flavor) (current target moved elapsed : Nat) (maps : Shards K V) :
    Section K V Unit := do
  modify fun s => { s with tables := { s.tables with active := maps } }
  modify fun s => { s with tables := { s.tables with previous := none } }
  modify fun s => { s with tables := { s.tables with previousShardCount := 0 } }
  modify fun s => { s with tables := { s.tables with shardCount := target } }
  match flavor with
  | .sync => pure ()
  | .async => modify fun s => { s with totalLen := moved }
  modify fun s => { s with tracker := s.tracker.finishStaged current target moved elapsed }

/-- The sync map counts the copies, the async map the destinations. -/
def movedOf (flavor : Flavor) (staged : Shards K V × Nat) : Nat :=
  match flavor with
  | .sync => staged.2
  | .async => (staged.1.map fun m => (m.getD ∅).size).sum

/-- The staging from the directories of `s`, and the publication. -/
def stageAndPublish (flavor : Flavor) (target elapsed : Nat) (panics : Nat → Bool)
    (s : State K V) : Section K V RebalanceReport := do
  let staged ← (sources flavor s.tables).zipIdx.foldlM (stageOne hash flavor target panics)
    (List.replicate target none, 0)
  let moved := movedOf flavor staged
  publish flavor s.tables.shardCount target moved elapsed staged.1
  return ⟨s.tables.shardCount, target, moved, elapsed / 1000000⟩

def rebalanceStaged (flavor : Flavor) (newShardCount elapsed : Nat) (panics : Nat → Bool) :
    Section K V RebalanceReport :=
  match strictShardCount newShardCount MAX_SHARDS with
  | .error error => throw (.rejected error)
  | .ok target => do
    let s ← get
    if target = s.tables.shardCount ∧ s.tracker.migrating = false then
      return ⟨s.tables.shardCount, target, 0, 0⟩
    else stageAndPublish hash flavor target elapsed panics s

end Staged

variable [DecidableEq K] {hash : K → Nat}

/-- The count after one more entry; the async map counts at the end. -/
def counted (flavor : Flavor) (n : Nat) : Nat :=
  match flavor with
  | .sync => n + 1
  | .async => n

/-- What the staging of `es` produces: the destinations and the count. -/
structure Copied (hash : K → Nat) (flavor : Flavor) (target : Nat) (es : List (K × V))
    (acc : Shards K V × Nat) : Prop where
  staged : Tables.Staged hash target acc.1 es
  count : flavor = .sync → acc.2 = es.length

theorem Copied.nil (flavor : Flavor) (target : Nat) :
    Copied hash flavor target ([] : List (K × V)) (List.replicate target none, 0) :=
  ⟨staged_nil, fun _ => rfl⟩

theorem Copied.snoc {flavor : Flavor} {target : Nat} (ht : 0 < target) {es : List (K × V)}
    {acc : Shards K V × Nat} (h : Copied hash flavor target es acc) (e : K × V) :
    Copied hash flavor target (es ++ [e])
      (insertAt (hash e.1 % target) e.1 e.2 acc.1, counted flavor acc.2) := by
  refine ⟨staged_overwrite ht h.staged e, fun hf => ?_⟩
  subst hf
  rw [List.length_append, List.length_singleton, ← h.count rfl]
  rfl

theorem Copied.absent {flavor : Flavor} {target : Nat} {es : List (K × V)}
    {acc : Shards K V × Nat} (h : Copied hash flavor target es acc) {e : K × V}
    (hn : e.1 ∉ es.map Prod.fst) : (slot acc.1 (hash e.1 % target)).lookup e.1 = none := by
  cases hl : (slot acc.1 (hash e.1 % target)).lookup e.1 with
  | none => rfl
  | some v => exact absurd (List.mem_map_of_mem (h.staged.sound _ _ _ hl).2) hn

/-- The staging copies every entry, or stops where user code unwinds; it never writes. -/
theorem stageAll_run {flavor : Flavor} {target : Nat} (ht : 0 < target) (panics : Nat → Bool)
    (s : State K V) {es : List (K × V)} (hd : (es.map Prod.fst).Nodup) :
    (∃ acc, (es.zipIdx.foldlM (stageOne hash flavor target panics)
        (List.replicate target none, 0)).run s = (.ok acc, s) ∧
      Copied hash flavor target es acc ∧ ∀ n < es.length, panics n = false) ∨
    ((es.zipIdx.foldlM (stageOne hash flavor target panics)
        (List.replicate target none, 0)).run s = (.error .panicked, s) ∧
      ∃ n < es.length, panics n = true) := by
  let inv : List (K × V) → Shards K V × Nat → State K V → Prop := fun pre acc s' =>
    s' = s ∧ Copied hash flavor target pre acc ∧ ∀ n < pre.length, panics n = false
  let bad : Failure → State K V → Prop := fun e s' =>
    e = .panicked ∧ s' = s ∧ ∃ n < es.length, panics n = true
  have hstep : ∀ pre e post acc s', es = pre ++ e :: post → inv pre acc s' →
      (∃ acc' s'', ExceptT.run (stageOne hash flavor target panics acc (e, pre.length)) s' =
        (.ok acc', s'') ∧ inv (pre ++ [e]) acc' s'') ∨
      ∃ err s'', ExceptT.run (stageOne hash flavor target panics acc (e, pre.length)) s' =
        (.error err, s'') ∧ bad err s'' := by
    intro pre e post acc s' hall ⟨hs, hcop, hpre⟩
    have hnew : e.1 ∉ pre.map Prod.fst := by
      rw [hall, List.map_append, List.map_cons, List.nodup_append] at hd
      exact fun hm => hd.2.2 _ hm _ List.mem_cons_self rfl
    cases hp : panics pre.length with
    | true =>
      right
      have hone : stageOne hash flavor target panics acc (e, pre.length) = throw .panicked := by
        unfold stageOne
        rw [if_pos hp]
        rfl
      rw [hone]
      refine ⟨.panicked, s', rfl, rfl, hs, pre.length, ?_, hp⟩
      rw [hall, List.length_append, List.length_cons]
      omega
    | false =>
      left
      have hone : stageOne hash flavor target panics acc (e, pre.length) =
          pure (insertAt (hash e.1 % target) e.1 e.2 acc.1, counted flavor acc.2) := by
        unfold stageOne
        cases flavor with
        | sync => simp [hp, hcop.absent hnew, counted]
        | async => simp [hp, counted]
      rw [hone]
      refine ⟨_, s', rfl, hs, hcop.snoc ht e, fun n hn => ?_⟩
      rw [List.length_append, List.length_singleton] at hn
      obtain hlt | rfl : n < pre.length ∨ n = pre.length := by omega
      · exact hpre n hlt
      · exact hp
  have hnil : inv [] (List.replicate target none, 0) s := ⟨rfl, .nil flavor target, nofun⟩
  rcases Failing.run_foldlM_zipIdx hstep hnil with
    ⟨acc, s', hrun, rfl, hcop, hall⟩ | ⟨e, s', hrun, rfl, rfl, hbad⟩
  · exact .inl ⟨acc, hrun, hcop, hall⟩
  · exact .inr ⟨hrun, hbad⟩

theorem represents_sources {t : Tables K V} (h : t.Placed hash) (flavor : Flavor) :
    Represents (sources flavor t) (t.lookup hash) := by
  cases flavor with
  | sync => exact represents_entries h
  | async => exact represents_asyncEntries h

def published (target : Nat) (maps : Shards K V) : Tables K V := ⟨maps, none, target, 0⟩

theorem placed_published {flavor : Flavor} {target : Nat} (ht : 0 < target) {es : List (K × V)}
    {acc : Shards K V × Nat} (h : Copied hash flavor target es acc) :
    (published target acc.1).Placed hash where
  count := h.staged.length
  pos := ht
  active i k v hv := (h.staged.sound i k v hv).1
  length _ hp := by cases hp
  sources _ hp := by cases hp
  previous _ hp := by cases hp
  once _ hp := by cases hp

theorem lookup_published {flavor : Flavor} {target : Nat} {es : List (K × V)}
    {acc : Shards K V × Nat} (h : Copied hash flavor target es acc) {d : K → Option V}
    (hd : Represents es d) (k : K) : (published target acc.1).lookup hash k = d k := by
  rw [← staged_lookup h.staged hd k]
  simp [Tables.lookup, published]

omit [DecidableEq K] in
theorem publish_run (flavor : Flavor) (current target moved elapsed : Nat) (maps : Shards K V)
    (s : State K V) : (publish flavor current target moved elapsed maps).run s =
      (.ok (), ⟨published target maps,
        match flavor with
        | .sync => s.totalLen
        | .async => moved, s.writeEpoch,
        s.tracker.finishStaged current target moved elapsed⟩) := by
  cases flavor <;> rfl

theorem rebalanceStaged_eq (flavor : Flavor) {newShardCount target : Nat} (elapsed : Nat)
    (panics : Nat → Bool) {s : State K V}
    (ht : strictShardCount newShardCount MAX_SHARDS = .ok target)
    (hn : ¬ (target = s.tables.shardCount ∧ s.tracker.migrating = false)) :
    (rebalanceStaged hash flavor newShardCount elapsed panics).run s =
      (stageAndPublish hash flavor target elapsed panics s).run s := by
  unfold rebalanceStaged
  rw [ht]
  dsimp only
  rw [Failing.run_bind]
  change (if _ then _ else _ : Section K V RebalanceReport).run s = _
  rw [if_neg hn]

/-- The staged entries are published together with their number. -/
theorem rebalanceStaged_returns (flavor : Flavor) {newShardCount target : Nat} (elapsed : Nat)
    {panics : Nat → Bool} {s : State K V} (h : s.Sound hash)
    (ht : strictShardCount newShardCount MAX_SHARDS = .ok target)
    (hn : ¬ (target = s.tables.shardCount ∧ s.tracker.migrating = false))
    (hall : ∀ n < s.tables.entries.length, panics n = false) : ∃ maps,
      (rebalanceStaged hash flavor newShardCount elapsed panics).run s =
        (.ok ⟨s.tables.shardCount, target, s.totalLen, elapsed / 1000000⟩,
          ⟨published target maps, s.totalLen, s.writeEpoch,
            s.tracker.finishStaged s.tables.shardCount target s.totalLen elapsed⟩) ∧
      (published target maps).Placed hash ∧
      ∀ k, (published target maps).lookup hash k = s.tables.lookup hash k := by
  obtain ⟨hpos, hcap⟩ := strictShardCount_ok ht
  have hrep := represents_sources h.placed flavor
  have hlen : (sources flavor s.tables).length = s.tables.entries.length :=
    hrep.length_eq (represents_entries h.placed)
  obtain ⟨acc, hacc, hcop⟩ : ∃ acc, ((sources flavor s.tables).zipIdx.foldlM
      (stageOne hash flavor target panics) (List.replicate target none, 0)).run s = (.ok acc, s) ∧
      Copied hash flavor target (sources flavor s.tables) acc := by
    rcases stageAll_run hpos panics s hrep.nodup with ⟨acc, hacc, hcop, _⟩ | ⟨_, n, hlt, hp⟩
    · exact ⟨acc, hacc, hcop⟩
    · rw [hall n (hlen ▸ hlt)] at hp
      cases hp
  have hplaced := placed_published hpos hcop
  have hlookup := lookup_published hcop hrep
  have hmoved : movedOf flavor acc = s.totalLen := by
    cases flavor with
    | sync => exact (hcop.count rfl).trans (hlen.trans h.len.symm)
    | async =>
      rw [h.len]
      exact (stagedLen_eq rfl).trans (length_entries_congr h.placed hplaced hlookup)
  refine ⟨acc.1, ?_, hplaced, hlookup⟩
  rw [rebalanceStaged_eq flavor elapsed panics ht hn]
  unfold stageAndPublish
  rw [Failing.run_bind, hacc]
  dsimp only
  rw [hmoved, Failing.run_bind, publish_run]
  cases flavor <;> rfl

theorem rebalanceStaged_panics (flavor : Flavor) {newShardCount target : Nat} (elapsed : Nat)
    {panics : Nat → Bool} {s : State K V} (h : s.Sound hash)
    (ht : strictShardCount newShardCount MAX_SHARDS = .ok target)
    (hn : ¬ (target = s.tables.shardCount ∧ s.tracker.migrating = false))
    (hbad : ∃ n < s.tables.entries.length, panics n = true) :
    (rebalanceStaged hash flavor newShardCount elapsed panics).run s = (.error .panicked, s) := by
  obtain ⟨hpos, hcap⟩ := strictShardCount_ok ht
  have hrep := represents_sources h.placed flavor
  have hlen : (sources flavor s.tables).length = s.tables.entries.length :=
    hrep.length_eq (represents_entries h.placed)
  obtain ⟨n, hlt, hp⟩ := hbad
  rw [rebalanceStaged_eq flavor elapsed panics ht hn]
  rcases stageAll_run hpos panics s hrep.nodup with ⟨_, _, _, hall⟩ | ⟨hrun, _⟩
  · rw [hall n (hlen.symm ▸ hlt)] at hp
    cases hp
  · exact Failing.run_bind_error hrun

/-- Two layouts with the same count and the same lookups have the same slots. -/
theorem same_slots {t t' : Tables K V} (h : t.Placed hash) (h' : t'.Placed hash)
    (hp : t.previous = none) (hp' : t'.previous = none) (hc : t'.shardCount = t.shardCount)
    (hl : ∀ k, t'.lookup hash k = t.lookup hash k) (i : Nat) (k : K) :
    (slot t'.active i).lookup k = (slot t.active i).lookup k := by
  have read (t : Tables K V) (hp : t.previous = none) :
      t.lookup hash k = (slot t.active (hash k % t.shardCount)).lookup k := by
    simp [Tables.lookup, hp]
  by_cases hi : hash k % t.shardCount = i
  · rw [← hi, ← read t hp, ← hl k, read t' hp', hc]
  · have empty (t₀ : Tables K V) (h₀ : t₀.Placed hash) (hc₀ : t₀.shardCount = t.shardCount) :
        (slot t₀.active i).lookup k = none := by
      cases hv : (slot t₀.active i).lookup k with
      | none => rfl
      | some v => exact absurd (hc₀ ▸ h₀.active i k v hv) hi
    rw [empty t h rfl, empty t' h' hc]

/-- A staged rebalance publishes the contents of the map in the requested layout, slot by
slot as the cooperative one leaves them; when user code unwinds or the request is refused,
nothing has changed. -/
theorem staged_rebalance_is_identity {flavor : Flavor} {s : State K V}
    (hr : Reachable hash flavor s) (newShardCount elapsed : Nat) (panics : Nat → Bool) :
    (∀ target, strictShardCount newShardCount MAX_SHARDS = .ok target →
      ¬ (target = s.tables.shardCount ∧ s.tracker.migrating = false) →
      ((∀ n < s.tables.entries.length, panics n = false) → ∃ report s',
        (rebalanceStaged hash flavor newShardCount elapsed panics).run s = (.ok report, s') ∧
        s'.tracker.migrating = false ∧ s'.tables.previous = none ∧
        s'.tables.shardCount = target ∧
        (∀ i k v, (slot s'.tables.active i).lookup k = some v → hash k % target = i) ∧
        (∀ k, s'.tables.lookup hash k = s.tables.lookup hash k) ∧
        s'.totalLen = s.totalLen ∧ s'.writeEpoch = s.writeEpoch ∧
        report.movedEntries = s'.totalLen ∧
        ∀ env options readings fuel batchFuel b online,
          journey target s < fuel → s.tables.entries.length + usizeMax < batchFuel →
          rebalanceTo env hash newShardCount options fuel batchFuel (.start s readings) =
            .ok (.ok (b, online)) →
          ∀ i k, (slot s'.tables.active i).lookup k = (slot b.state.tables.active i).lookup k) ∧
      ((∃ n < s.tables.entries.length, panics n = true) →
        (rebalanceStaged hash flavor newShardCount elapsed panics).run s =
          (.error .panicked, s))) ∧
    ∀ e, strictShardCount newShardCount MAX_SHARDS = .error e →
      (rebalanceStaged hash flavor newShardCount elapsed panics).run s = (.error (.rejected e), s) := by
  have h := hr.sound
  refine ⟨fun target ht hn => ⟨fun hall => ?_, rebalanceStaged_panics flavor elapsed h ht hn⟩,
    fun e he => ?_⟩
  · obtain ⟨maps, hrun, hplaced, hlookup⟩ := rebalanceStaged_returns flavor elapsed h ht hn hall
    refine ⟨_, _, hrun, rfl, rfl, rfl, hplaced.active, hlookup, rfl, rfl, rfl, ?_⟩
    intro env options readings fuel batchFuel b online hfuel hbatch heq i k
    obtain ⟨b', online', heq', hsame, hmig, hcount⟩ :=
      rebalanceTo_ends h ht env options readings hfuel hbatch
    rw [heq'] at heq
    cases heq
    have hnone : b.state.tables.previous = none := by
      have := hsame.sound.migrating
      rw [hmig] at this
      simpa using this
    exact (same_slots hplaced hsame.sound.placed rfl hnone hcount
      (fun k => (hsame.lookup k).trans (hlookup k).symm) i k).symm
  · unfold rebalanceStaged
    rw [he]
    rfl

theorem staged_rebalance_is_identity_spreading : ∃ report s',
    (rebalanceStaged id .async 3 7 fun _ => false).run spreading = (.ok report, s') ∧
      s'.tables.shardCount = 3 ∧ s'.totalLen = 2 :=
  have ⟨report, s', hrun, _, _, hcount, _, _, hlen, _⟩ :=
    ((staged_rebalance_is_identity (spreading_reachable .async) 3 7 fun _ => false).1 3 rfl
      (by decide)).1 fun _ _ => rfl
  ⟨report, s', hrun, hcount, hlen⟩

end Starshard.Migration
