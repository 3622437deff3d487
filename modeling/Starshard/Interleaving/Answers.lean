import Starshard.Proof.Reports
import Starshard.Spec.Meaning
import Starshard.Sync.Session

/-! Every public operation of the synchronous map is verified: it never gets stuck, it
releases what it locked, and the events it committed explain its answer. -/
namespace Starshard

open Data Concurrent

variable {K V : Type} [DecidableEq K] {env : Env K V} {L : Lifecycle K V} {alone : Prop}
  {v : View K V L.State} {op : Sync.Op K V} {call : KeyCall K V} {r : Answer K V}
  {main ev : List (Event K V)} {counts : List Metric}

/-- The events of maintenance after an operation. -/
def Follows (env : Env K V) (op : Sync.Op K V) (ev : List (Event K V)) : Prop :=
  Evictions env ev ∧ (maintains op = false → ev = [])

/-- The committed events explain an answer: they are what the operation means, then
evictions, and the version advanced for nothing but a change. -/
def Explains (env : Env K V) (op : Sync.Op K V) (es : List (Event K V)) (r : Answer K V) : Prop :=
  ∃ main counts ev, meaning env.valueEq op r main counts ∧ Follows env op ev ∧
    visible es = main ++ ev ∧ counted es = counts ++ List.replicate ev.length .evictions ∧
    (.publish ∈ es → ∃ e ∈ visible es, e.changes)

/-- The visible events of an operation so far can still become an explanation. -/
def Begins (env : Env K V) (op : Sync.Op K V) (vs : List (Event K V)) : Prop :=
  ∃ rest r main counts ev, meaning env.valueEq op r main counts ∧ Follows env op ev ∧
    vs ++ rest = main ++ ev

omit [DecidableEq K] in
theorem Follows.nil : Follows env op [] := ⟨⟨fun _ => rfl, by simp⟩, fun _ => rfl⟩

omit [DecidableEq K] in
theorem Follows.of_maintains (hop : maintains op = true) (hev : Evictions env ev) :
    Follows env op ev := ⟨hev, fun h => by rw [hop] at h; cases h⟩

theorem Begins.of_meaning (hm : meaning env.valueEq op r main counts) (hev : Follows env op ev) :
    Begins env op (main ++ ev) := ⟨[], r, main, counts, ev, hm, hev, List.append_nil _⟩

theorem Begins.plain (hm : meaning env.valueEq op r main counts) : Begins env op main := by
  simpa using Begins.of_meaning hm .nil

theorem Begins.lenient (hop : maintains op = true) (hm : meaning env.valueEq op r main counts) :
    Lenient env (Begins env op) main := fun _ hev => .of_meaning hm (.of_maintains hop hev)

def Returned (env : Env K V) (op : Sync.Op K V) (r : Answer K V) (v : View K V L.State) : Prop :=
  v.gs = [] ∧ Explains env op v.evs r

theorem Calm.returned (hm : meaning env.valueEq op r main counts) (hev : Follows env op ev)
    {sp : List (Event K V) → Prop}
    (h : Calm env sp [] (main ++ ev) (counts ++ List.replicate ev.length .evictions) v) :
    Returned env op r v :=
  ⟨h.guards, main, counts, ev, hm, hev, h.visible, h.counted, by rw [h.visible]; exact h.quiet⟩

variable {sp : List (Event K V) → Prop}

theorem Calm.returned_plain (hm : meaning env.valueEq op r main counts)
    (h : Calm env sp [] main counts v) : Returned env op r v :=
  Calm.returned hm Follows.nil (by simpa using h)

theorem Maintained.returned (hm : meaning env.valueEq op r main counts)
    (hop : maintains op = true) (h : Maintained env sp [] main counts v) :
    Returned env op r v := by
  obtain ⟨ev, hev, h⟩ := h
  exact h.returned hm (.of_maintains hop hev)

section Calls

omit [DecidableEq K] in
theorem KeyCall.meaning_outcome (call : KeyCall K V) (env : Env K V) (old : Option V) :
    call.meaning env.valueEq (call.outcome env.valueEq old).answer
      [(call.outcome env.valueEq old).event] (call.outcome env.valueEq old).counts :=
  ⟨old, rfl, rfl, rfl⟩

theorem allows_call (hop : meaning env.valueEq op = call.meaning env.valueEq)
    (hm : maintains op = true) : Allows env (Begins env op) [] call := fun old =>
  Begins.lenient hm (hop ▸ call.meaning_outcome env old)

theorem Ended.returned (hop : meaning env.valueEq op = call.meaning env.valueEq)
    (hm : maintains op = true) (h : Ended env sp [] [] call r v) : Returned env op r v := by
  obtain ⟨old, rfl, h⟩ := h
  exact h.returned (hop ▸ call.meaning_outcome env old) hm

end Calls

section Batches

variable {α : Type} {key : α → K} {items : List α} {event : α × Option V → Event K V}
  {tally : List (α × Option V) → Nat} {cost : α × Option V → List Metric}

/-- A batch in part, and then the rest of it as if nothing was found. -/
theorem begins_parts (hop : ∀ done : List (α × Option V), Rearranged key items (done.map Prod.fst) →
      ∃ r, meaning env.valueEq op r (done.map event) (done.flatMap cost)) :
    AllowsParts (Begins env op) [] key items event := by
  intro done rest hr
  have hall : (done ++ rest.map fun x => (x, (none : Option V))).map Prod.fst =
      done.map Prod.fst ++ rest := by
    rw [List.map_append, List.map_map]
    exact congrArg _ (List.map_id rest)
  obtain ⟨r, hm⟩ := hop _ (hall ▸ hr)
  refine ⟨(rest.map fun x => (x, none)).map event, r, _, _, [], hm, .nil, ?_⟩
  rw [List.map_append, List.append_nil, List.nil_append]

theorem allows_batch (hm : maintains op = true)
    (hop : ∀ done : List (α × Option V), Rearranged key items (done.map Prod.fst) →
      meaning env.valueEq op (.count (tally done)) (done.map event) (done.flatMap cost)) :
    AllowsBatch env (Begins env op) [] key items event where
  part := begins_parts fun done hd => ⟨_, hop done hd⟩
  whole done hd := Begins.lenient hm (hop done hd)

theorem Batched.returned (hm : maintains op = true)
    (hop : ∀ done : List (α × Option V), Rearranged key items (done.map Prod.fst) →
      meaning env.valueEq op (.count (tally done)) (done.map event) (done.flatMap cost))
    {n : Nat} (h : Batched env sp [] [] key items event cost tally n v) :
    Returned env op (.count n) v := by
  obtain ⟨done, hd, rfl, h⟩ := h
  exact h.returned (hop done hd) hm

theorem Rearranged.mem {done : List α} (h : Rearranged key items done) {x : α} (hx : x ∈ done) :
    x ∈ items := by
  have hmem : x ∈ done.filter fun y => key y = key x := List.mem_filter.mpr ⟨hx, by simp⟩
  rw [h (key x)] at hmem
  exact (List.mem_filter.mp hmem).1

theorem Rearranged.perm [DecidableEq α] {done : List α} (h : Rearranged key items done) :
    done.Perm items := by
  rw [List.perm_iff_count]
  intro x
  have hx := congrArg (List.count x) (h (key x))
  rwa [List.count_filter (by simp), List.count_filter (by simp)] at hx

/-- Whatever was found for each position, there is a result that lists it. -/
theorem Gathered.of_rearranged {keys : List K} {done : List ((Nat × K) × Option V)}
    (h : Rearranged Prod.snd (positions keys) (done.map Prod.fst)) :
    ∃ vs, Gathered keys.length vs done := by
  have hp := h.perm
  have hnodup : ((done.map Prod.fst).map Prod.fst).Nodup :=
    (hp.map Prod.fst).nodup_iff.mpr (nodup_positions keys)
  have hlt : ∀ e ∈ done, e.1.1 < keys.length := fun e he =>
    lt_of_mem_positions (hp.mem_iff.mp (List.mem_map_of_mem he))
  clear h hp
  induction done using List.reverseRecOn with
  | nil => exact ⟨_, .start _⟩
  | append_singleton done e ih =>
    rw [List.map_append, List.map_append, List.nodup_append] at hnodup
    obtain ⟨vs, hg⟩ := ih hnodup.1 fun e' he => hlt e' (List.mem_append_left _ he)
    refine ⟨vs.set e.1.1 e.2, hg.set (hlt e (by simp)) (fun e' he heq => ?_) e.2⟩
    refine hnodup.2.2 e'.1.1 ?_ e.1.1 (by simp) heq
    rw [List.map_map]
    exact List.mem_map_of_mem he

end Batches

section Snapshots

variable {answer : Nat → List (K × V) → Answer K V}

theorem allows_snapshot (hop : meaning env.valueEq op = snapshotMeaning answer) :
    AllowsSnapshot (Begins env op) [] := by
  intro e items d hd
  have hm : snapshotMeaning answer (answer e items) [.snapshot e d] [] :=
    ⟨e, items, d, hd, rfl, rfl, rfl⟩
  exact .plain (hop ▸ hm)

theorem Captured.returned (hop : meaning env.valueEq op = snapshotMeaning answer) {e : Nat}
    {items : List (K × V)} {d : Contents K V} (h : Captured env sp [] [] [] e items d v) :
    Returned env op (answer e items) v := by
  have hm : snapshotMeaning answer (answer e items) [.snapshot e d] [] :=
    ⟨e, items, d, h.represents, rfl, rfl, rfl⟩
  exact h.calm.returned_plain (hop ▸ hm)

end Snapshots

section Operations

/-- From its call to its return an operation is verified, alone or among others. -/
structure Sound (env : Env K V) (L : Lifecycle K V) (alone : Prop) (op : Sync.Op K V) :
    Prop where
  begins : Begins env op []
  answers : ∀ v : View K V L.State, Calm env (Begins env op) [] [] [] v →
    (protocol env L alone).Wp (Sync.answer env op) v (Returned env op)

theorem Begins.nil {vs : List (Event K V)} (h : Begins env op vs) : Begins env op [] := by
  obtain ⟨rest, r, main, counts, ev, hm, hev, heq⟩ := h
  exact ⟨vs ++ rest, r, main, counts, ev, hm, hev, heq⟩

variable {α β : Type} {p : Prog K V α} (answer : α → Answer K V)

theorem begins_nil {α : Type} {key : α → K} {items : List α} {event : α × Option V → Event K V}
    (h : AllowsParts (Begins env op) [] key items event) : Begins env op [] :=
  h [] items fun _ => rfl

theorem Sound.of (hbegins : Begins env op [])
    (hprog : Sync.answer env op = p >>= fun r => pure (answer r))
    (hp : ∀ v : View K V L.State, Calm env (Begins env op) [] [] [] v →
      (protocol env L alone).Wp p v fun r v' => Returned env op (answer r) v') :
    Sound env L alone op where
  begins := hbegins
  answers v hv := by
    rw [hprog]
    exact Protocol.Wp.bind (hp v hv)

theorem Sound.of_call (call : KeyCall K V)
    (hop : meaning env.valueEq op = call.meaning env.valueEq) (hm : maintains op = true)
    (hprog : Sync.answer env op = p >>= fun r => pure (answer r))
    (hp : ∀ v : View K V L.State, Calm env (Begins env op) [] [] [] v →
      Allows env (Begins env op) [] call → (protocol env L alone).Wp p v fun r v' =>
        Ended env (Begins env op) [] [] call (answer r) v') : Sound env L alone op :=
  have ha : Allows env (Begins env op) [] call := allows_call hop hm
  .of answer (ha.now none).nil hprog fun v hv => (hp v hv ha).mono fun _ _ h => h.returned hop hm

theorem Sound.of_read (call : KeyCall K V) (k : K) (read : V → β)
    (result : Option β → Answer K V) (hop : meaning env.valueEq op = call.meaning env.valueEq)
    (ho : ∀ found, call.outcome env.valueEq found =
      ⟨result (found.map read), .read k found, lookupCounts found.isSome⟩)
    (hprog : Sync.answer env op = Sync.readWith env k read >>= fun r => pure (result r)) :
    Sound env L alone op := by
  have hm : ∀ found, meaning env.valueEq op (result (found.map read)) [.read k found]
      (lookupCounts found.isSome) := fun found => by
    have h := call.meaning_outcome env found
    rw [ho] at h
    exact hop ▸ h
  refine .of result (Begins.plain (hm none)).nil hprog fun v hv => ?_
  refine (hv.wp_readWith (fun found => .plain (hm found)) read).mono fun r v' ⟨found, hr, h⟩ => ?_
  rw [hr]
  exact h.returned_plain (hm found)

theorem Sound.of_quiet (hprog : Sync.answer env op = Sync.discard p >>= fun _ => pure .done)
    (hm : meaning env.valueEq op .done [] [])
    (hp : ∀ v : View K V L.State, Calm env (Begins env op) [] [] [] v →
      (protocol env L alone).Wp p v fun _ v' => Calm env (Begins env op) [] [] [] v') :
    Sound env L alone op :=
  .of (fun _ => .done) (.plain hm) (hprog.trans (Program.bind_assoc _ _ _)) fun v hv =>
    (hp v hv).mono fun _ _ h => h.returned_plain hm

end Operations

/-- Every public operation is verified; one that moves entries in a loop, among others. -/
theorem sound (hsync : env.awaits = false) (op : Sync.Op K V) (hop : advances op → ¬ alone) :
    Sound env L alone op := by
  cases op with
  | insert k x => exact .of_call .value (.insert k x) rfl rfl rfl fun v hv ha => hv.wp_insert ha
  | get k =>
    exact .of_read (.get k) k id .value rfl (fun found => by rw [Option.map_id]; rfl) rfl
  | readWith k read => exact .of_read (.readWith k read) k read .value rfl (fun _ => rfl) rfl
  | contains k =>
    exact .of_read (.contains k) k (fun _ => ()) (fun found => .flag found.isSome) rfl
      (fun found => by rw [Option.isSome_map]; rfl) (Program.bind_assoc _ _ _)
  | remove k => exact .of_call .value (.remove k) rfl rfl rfl fun v hv ha => hv.wp_remove ha
  | len =>
    refine .of .count (.plain (r := .count 0) ⟨⟨0, rfl⟩, rfl, rfl⟩) rfl fun v hv => ?_
    exact wp_quiet rfl (rule_totalLen fun n _ => hv.returned_plain ⟨⟨n, rfl⟩, rfl, rfl⟩)
  | getOrInsertWith k f =>
    exact .of_call (fun r : V × Bool => .entry r.1 r.2) (.getOrInsertWith k f) rfl rfl rfl
      fun v hv ha => hv.wp_getOrInsertWith f ha
  | computeIfPresent k f =>
    exact .of_call .value (.computeIfPresent k f) rfl rfl rfl fun v hv ha =>
      hv.wp_computeIfPresent f ha
  | compareAndSwap k expected new =>
    exact .of_call .swap (.compareAndSwap k expected new) rfl rfl rfl fun v hv ha =>
      hv.wp_compareAndSwap expected new ha
  | compareAndRemove k expected =>
    exact .of_call .flag (.compareAndRemove k expected) rfl rfl rfl fun v hv ha =>
      hv.wp_compareAndRemove expected ha
  | batchInsert entries =>
    have hop : ∀ done : List ((K × V) × Option V), Rearranged Prod.fst entries (done.map Prod.fst) →
        meaning env.valueEq (.batchInsert entries) (.count (insertedNew done)) (done.map insertion)
          (done.flatMap insertionCounts) := fun done hd => ⟨done, hd, rfl, rfl, rfl⟩
    have ha := allows_batch rfl hop
    exact .of .count (begins_nil ha.part) rfl fun v hv =>
      (hv.wp_batchInsert ha).mono fun _ _ h => h.returned rfl hop
  | batchRemove keys =>
    have hop : ∀ done : List (K × Option V), Rearranged (fun k => k) keys (done.map Prod.fst) →
        meaning env.valueEq (.batchRemove keys) (.count (removedOld done)) (done.map removal)
          (done.flatMap removalCounts) := fun done hd => ⟨done, hd, rfl, rfl, rfl⟩
    have ha := allows_batch rfl hop
    exact .of .count (begins_nil ha.part) rfl fun v hv =>
      (hv.wp_batchRemove ha).mono fun _ _ h => h.returned rfl hop
  | batchGet keys =>
    have ha : AllowsParts (Begins env (.batchGet keys)) [] Prod.snd (positions keys) reading :=
      begins_parts fun done hd => by
        obtain ⟨vs, hg⟩ := Gathered.of_rearranged hd
        exact ⟨.values vs, done, vs, hd, rfl, hg.length, hg.written, rfl, rfl⟩
    exact .of .values (begins_nil ha) rfl fun v hv => (hv.wp_batchGet ha).mono
      fun r v' ⟨done, hd, hg, h⟩ =>
        h.returned_plain ⟨done, r, hd, rfl, hg.length, hg.written, rfl, rfl⟩
  | retain predicate =>
    have hm : ∀ dropped : List (K × V), meaning env.valueEq (.retain predicate) .done
        [.retain predicate dropped] (.replicate dropped.length .removes) := fun dropped =>
      ⟨dropped, rfl, rfl, rfl⟩
    exact .of (fun _ => .done) (Begins.plain (hm [])).nil rfl fun v hv =>
      (hv.wp_retain fun dropped => .lenient rfl (hm dropped)).mono fun _ _ ⟨dropped, h⟩ =>
        h.returned (hm dropped) rfl
  | clear =>
    have hm : ∀ items : List (K × V), meaning env.valueEq .clear .done [.drain items]
        (.replicate items.length .removes) := fun items => ⟨items, rfl, rfl, rfl⟩
    exact .of (fun _ => .done) (Begins.plain (hm [])).nil rfl fun v hv =>
      (hv.wp_clear fun items => .lenient rfl (hm items)).mono fun _ _ ⟨items, h⟩ =>
        h.returned (hm items) rfl
  | drain =>
    have hm : ∀ items : List (K × V), meaning env.valueEq .drain (.items items) [.drain items]
        (.replicate items.length .removes) := fun items => ⟨items, rfl, rfl, rfl⟩
    exact .of .items (Begins.plain (hm [])).nil rfl fun v hv =>
      (hv.wp_drain fun items => .lenient rfl (hm items)).mono fun items _ h =>
        h.returned (hm items) rfl
  | executeTransaction ops =>
    have hm : ∀ found : List (Option V), meaning env.valueEq (.executeTransaction ops)
        (.transaction .committed) [.transact ops found]
        ((ops.zip found).flatMap fun e => txnCounts e.1 e.2) := fun found => ⟨found, rfl, rfl, rfl⟩
    exact .of .transaction (Begins.plain (hm [])).nil rfl fun v hv =>
      (hv.wp_executeTransaction fun found => .lenient rfl (hm found)).mono
        fun _ _ ⟨hr, found, h⟩ => hr ▸ h.returned (hm found) rfl
  | snapshotView =>
    have hop : meaning env.valueEq (.snapshotView : Sync.Op K V) = snapshotMeaning .snapshot := rfl
    have ha := allows_snapshot hop
    exact .of (fun r => .snapshot r.version r.items)
      (ha 0 [] _ .nil).nil rfl fun v hv =>
      (hv.wp_snapshotView ha).mono fun _ _ ⟨_, h, _⟩ => h.returned hop
  | captureSnapshot =>
    have hop : meaning env.valueEq (.captureSnapshot : Sync.Op K V) = snapshotMeaning .snapshot := rfl
    have ha := allows_snapshot hop
    exact .of (fun r => .snapshot r.1 r.2)
      (ha 0 [] _ .nil).nil rfl fun v hv =>
      (hv.wp_captureSnapshot ha).mono fun _ _ ⟨_, h⟩ => h.returned hop
  | iter =>
    have hop : meaning env.valueEq (.iter : Sync.Op K V) =
      snapshotMeaning (fun _ items => .items items) := rfl
    have ha := allows_snapshot hop
    exact .of .items (ha 0 [] _ .nil).nil rfl fun v hv =>
      (hv.wp_iter ha).mono fun _ _ ⟨_, _, h⟩ => h.returned hop
  | collect =>
    have hop : meaning env.valueEq (.collect : Sync.Op K V) =
      snapshotMeaning (fun _ items => .items items) := rfl
    have ha := allows_snapshot hop
    exact .of .items (ha 0 [] _ .nil).nil rfl fun v hv =>
      (hv.wp_collectWith ha).mono fun _ _ ⟨_, _, h⟩ => h.returned hop
  | snapshotAtVersion version =>
    have hm : ∀ e (items : List (K × V)) d, Represents items d →
        meaning env.valueEq (.snapshotAtVersion version)
          (.versioned (if version = e then some items else none)) [.snapshot e d] [] :=
      fun e items d hd => .inr ⟨e, items, d, hd, rfl, rfl, rfl⟩
    have ha : AllowsSnapshot (Begins env (.snapshotAtVersion version)) [] := fun e items d hd =>
      .plain (hm e items d hd)
    have hold : meaning (K := K) env.valueEq (.snapshotAtVersion version) (.versioned none)
        [.outdated version] [] := .inl ⟨rfl, rfl, rfl⟩
    refine .of .versioned (ha 0 [] _ .nil).nil rfl fun v hv =>
      (hv.wp_snapshotAtVersion ha (.plain hold)).mono fun r v' h => ?_
    rcases h with ⟨rfl, h⟩ | ⟨e, items, d, rfl, h⟩
    · exact h.returned_plain hold
    · exact h.calm.returned_plain (hm e items d h.represents)
  | runEviction target policy =>
    have hm : meaning (K := K) env.valueEq (.runEviction target policy) .done [] [] :=
      ⟨rfl, rfl, rfl⟩
    exact .of (fun _ => .done) (.plain hm) (Program.bind_assoc _ _ _) fun v hv =>
      (hv.wp_runEviction (by simp [Owns]) (by simp) (.lenient rfl hm) target policy).mono
        fun _ _ h => h.returned hm rfl
  | startRebalanceOnline count =>
    exact .of_quiet rfl ⟨rfl, rfl, rfl⟩ fun v hv => hv.wp_startRebalanceOnline count
  | pauseRebalance => exact .of_quiet rfl ⟨rfl, rfl, rfl⟩ fun v hv => hv.wp_pauseRebalance
  | resumeRebalance => exact .of_quiet rfl ⟨rfl, rfl, rfl⟩ fun v hv => hv.wp_resumeRebalance
  | advanceRebalance fuel maxShards =>
    exact .of_quiet rfl ⟨rfl, rfl, rfl⟩ fun v hv =>
      hv.wp_advanceRebalance (hop rfl) hsync fuel maxShards
  | advanceRebalanceWithOptions fuel options =>
    exact .of_quiet rfl ⟨rfl, rfl, rfl⟩ fun v hv =>
      hv.wp_advanceRebalanceInner (hop rfl) hsync fuel _
  | rebalanceTo fuel count options =>
    exact .of_quiet rfl ⟨rfl, rfl, rfl⟩ fun v hv =>
      hv.wp_rebalanceTo (hop rfl) hsync fuel count options
  | spawnRebalance count =>
    exact .of_quiet rfl ⟨rfl, rfl, rfl⟩ fun v hv => hv.wp_spawnRebalance count
  | workerBatch fuel budget =>
    exact .of_quiet rfl ⟨rfl, rfl, rfl⟩ fun v hv =>
      hv.wp_advanceRebalanceInner (hop rfl) hsync fuel budget
  | releaseWorker generation =>
    exact .of_quiet rfl ⟨rfl, rfl, rfl⟩ fun v hv => hv.wp_releaseWorker generation
  | initializedShards =>
    exact .of_quiet rfl ⟨rfl, rfl, rfl⟩ fun v hv => hv.wp_initializedShards
  | shardLoads => exact .of_quiet rfl ⟨rfl, rfl, rfl⟩ fun v hv => hv.wp_shardLoads
  | memoryLoads => exact .of_quiet rfl ⟨rfl, rfl, rfl⟩ fun v hv => hv.wp_memoryLoads

theorem verified (hsync : env.awaits = false) :
    (protocol env L False).Verified (Sync.answer env) (Begins env) (Explains env) := by
  intro op
  have h : Sound env L False op := sound hsync op fun _ => id
  refine ⟨h.begins, fun v hv hspec => h.answers v ?_⟩
  have hspec : v.spec = Begins env op := hspec
  exact hspec ▸ Calm.initial hv

end Starshard

