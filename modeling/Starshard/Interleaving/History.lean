import Starshard.Concurrent.Totals
import Starshard.Interleaving.Alone

/-! What callers see of a map that many tasks use at once, and what the map looks like
whenever no call is in progress. -/
namespace Starshard

open Data Concurrent
open Locking (plainEnv plainLifecycle)

variable {K V E : Type} [DecidableEq K] {env : Env K V} {L : Lifecycle K V} {hash : K → Nat}

variable {h : List (Label (Sync.Op K V) (Answer K V))} {a₀ : Abstract K V}
  {s₀ : State K V L.State} {c : Config (semantics env L) (Sync.Op K V) (Answer K V)}

/-- While the version has not wrapped, the events explain the run on a map whose version
never does. -/
theorem linearized (hsync : env.awaits = false) (hs : Rests env.hash s₀ a₀)
    (hr : Run (semantics env L) (Sync.answer env) s₀ h c) (hw : c.shared.published < 2 ^ 64) :
    ∃ g lin, (protocol env L False).Explained (Begins env) (Explains env) a₀ h c g lin ∧
      Replay Event.step a₀ (lin.map Prod.snd) g.abs ∧
      ((∀ t, .cut t ∉ h) → Linearization Event.step (Explains env)
        (fun op es => Begins env op (visible es)) a₀ g.abs h lin) := by
  obtain ⟨g, lin, hx⟩ := explained hsync hs hr
  have hinv : Inv env.hash c.shared c.guards g := hx.inv
  have hversion : g.abs.version < 2 ^ 64 := hinv.version ▸ hw
  have hlegal : Replay Event.step a₀ (lin.map Prod.snd) g.abs :=
    Event.replay_unwrapped hx.legal hversion
  refine ⟨g, lin, hx, hlegal, fun hcut => ?_⟩
  have hlin := hx.linearization hcut
  exact ⟨hlegal, hlin.called, hlin.accepted, hlin.pending, hlin.realtime⟩

section Example

/-- On a map in migration two calls update a key, two race to initialize another, a third is
overwritten while it is looked up, two tasks take snapshots and one migrates a shard. -/
def rush : List (Turn (Sync.Op Nat Nat)) :=
  [.call 0 (.computeIfPresent 1 fun v => some (v + 1)),
    .call 1 (.computeIfPresent 1 fun v => some (v + 1)), .call 2 .captureSnapshot,
    .call 3 .captureSnapshot, .call 4 (.advanceRebalance 20 1),
    .call 5 (.getOrInsertWith 9 fun _ => 4), .call 6 (.getOrInsertWith 9 fun _ => 4),
    .call 7 (.get 2), .call 8 (.insert 2 8), .go 8 3, .go 5 4, .go 2 100, .go 3 100, .go 6 20,
    .go 0 6, .go 5 20, .go 1 20, .go 7 8, .go 8 40, .go 4 400, .go 0 100, .go 6 100, .go 1 100,
    .go 5 100, .go 8 100, .go 7 100, .go 8 100, .go 4 400]

/-- The calls of the rush and their answers. -/
structure Rushed (s₀ : State Nat Nat plainLifecycle.State)
    (h : List (Label (Sync.Op Nat Nat) (Answer Nat Nat)))
    (c : Config (semantics cachingEnv plainLifecycle) (Sync.Op Nat Nat) (Answer Nat Nat)) :
    Prop where
  run : Run (semantics cachingEnv plainLifecycle) (Sync.answer cachingEnv) s₀ h c
  quiescent : c.Quiescent
  published : c.shared.published < 2 ^ 64
  uncut : ∀ t, .cut t ∉ h
  called : ∀ t op, .call t op ∈ h ↔ .call t op ∈ rush
  updated : .ret 0 (.value (some 3)) ∈ h ∧ .ret 1 (.value (some 4)) ∈ h
  viewed : .ret 2 (.snapshot 2 [(2, 5), (1, 2)]) ∈ h ∧ .ret 3 (.snapshot 2 [(2, 5), (1, 2)]) ∈ h
  initialized : .ret 5 (.entry 4 false) ∈ h ∧ .ret 6 (.entry 4 true) ∈ h
  found : .ret 7 (.value (some 5)) ∈ h

theorem rush_inj {t : Nat} {op op' : Sync.Op Nat Nat} (h : .call t op ∈ rush)
    (h' : .call t op' ∈ rush) : op = op' := by
  simp only [rush, List.mem_cons, Turn.call.injEq, List.not_mem_nil, reduceCtorEq, or_false] at h
  rcases h with ⟨rfl, rfl⟩ | ⟨rfl, rfl⟩ | ⟨rfl, rfl⟩ | ⟨rfl, rfl⟩ | ⟨rfl, rfl⟩ | ⟨rfl, rfl⟩ |
    ⟨rfl, rfl⟩ | ⟨rfl, rfl⟩ | ⟨rfl, rfl⟩ <;> simpa [rush, eq_comm] using h'

def rushAnswers : List (Answer Nat Nat) :=
  [.value (some 3), .value (some 4), .snapshot 2 [(2, 5), (1, 2)], .snapshot 2 [(2, 5), (1, 2)],
    .done, .entry 4 false, .entry 4 true, .value (some 5), .value (some 5)]

def rushEnds (c : Config (semantics cachingEnv plainLifecycle) (Sync.Op Nat Nat)
    (Answer Nat Nat)) : Bool :=
  cachingMap.ends rushAnswers c && decide (c.shared.published < 2 ^ 64)

theorem rush_answered {t : Nat} {op : Sync.Op Nat Nat} (h : .call t op ∈ rush) :
    ∃ r, rushAnswers[t]? = some r := by
  simp only [rush, List.mem_cons, Turn.call.injEq, List.not_mem_nil, reduceCtorEq, or_false] at h
  rcases h with ⟨rfl, -⟩ | ⟨rfl, -⟩ | ⟨rfl, -⟩ | ⟨rfl, -⟩ | ⟨rfl, -⟩ | ⟨rfl, -⟩ | ⟨rfl, -⟩ |
    ⟨rfl, -⟩ | ⟨rfl, -⟩ <;> exact ⟨_, rfl⟩

theorem rush_ends : rushEnds
    (cachingMap.follow (Sync.answer cachingEnv) rush ([], .start _ _ _ halfway.2.shared)).2 := by
  decide +kernel

theorem rushed_halfway : ∃ (h : List (Label (Sync.Op Nat Nat) (Answer Nat Nat)))
    (c : Config (semantics cachingEnv plainLifecycle) (Sync.Op Nat Nat) (Answer Nat Nat)),
    Rushed halfway.2.shared h c := by
  obtain ⟨a₀, hs⟩ := halfway_rests
  obtain ⟨tr, hf, he, hcall, hcut⟩ := cachingMap.exists_follows rush rushEnds rush_ends
  rw [rushEnds, Bool.and_eq_true, decide_eq_true_eq] at he
  obtain ⟨hq, hanswer⟩ := hf.ended he.1
  refine ⟨tr.1, tr.2, hf.run, hq, he.2, fun t hc => ?_,
    fun t op => ⟨hcall t op, fun hmem => ?_⟩, ⟨hanswer 0 _ rfl, hanswer 1 _ rfl⟩,
    ⟨hanswer 2 _ rfl, hanswer 3 _ rfl⟩, ⟨hanswer 5 _ rfl, hanswer 6 _ rfl⟩, hanswer 7 _ rfl⟩
  · simpa [rush] using hcut t hc
  · obtain ⟨g, lin, hx⟩ := explained rfl hs hf.run
    obtain ⟨r, hr⟩ := rush_answered hmem
    obtain ⟨op', ht⟩ := hx.returned t r (hanswer t r hr)
    have hop : .call t op' ∈ tr.1 := (hx.called t op').mpr (by rw [ht]; rfl)
    rwa [rush_inj hmem (hcall t op' hop)]

/-- The rush starts on a map that stores one entry in each generation. -/
theorem rushed : ∃ (s₀ : State Nat Nat plainLifecycle.State) (a₀ : Abstract Nat Nat)
    (h : List (Label (Sync.Op Nat Nat) (Answer Nat Nat)))
    (c : Config (semantics cachingEnv plainLifecycle) (Sync.Op Nat Nat) (Answer Nat Nat)),
    Rests cachingEnv.hash s₀ a₀ ∧ s₀.previous.isSome ∧ s₀.contents cachingEnv.hash 1 = some 2 ∧
      s₀.contents cachingEnv.hash 2 = some 5 ∧ Rushed s₀ h c := by
  obtain ⟨a₀, hs⟩ := halfway_rests
  obtain ⟨hprev, h₁, h₂⟩ := halfway_migrates
  obtain ⟨h, c, hc⟩ := rushed_halfway
  exact ⟨_, a₀, h, c, hs, hprev, h₁, h₂, hc⟩

end Example

/-- All operations together are linearizable: whatever the interleaving, the answers are
those of one order of atomic steps on one finite map, which keeps real time. Whenever no
call is in progress, the map holds what this order leaves. -/
theorem runs_linearizable (hsync : env.awaits = false) (hs : Rests env.hash s₀ a₀)
    (hr : Run (semantics env L) (Sync.answer env) s₀ h c) (hcut : ∀ t, .cut t ∉ h)
    (hw : c.shared.published < 2 ^ 64) :
    ∃ final lin, Linearization Event.step (Explains env) (fun op es => Begins env op (visible es))
      a₀ final h lin ∧ (c.Quiescent → Rests env.hash c.shared final) := by
  obtain ⟨g, lin, hx, -, hlin⟩ := linearized hsync hs hr hw
  refine ⟨g.abs, lin, hlin hcut, fun hq => ?_⟩
  have hinv : Inv env.hash c.shared c.guards g := hx.inv
  rw [hx.guards_nil hq] at hinv
  exact .of_inv hinv

theorem runs_linearizable_rushed : ∃ (s₀ : State Nat Nat plainLifecycle.State)
    (a₀ final : Abstract Nat Nat) (h : List (Label (Sync.Op Nat Nat) (Answer Nat Nat)))
    (c : Config (semantics cachingEnv plainLifecycle) (Sync.Op Nat Nat) (Answer Nat Nat))
    (lin : List (Nat × Event Nat Nat)), Rests cachingEnv.hash s₀ a₀ ∧ s₀.previous.isSome ∧
      Rushed s₀ h c ∧ Linearization Event.step (Explains cachingEnv)
        (fun op es => Begins cachingEnv op (visible es)) a₀ final h lin ∧
      Rests cachingEnv.hash c.shared final := by
  obtain ⟨s₀, a₀, h, c, hs, hprev, -, -, hc⟩ := rushed
  obtain ⟨final, lin, hlin, hrest⟩ := runs_linearizable rfl hs hc.run hc.uncut hc.published
  exact ⟨s₀, a₀, final, h, c, lin, hs, hprev, hc, hlin, hrest hc.quiescent⟩

/-- Between operations every key is stored once and where the directories send it, the
tracker, the counters and the directories describe one layout, and the length counter is
the number of keys. -/
theorem layout_sound (hsync : env.awaits = false) (hs : Rests env.hash s₀ a₀)
    {s : State K V L.State} (hr : Reachable (semantics env L) (Sync.answer env) s₀ s) :
    s.WellFormed env.hash ∧ Represents s.entries (s.contents env.hash) ∧
      s.totalLen = s.entries.length := by
  obtain ⟨a, ha⟩ := rests_of_reachable hsync hs hr
  exact ⟨ha.wellFormed, ha.represents, ha.length⟩

theorem layout_sound_rushed : ∃ (s₀ s : State Nat Nat plainLifecycle.State)
    (h : List (Label (Sync.Op Nat Nat) (Answer Nat Nat)))
    (c : Config (semantics cachingEnv plainLifecycle) (Sync.Op Nat Nat) (Answer Nat Nat)),
    s₀.previous.isSome ∧ Rushed s₀ h c ∧ c.shared = s ∧ s.WellFormed cachingEnv.hash ∧
      Represents s.entries (s.contents cachingEnv.hash) ∧ s.totalLen = s.entries.length := by
  obtain ⟨s₀, a₀, h, c, hs, hprev, -, -, hc⟩ := rushed
  exact ⟨s₀, c.shared, h, c, hprev, hc, rfl,
    layout_sound rfl hs ⟨h, c, hc.run, hc.quiescent, rfl⟩⟩

/-- Whatever operations ran on a new map, in any interleaving, and wherever a panic of user
code cut them: directories, counters and tracker agree, and every key is stored at its own
place, once. -/
theorem representation_invariant (hsync : env.awaits = false) {count : Nat} (hcount : 0 < count)
    {life : L.State} {s : State K V L.State}
    (hr : Reachable (semantics env L) (Sync.answer env) (State.new K V count life) s) :
    s.shards.length = s.shardCount ∧
      (∀ i id : Nat, s.shards[i]? = some (some id) →
        ∀ e ∈ (s.heap id).items, env.hash e.1 % s.shardCount = i) ∧
      (∀ slots, s.previous = some slots → slots.length = s.previousShardCount ∧
        ∀ i id : Nat, slots[i]? = some (some id) →
          ∀ e ∈ (s.heap id).items, env.hash e.1 % s.previousShardCount = i) ∧
      (s.entries.map Prod.fst).Nodup ∧ s.totalLen = s.entries.length ∧
      (s.previous.isSome ↔ s.previousShardCount ≠ 0) ∧
      (s.previous.isSome ↔ s.tracker.migrating) ∧
      ∀ slots, s.previous = some slots →
        s.tracker.telemetry.totalShards = s.previousShardCount ∧
        s.tracker.telemetry.toShards = s.shardCount ∧
        s.tracker.telemetry.completedShards < s.previousShardCount ∧
        ∀ i < s.tracker.telemetry.completedShards, slots[i]? = some none := by
  obtain ⟨a, ha⟩ := rests_of_reachable hsync (Rests.new hcount life) hr
  have hw := ha.wellFormed
  refine ⟨hw.length, fun i id hi e he => ?_, fun slots hs => ⟨hw.previous_length slots hs, ?_⟩,
    ha.represents.nodup, ha.length, ?_, ?_, fun slots hs => ?_⟩
  · exact hw.home_active i id hi e.1 e.2 (Assoc.mem_items.mp he)
  · intro i id hi e he
    exact hw.home_previous i id (slotAt_eq_some.mpr ⟨slots, hs, hi⟩) e.1 e.2 (Assoc.mem_items.mp he)
  · rw [Option.isSome_iff_ne_none, ne_eq, ne_eq, hw.previous_none]
  · rw [← hw.migrating]
    rfl
  · obtain ⟨htotal, hlt, hto⟩ := hw.progress (by simp [hs])
    have hlt : s.tracker.telemetry.completedShards < s.previousShardCount := htotal ▸ hlt
    refine ⟨htotal, hto, hlt, fun i hi => ?_⟩
    have hnone : slotAt s.previous i = none := hw.drained i hi
    have hlen : i < slots.length := hw.previous_length slots hs ▸ Nat.lt_trans hi hlt
    rw [hs, slotAt, Option.bind_some, List.getElem?_eq_getElem hlen, Option.join_some] at hnone
    rw [List.getElem?_eq_getElem hlen, hnone]

section Example

/-- A batch, an initialisation and a migration step are cut in the user code they call, the first
two after they have stored an entry. -/
def torn : List (Turn (Sync.Op Nat Nat)) :=
  [.call 0 (.insert 1 2), .go 0 100, .call 1 (.insert 2 5), .go 1 100,
    .call 2 (.startRebalanceOnline 3), .go 2 100, .call 3 (.batchInsert [(1, 7), (3, 8), (2, 6)]),
    .go 3 34, .cut 3, .go 3 100, .call 4 (.getOrInsertWith 4 fun _ => 4), .go 4 32, .cut 4,
    .go 4 100, .call 5 (.advanceRebalance 20 1), .go 5 25, .cut 5, .go 5 100,
    .call 6 (.advanceRebalance 20 1), .go 6 300]

def isAborted (c : Config (semantics cachingEnv plainLifecycle) (Sync.Op Nat Nat)
    (Answer Nat Nat)) (t : Nat) : Bool :=
  match c.task t with
  | .aborted _ => true
  | _ => false

def tornEnds (c : Config (semantics cachingEnv plainLifecycle) (Sync.Op Nat Nat)
    (Answer Nat Nat)) : Bool :=
  cachingMap.idle c && [3, 4, 5].all (isAborted c) && c.shared.previous.isSome &&
    decide (c.shared.entries = [(4, 4), (1, 7), (2, 5)])

theorem torn_ends : tornEnds
    (cachingMap.follow (Sync.answer cachingEnv) torn ([], .start _ _ _ (State.new Nat Nat 2 ()))).2
    := by
  decide +kernel

end Example

theorem representation_invariant_torn : ∃ (s : State Nat Nat plainLifecycle.State)
    (h : List (Label (Sync.Op Nat Nat) (Answer Nat Nat)))
    (c : Config (semantics cachingEnv plainLifecycle) (Sync.Op Nat Nat) (Answer Nat Nat)),
    Run (semantics cachingEnv plainLifecycle) (Sync.answer cachingEnv) (State.new Nat Nat 2 ()) h c ∧
      (∀ t ∈ [3, 4, 5], .cut t ∈ h) ∧ c.Quiescent ∧ c.shared = s ∧ s.previous.isSome ∧
      s.entries = [(4, 4), (1, 7), (2, 5)] ∧ s.shards.length = s.shardCount ∧
      s.totalLen = s.entries.length := by
  obtain ⟨tr, hf, he, -⟩ := cachingMap.exists_follows torn _ torn_ends
  simp only [tornEnds, Bool.and_eq_true, decide_eq_true_eq] at he
  obtain ⟨⟨⟨hidle, haborted⟩, hprev⟩, hentries⟩ := he
  have hq := hf.quiescent hidle
  obtain ⟨hlength, -, -, -, hlen, -⟩ :=
    representation_invariant rfl Nat.two_pos ⟨_, _, hf.run, hq, rfl⟩
  refine ⟨tr.2.shared, tr.1, tr.2, hf.run, fun t ht => ?_, hq, rfl, hprev, hentries, hlength, hlen⟩
  obtain ⟨g, lin, hx⟩ := explained rfl (Rests.new Nat.two_pos ()) hf.run
  refine hx.ended t ?_
  have hab := List.all_eq_true.mp haborted t ht
  unfold isAborted at hab
  split at hab
  · next heq =>
    rw [heq]
    trivial
  · cases hab

/-- The version and the entries an answer shows. -/
def labelled : Sync.Op K V → Answer K V → Option (Nat × List (K × V))
  | .snapshotView, .snapshot version items => some (version, items)
  | .captureSnapshot, .snapshot version items => some (version, items)
  | .snapshotAtVersion version, .versioned (some items) => some (version, items)
  | _, _ => none

/-- An answer that shows entries under a version committed a snapshot of them. -/
theorem Explains.labelled {op : Sync.Op K V} {r : Answer K V} {es : List (Event K V)} {e : Nat}
    {items : List (K × V)} (h : Explains env op es r) (hl : labelled op r = some (e, items)) :
    ∃ d, Represents items d ∧ Event.snapshot e d ∈ es := by
  obtain ⟨main, counts, ev, hm, -, hvis, -⟩ := h
  suffices ∃ d, Represents items d ∧ Event.snapshot e d ∈ main by
    obtain ⟨d, hd, hmem⟩ := this
    have hmem' : Event.snapshot e d ∈ visible es := hvis ▸ List.mem_append_left _ hmem
    exact ⟨d, hd, (List.mem_filter.mp hmem').1⟩
  unfold Starshard.labelled at hl
  split at hl
  · cases hl
    obtain ⟨_, _, d, hd, heq, rfl, -⟩ := hm
    cases heq
    exact ⟨d, hd, by simp⟩
  · cases hl
    obtain ⟨_, _, d, hd, heq, rfl, -⟩ := hm
    cases heq
    exact ⟨d, hd, by simp⟩
  · cases hl
    rcases hm with ⟨heq, -⟩ | ⟨current, items', d, hd, heq, rfl, -⟩
    · cases heq
    · have heq := Answer.versioned.inj heq
      split at heq
      · next hcur =>
        cases heq
        exact ⟨d, hd, by simp [hcur]⟩
      · cases heq
  · cases hl

/-- A version that was handed out keeps its contents. -/
theorem Event.step_labels {e : Event K V} {a b : Abstract K V} (h : e.step a b) {n : Nat}
    {d : Contents K V} (hn : a.labels n = some d) : b.labels n = some d := by
  cases e with
  | snapshot version contents =>
    obtain ⟨_, _, hold, rfl⟩ := h
    show Function.update a.labels version (some contents) n = some d
    by_cases hv : n = version
    · subst hv
      rw [Function.update_self]
      rcases hold with hold | hold
      · rw [hold] at hn
        cases hn
      · exact hold.symm.trans hn
    · rwa [Function.update_of_ne hv]
  | publish => exact h ▸ hn
  | count m => exact h ▸ hn
  | _ =>
    obtain ⟨c, _, rfl⟩ := h
    exact hn

/-- Every snapshot of a replayed history is on record at its end. -/
theorem replay_labels {a b : Abstract K V} {es : List (Event K V)}
    (h : Replay Event.step a es b) :
    (∀ n d, a.labels n = some d → b.labels n = some d) ∧
      ∀ n d, Event.snapshot n d ∈ es → b.labels n = some d := by
  induction h with
  | nil => exact ⟨fun _ _ h => h, nofun⟩
  | @cons a b c e es he _ ih =>
    refine ⟨fun n d hn => ih.1 n d (Event.step_labels he hn), fun n d hmem => ?_⟩
    rcases List.mem_cons.mp hmem with rfl | hmem
    · obtain ⟨_, _, _, rfl⟩ := he
      exact ih.1 n d (Function.update_self ..)
    · exact ih.2 n d hmem

omit [DecidableEq K] in
theorem mem_of_eventsOf {t : Nat} {lin : List (Nat × Event K V)} {e : Event K V}
    (h : e ∈ eventsOf t lin) : e ∈ lin.map Prod.snd :=
  List.mem_map_of_mem (mem_eventsOf.mp h)

/-- Two answers under one version show the same entries. -/
theorem labelled_perm {a b : Abstract K V} {lin : List (Nat × Event K V)}
    (hlegal : Replay Event.step a (lin.map Prod.snd) b) {t u : Nat} {op op' : Sync.Op K V}
    {r r' : Answer K V} {version : Nat} {items items' : List (K × V)}
    (ht : Explains env op (eventsOf t lin) r) (hl : labelled op r = some (version, items))
    (hu : Explains env op' (eventsOf u lin) r') (hl' : labelled op' r' = some (version, items')) :
    items.Perm items' := by
  obtain ⟨d, hd, hmem⟩ := ht.labelled hl
  obtain ⟨d', hd', hmem'⟩ := hu.labelled hl'
  have hfinal := (replay_labels hlegal).2
  have heq := (hfinal _ _ (mem_of_eventsOf hmem)).symm.trans (hfinal _ _ (mem_of_eventsOf hmem'))
  cases heq
  exact hd.perm hd'

/-- Where a snapshot stands in a replayed history, the map has its version and contents. -/
theorem replay_snapshot {a b : Abstract K V} {lin : List (Nat × Event K V)}
    (hlegal : Replay Event.step a (lin.map Prod.snd) b) {t version : Nat} {d : Contents K V}
    (hmem : Event.snapshot version d ∈ eventsOf t lin) :
    ∃ l₁ l₂ x, lin = l₁ ++ (t, .snapshot version d) :: l₂ ∧
      Replay Event.step a (l₁.map Prod.snd) x ∧ x.version = version ∧ x.contents = d := by
  obtain ⟨l₁, l₂, heq⟩ := List.append_of_mem (mem_eventsOf.mp hmem)
  rw [heq, List.map_append] at hlegal
  obtain ⟨x, h₁, h₂⟩ := hlegal.of_append
  cases h₂ with
  | cons hstep _ =>
    obtain ⟨rfl, rfl, _⟩ := hstep
    exact ⟨l₁, l₂, x, heq, h₁, rfl, rfl⟩

/-- Two answers that show the map under one version show the same entries: of calls that
overlap or not, captured or served from the cache, before, while and after entries migrate. -/
theorem versions_identify_contents (hsync : env.awaits = false) (hs : Rests env.hash s₀ a₀)
    (hr : Run (semantics env L) (Sync.answer env) s₀ h c) (hw : c.shared.published < 2 ^ 64)
    {t u : Nat} {op op' : Sync.Op K V} {r r' : Answer K V} {version : Nat}
    {items items' : List (K × V)} (hcall : .call t op ∈ h) (hret : .ret t r ∈ h)
    (hl : labelled op r = some (version, items)) (hcall' : .call u op' ∈ h)
    (hret' : .ret u r' ∈ h) (hl' : labelled op' r' = some (version, items')) :
    items.Perm items' := by
  obtain ⟨g, lin, hx, hlegal, -⟩ := linearized hsync hs hr hw
  exact labelled_perm hlegal (hx.accepted hcall hret) hl (hx.accepted hcall' hret') hl'

theorem versions_identify_contents_rushed : ∃ (s₀ : State Nat Nat plainLifecycle.State)
    (h : List (Label (Sync.Op Nat Nat) (Answer Nat Nat)))
    (c : Config (semantics cachingEnv plainLifecycle) (Sync.Op Nat Nat) (Answer Nat Nat))
    (version : Nat) (items items' : List (Nat × Nat)), s₀.previous.isSome ∧ Rushed s₀ h c ∧
      .ret 2 (.snapshot version items) ∈ h ∧ .ret 3 (.snapshot version items') ∈ h ∧
      items.Perm items' := by
  obtain ⟨s₀, a₀, h, c, hs, hprev, -, -, hc⟩ := rushed
  have hcall : .call 2 .captureSnapshot ∈ h := (hc.called _ _).mpr (by simp [rush])
  have hcall' : .call 3 .captureSnapshot ∈ h := (hc.called _ _).mpr (by simp [rush])
  obtain ⟨hret, hret'⟩ := hc.viewed
  exact ⟨s₀, h, c, _, _, _, hprev, hc, hret, hret',
    versions_identify_contents rfl hs hc.run hc.published hcall hret rfl hcall' hret' rfl⟩

/-- Every answer that shows entries under a version shows the map as it was at one instant,
which lies in real time between the call and its return: all of a transaction or nothing of
it, and every key once, whichever generation stored it. -/
theorem snapshots_show_one_instant (hsync : env.awaits = false) (hs : Rests env.hash s₀ a₀)
    (hr : Run (semantics env L) (Sync.answer env) s₀ h c) (hcut : ∀ t, .cut t ∉ h)
    (hw : c.shared.published < 2 ^ 64) :
    ∃ final lin, Linearization Event.step (Explains env) (fun op es => Begins env op (visible es))
      a₀ final h lin ∧ ∀ t op r version items, .call t op ∈ h → .ret t r ∈ h →
        labelled op r = some (version, items) →
          ∃ l₁ d l₂ a, lin = l₁ ++ (t, .snapshot version d) :: l₂ ∧
            Replay Event.step a₀ (l₁.map Prod.snd) a ∧ a.version = version ∧
          Represents items a.contents := by
  obtain ⟨g, lin, hx, hlegal, hlin⟩ := linearized hsync hs hr hw
  refine ⟨g.abs, lin, hlin hcut, fun t op r version items hcall hret hl => ?_⟩
  obtain ⟨d, hd, hmem⟩ := (hx.accepted hcall hret).labelled hl
  obtain ⟨l₁, l₂, a, heq, h₁, hversion, rfl⟩ := replay_snapshot hlegal hmem
  exact ⟨l₁, _, l₂, a, heq, h₁, hversion, hd⟩

theorem snapshots_show_one_instant_rushed : ∃ (s₀ : State Nat Nat plainLifecycle.State)
    (a₀ a : Abstract Nat Nat) (h : List (Label (Sync.Op Nat Nat) (Answer Nat Nat)))
    (c : Config (semantics cachingEnv plainLifecycle) (Sync.Op Nat Nat) (Answer Nat Nat))
    (lin : List (Nat × Event Nat Nat)), s₀.previous.isSome ∧ Rushed s₀ h c ∧ a.version = 2 ∧
      Represents [(2, 5), (1, 2)] a.contents ∧ ∃ l₁ d l₂,
        lin = l₁ ++ (2, .snapshot 2 d) :: l₂ ∧ Replay Event.step a₀ (l₁.map Prod.snd) a := by
  obtain ⟨s₀, a₀, h, c, hs, hprev, -, -, hc⟩ := rushed
  have hcall : .call 2 .captureSnapshot ∈ h := (hc.called _ _).mpr (by simp [rush])
  obtain ⟨final, lin, -, hshow⟩ := snapshots_show_one_instant rfl hs hc.run hc.uncut hc.published
  obtain ⟨l₁, d, l₂, a, heq, hreplay, hversion, hrep⟩ := hshow 2 _ _ 2 _ hcall hc.viewed.1 rfl
  exact ⟨s₀, a₀, a, h, c, lin, hprev, hc, hversion, hrep, l₁, d, l₂, heq, hreplay⟩

/-- The next action of task `t`, whose call may be ending early. -/
def Performs (c : Config (semantics env L) (Sync.Op K V) (Answer K V)) (t : Nat) (a : Act K V) :
    Prop :=
  (∃ op k, c.task t = .running op (.step a k)) ∨ ∃ op k, c.task t = .unwinding op (.step a k)

/-- What a task of an explained run does next is possible, unless it may have to wait. -/
theorem performs_enabled {g : Ghost K V} {lin : List (Nat × Event K V)}
    (hx : (protocol env L False).Explained (Begins env) (Explains env) a₀ h c g lin) {t : Nat}
    {a : Act K V} (ht : Performs c t a) :
    (∃ l m, a = .lock l m) ∨ a = .diverge ∨ ∃ r s' gs, exec L c.guards t a c.shared r s' gs := by
  have hen : (semantics env L).blocks a ∨ ∃ r s' gs, exec L c.guards t a c.shared r s' gs := by
    rcases ht with ⟨op, k, ht⟩ | ⟨op, k, ht⟩
    · exact hx.enabled id ht
    · exact hx.enabled_unwinding id ht
  rcases hen with hb | hen
  · cases a with
    | lock l m => exact .inl ⟨l, m, rfl⟩
    | diverge => exact .inr (.inl rfl)
    | _ => exact hb.elim
  · exact .inr (.inr hen)

/-- No call ever meets a failed `expect`, an index out of bounds or an underflow of the
length: what a task does next is possible, unless it asks for a lock or has used up the
fuel of a loop. The same holds of a call that a panic has cut. -/
theorem never_stuck (hsync : env.awaits = false) (hs : Rests env.hash s₀ a₀)
    (hr : Run (semantics env L) (Sync.answer env) s₀ h c) {t : Nat} {a : Act K V}
    (ht : Performs c t a) :
    (∃ l m, a = .lock l m) ∨ a = .diverge ∨ ∃ r s' gs, exec L c.guards t a c.shared r s' gs := by
  obtain ⟨g, lin, hx⟩ := explained hsync hs hr
  exact performs_enabled hx ht

section Example

/-- A removal panics after it has taken the entry out, while a lookup waits for the shard. -/
def shortened : List (Turn (Sync.Op Nat Nat)) :=
  [.call 0 (.remove 1), .go 0 38, .call 1 (.get 1), .go 1 30, .cut 0, .go 0 4]

def lowersLen (c : Config (semantics cachingEnv plainLifecycle) (Sync.Op Nat Nat)
    (Answer Nat Nat)) : Bool :=
  match c.task 0 with
  | .unwinding _ (.step (.subLen n) _) => n = 1
  | _ => false

theorem shortened_lowersLen : lowersLen (cachingMap.follow (Sync.answer cachingEnv) shortened
    ([], .start _ _ _ halfway.2.shared)).2 := by
  decide +kernel

end Example

theorem never_stuck_shortened : ∃ (s₀ : State Nat Nat plainLifecycle.State)
    (h : List (Label (Sync.Op Nat Nat) (Answer Nat Nat)))
    (c : Config (semantics cachingEnv plainLifecycle) (Sync.Op Nat Nat) (Answer Nat Nat)),
    s₀.previous.isSome ∧
      Run (semantics cachingEnv plainLifecycle) (Sync.answer cachingEnv) s₀ h c ∧
      (∃ op k, c.task 0 = .unwinding op (.step (.subLen 1) k)) ∧
      ∃ s' gs, exec plainLifecycle c.guards 0 (.subLen 1) c.shared () s' gs := by
  obtain ⟨a₀, hs⟩ := halfway_rests
  obtain ⟨tr, hf, he, -⟩ := cachingMap.exists_follows shortened lowersLen shortened_lowersLen
  have ht : ∃ op k, tr.2.task 0 = .unwinding op (.step (.subLen 1) k) := by
    unfold lowersLen at he
    split at he
    · next op n k ht =>
      obtain rfl := of_decide_eq_true he
      exact ⟨op, k, ht⟩
    · cases he
  rcases never_stuck rfl hs hf.run (.inr ht) with ⟨l, m, heq⟩ | heq | ⟨r, s', gs, hex⟩
  · cases heq
  · cases heq
  · exact ⟨_, tr.1, tr.2, halfway_migrates.1, hf.run, ht, s', gs, hex⟩

end Starshard
