import Starshard.Interleaving.History

/-! What whole runs do to the map: operations that only observe leave it as it is. -/
namespace Starshard

open Data Concurrent
open Locking (plainEnv plainLifecycle)

variable {K V : Type} [DecidableEq K] {env : Env K V} {L : Lifecycle K V}
  {op : Sync.Op K V} {r : Answer K V} {es : List (Event K V)} {e : Event K V}

theorem returned_events {h : List (Label (Sync.Op K V) (Answer K V))} {a₀ : Abstract K V}
    {c : Config (semantics env L) (Sync.Op K V) (Answer K V)} {g : Ghost K V}
    {lin : List (Nat × Event K V)}
    {s₀ : State K V L.State} (hr : Run (semantics env L) (Sync.answer env) s₀ h c)
    (hx : (protocol env L False).Explained (Begins env) (Explains env) a₀ h c g lin)
    (hq : c.Quiescent) (hcut : ∀ t, .cut t ∉ h) (t : Nat) :
    ((∀ op, .call t op ∉ h) ∧ eventsOf t lin = []) ∨
      ∃ op r, .call t op ∈ h ∧ .ret t r ∈ h ∧ Explains env op (eventsOf t lin) r := by
  have ht := hx.task t
  have hqt := hq t
  cases hT : c.task t with
  | ready =>
    rw [hT] at ht
    refine .inl ⟨fun op hcall => ?_, ht.2⟩
    have hop := (hx.called t op).mp hcall
    rw [hT] at hop
    cases hop
  | running op p => rw [hT] at hqt; exact hqt.elim
  | unwinding op p => rw [hT] at hqt; exact hqt.elim
  | finished op r =>
    rw [hT] at ht
    refine .inr ⟨op, r, (hx.called t op).mpr ?_, hr.finished hT, ht.2.1⟩
    rw [hT]
    rfl
  | aborted op => exact absurd (hx.ended t (by rw [hT]; trivial)) (hcut t)

section Observers

def Event.observes : Event K V → Prop
  | .read _ _ | .snapshot _ _ | .outdated _ | .count _ => True
  | _ => False

theorem Event.step_observes {a b : Abstract K V} (he : e.observes) (h : e.stepWrapping a b) :
    b.contents = a.contents ∧ b.version = a.version := by
  cases e with
  | read k found =>
    obtain ⟨c, ⟨_, rfl⟩, rfl⟩ := h
    exact ⟨rfl, rfl⟩
  | snapshot version contents =>
    obtain ⟨-, ⟨-, -, -, rfl⟩ | ⟨rfl, -⟩⟩ := h
    · exact ⟨rfl, rfl⟩
    · exact ⟨rfl, rfl⟩
  | outdated version =>
    obtain ⟨-, rfl⟩ := h
    exact ⟨rfl, rfl⟩
  | count m =>
    obtain rfl := h
    exact ⟨rfl, rfl⟩
  | _ => exact he.elim

theorem replay_observes {a b : Abstract K V} (he : ∀ e ∈ es, e.observes)
    (h : Replay Event.stepWrapping a es b) : b.contents = a.contents ∧ b.version = a.version := by
  induction h with
  | nil => exact ⟨rfl, rfl⟩
  | cons hstep _ ih =>
    obtain ⟨h₁, h₂⟩ := Event.step_observes (he _ (by simp)) hstep
    obtain ⟨h₃, h₄⟩ := ih fun e hmem => he e (List.mem_cons_of_mem _ hmem)
    exact ⟨h₃.trans h₁, h₄.trans h₂⟩

/-- Operations without maintenance mean reads and snapshots only. -/
theorem meaning_observes (hop : maintains op = false) {counts : List Metric}
    (hm : meaning env.valueEq op r es counts) :
    ∀ e ∈ es, e.observes ∧ e.isVisible ∧ ¬ e.changes := by
  have hread : ∀ (k : K) (found : Option V), (Event.read k found).observes ∧
      (Event.read k found).isVisible ∧ ¬ (Event.read k found).changes :=
    fun k found => ⟨trivial, rfl, id⟩
  have hsnap : ∀ {answer : Nat → List (K × V) → Answer K V},
      snapshotMeaning answer r es counts → ∀ e ∈ es, e.observes ∧ e.isVisible ∧ ¬ e.changes := by
    rintro answer ⟨version, items, contents, _, _, rfl, _⟩ e he
    obtain rfl := List.mem_singleton.mp he
    exact ⟨trivial, rfl, id⟩
  cases op with
  | get k | readWith k read | contains k =>
    obtain ⟨old, _, rfl, _⟩ := hm
    intro e he
    obtain rfl := List.mem_singleton.mp he
    exact hread k old
  | batchGet keys =>
    obtain ⟨done, vs, _, _, _, _, rfl, _⟩ := hm
    intro e he
    obtain ⟨x, _, rfl⟩ := List.mem_map.mp he
    exact hread x.1.2 x.2
  | snapshotView | captureSnapshot | iter | collect => exact hsnap hm
  | snapshotAtVersion version =>
    rcases hm with ⟨_, rfl, _⟩ | hm
    · intro e he
      obtain rfl := List.mem_singleton.mp he
      exact ⟨trivial, rfl, id⟩
    · exact hsnap hm
  | len =>
    obtain ⟨_, rfl, _⟩ := hm
    exact fun _ he => absurd he List.not_mem_nil
  | insert _ _ | remove _ | getOrInsertWith _ _ | computeIfPresent _ _ | compareAndSwap _ _ _
  | compareAndRemove _ _ | batchInsert _ | batchRemove _ | retain _ | clear | drain
  | executeTransaction _ | runEviction _ _ => cases hop
  | _ =>
    obtain ⟨_, rfl, _⟩ := hm
    exact fun _ he => absurd he List.not_mem_nil

/-- Everything such an operation commits only observes: it publishes nothing. -/
theorem Explains.observes (hop : maintains op = false) (h : Explains env op es r) :
    ∀ e ∈ es, e.observes := by
  obtain ⟨main, counts, ev, hm, hev, hvis, hcount, hpub⟩ := h
  rw [hev.2 hop, List.append_nil] at hvis
  have hmain := meaning_observes hop hm
  intro e he
  cases hv : e.isVisible with
  | true => exact (hmain e (hvis ▸ List.mem_filter.mpr ⟨he, hv⟩)).1
  | false =>
    cases e with
    | count m => trivial
    | publish =>
      obtain ⟨e', he', hc⟩ := hpub he
      exact absurd hc (hmain e' (hvis ▸ he')).2.2
    | _ => cases hv

end Observers

variable {h : List (Label (Sync.Op K V) (Answer K V))} {a₀ : Abstract K V}
  {s₀ : State K V L.State} {c : Config (semantics env L) (Sync.Op K V) (Answer K V)}

/-- Lookups, snapshots, reports and migrations of any kind, running together in any
interleaving, neither change an entry nor advance the version: what a client cached stays
current while entries move between generations. -/
theorem observers_keep_map (hsync : env.awaits = false) (hs : Rests env.hash s₀ a₀)
    (hr : Run (semantics env L) (Sync.answer env) s₀ h c) (hq : c.Quiescent)
    (hcut : ∀ t, .cut t ∉ h) (hop : ∀ t op, .call t op ∈ h → maintains op = false) :
    c.shared.contents env.hash = s₀.contents env.hash ∧ c.shared.published = s₀.published := by
  obtain ⟨g, lin, hx⟩ := explained hsync hs hr
  have hinv : Inv env.hash c.shared c.guards g := hx.inv
  rw [hx.guards_nil hq] at hinv
  have hrest := Rests.of_inv hinv
  have hobs : ∀ e ∈ lin.map Prod.snd, e.observes := by
    intro e he
    obtain ⟨⟨t, _⟩, hx', rfl⟩ := List.mem_map.mp he
    have hmem := mem_eventsOf.mpr hx'
    rcases returned_events hr hx hq hcut t with ⟨_, hnil⟩ | ⟨op, r, hcall, _, hr⟩
    · rw [hnil] at hmem
      cases hmem
    · exact hr.observes (hop t op hcall) _ hmem
  obtain ⟨hcontents, hversion⟩ := replay_observes hobs hx.legal
  exact ⟨hrest.contents.symm.trans (hcontents.trans hs.contents),
    hrest.version.symm.trans (hversion.trans hs.version)⟩

/-- Two lookups and a snapshot while a shard migrates. -/
def watch : List (Turn (Sync.Op Nat Nat)) :=
  [.call 0 (.get 1), .call 1 .captureSnapshot, .call 2 (.advanceRebalance 20 1),
    .call 3 (.batchGet [2, 1]), .go 0 5, .go 3 5, .go 1 6, .go 2 400, .go 0 100, .go 1 100,
    .go 3 100, .go 2 400]

theorem watch_ends : cachingMap.ends
    [.value (some 2), .snapshot 2 [(2, 5), (1, 2)], .done, .values [some 5, some 2]]
    (cachingMap.follow (Sync.answer cachingEnv) watch ([], .start _ _ _ halfway.2.shared)).2 := by
  decide +kernel

theorem observers_keep_map_watched : ∃ (s₀ : State Nat Nat plainLifecycle.State)
    (h : List (Label (Sync.Op Nat Nat) (Answer Nat Nat)))
    (c : Config (semantics cachingEnv plainLifecycle) (Sync.Op Nat Nat) (Answer Nat Nat)),
    s₀.previous.isSome ∧ s₀.contents cachingEnv.hash 1 = some 2 ∧
      .ret 0 (.value (some 2)) ∈ h ∧ .ret 2 .done ∈ h ∧ .ret 3 (.values [some 5, some 2]) ∈ h ∧
      Run (semantics cachingEnv plainLifecycle) (Sync.answer cachingEnv) s₀ h c ∧
      c.shared.contents cachingEnv.hash = s₀.contents cachingEnv.hash ∧
      c.shared.published = s₀.published := by
  obtain ⟨a₀, hs⟩ := halfway_rests
  obtain ⟨hprev, h₁, -⟩ := halfway_migrates
  obtain ⟨tr, hf, he, hcall, hcut⟩ := cachingMap.exists_follows watch _ watch_ends
  obtain ⟨hq, hanswer⟩ := hf.ended he
  have huncut : ∀ t, .cut t ∉ tr.1 := fun t hc => by simpa [watch] using hcut t hc
  have hop : ∀ t op, .call t op ∈ tr.1 → maintains op = false := fun t op hc => by
    have hmem := hcall t op hc
    simp only [watch, List.mem_cons, Turn.call.injEq, List.not_mem_nil, reduceCtorEq,
      or_false] at hmem
    rcases hmem with ⟨-, rfl⟩ | ⟨-, rfl⟩ | ⟨-, rfl⟩ | ⟨-, rfl⟩ <;> rfl
  exact ⟨_, tr.1, tr.2, hprev, h₁, hanswer 0 _ rfl, hanswer 2 _ rfl, hanswer 3 _ rfl, hf.run,
    observers_keep_map rfl hs hf.run hq huncut hop⟩

end Starshard
