import Mathlib.Data.Finset.Card
import Starshard.Interleaving.Effects

/-! Snapshots beside writers and migrations: what they show, what their version says of them,
and which calls advance the version. -/
namespace Starshard

open Data Concurrent
open Function (update)
open Locking (plainEnv plainLifecycle)

variable {K V : Type} [DecidableEq K] {env : Env K V} {L : Lifecycle K V}

/-- The entries an answer shows. -/
def shown : Sync.Op K V → Answer K V → Option (List (K × V))
  | .snapshotView, .snapshot _ items | .captureSnapshot, .snapshot _ items => some items
  | .iter, .items items | .collect, .items items => some items
  | .snapshotAtVersion _, .versioned items => items
  | _, _ => none

/-- An answer that shows entries committed a snapshot of them. -/
theorem Explains.shown {op : Sync.Op K V} {r : Answer K V} {es : List (Event K V)}
    {items : List (K × V)} (h : Explains env op es r) (hl : shown op r = some items) :
    ∃ version d, Represents items d ∧ Event.snapshot version d ∈ es := by
  obtain ⟨main, counts, ev, hm, -, hvis, -⟩ := h
  suffices ∃ version d, Represents items d ∧ Event.snapshot version d ∈ main by
    obtain ⟨version, d, hd, hmem⟩ := this
    have hmem' : Event.snapshot version d ∈ visible es := hvis ▸ List.mem_append_left _ hmem
    exact ⟨version, d, hd, (List.mem_filter.mp hmem').1⟩
  have hsnap : ∀ {answer : Nat → List (K × V) → Answer K V}, snapshotMeaning answer r main counts →
      (∀ version items', r = answer version items' → items' = items) →
      ∃ version d, Represents items d ∧ Event.snapshot version d ∈ main := by
    rintro answer ⟨version, items', d, hd, heq, rfl, -⟩ hinj
    obtain rfl := hinj version items' heq
    exact ⟨version, d, hd, List.mem_singleton_self _⟩
  unfold Starshard.shown at hl
  split at hl
  · cases hl
    exact hsnap hm fun _ _ heq => by
      cases heq
      rfl
  · cases hl
    exact hsnap hm fun _ _ heq => by
      cases heq
      rfl
  · cases hl
    exact hsnap hm fun _ _ heq => by
      cases heq
      rfl
  · cases hl
    exact hsnap hm fun _ _ heq => by
      cases heq
      rfl
  · subst hl
    rcases hm with ⟨heq, -⟩ | ⟨current, items', d, hd, heq, rfl, -⟩
    · cases heq
    · have heq := Answer.versioned.inj heq
      split at heq
      · cases heq
        exact ⟨current, d, hd, by simp⟩
      · cases heq
  · cases hl

theorem exec_anonymous {gs gs' : List (Guard K V)} {t : Nat} {a : Act K V} {s s' : State K V L.State}
    {r : Resp a} (h : exec L (solo gs) 0 a s r s' gs') :
    exec L (update (fun _ => []) t gs) t a s r s' gs' := by
  have hown : update (fun _ => []) t gs t = solo gs 0 := by rw [Function.update_self, solo_self]
  cases a with
  | lock l m =>
    obtain ⟨hfree, rfl, rfl⟩ := h
    refine ⟨fun u g hg => ?_, rfl, by rw [hown]⟩
    by_cases hu : u = t
    · subst hu
      exact hfree 0 g (hown ▸ hg)
    · rw [Function.update_of_ne hu] at hg
      cases hg
  | crash => exact h
  | diverge => exact h
  | _ =>
    dsimp only [exec] at h ⊢
    rwa [hown]

theorem anonymous : (semantics env L).Anonymous := exec_anonymous

section Alone

variable {s : State K V L.State} {a : Abstract K V}

/-- Alone, a view shows the map under a version below the bound of the counter. -/
theorem view_returns (hsync : env.awaits = false) (hs : Rests env.hash s a) :
    ∃ version items s', Exec (semantics env L) (Sync.answer env .snapshotView) s []
      (.snapshot version items) s' [] ∧ version < 2 ^ 64 ∧ Represents items a.contents ∧
      ∃ b, Rests env.hash s' b ∧ b.contents = a.contents := by
  obtain ⟨r, s', gs, he⟩ := returns_alone .snapshotView hsync hs rfl
  obtain ⟨view, s₁, gs₁, hview, hdone⟩ := Exec.of_bind he
  obtain ⟨rfl, rfl, rfl⟩ := hdone.done_inv
  obtain ⟨rfl, es, b, ⟨main, counts, ev, hm, -, hvis, -⟩, hreplay, hb⟩ := explained_alone hsync hs he
  obtain ⟨hrep, hkeep⟩ := views_alone hsync hs hview
  refine ⟨_, _, _, he, ?_, hrep, b, hb, ?_⟩
  · obtain ⟨version, items, d, -, heq, rfl, -⟩ := hm
    have hmem : Event.snapshot version d ∈ visible es := by simp [hvis]
    obtain ⟨l₁, l₂, rfl⟩ := List.append_of_mem (List.mem_filter.mp hmem).1
    obtain ⟨x, -, hx⟩ := hreplay.of_append
    cases hx with
    | cons hstep _ =>
      have hversion : version = wrapping x.version := hstep.1
      obtain ⟨hv, -⟩ := Answer.snapshot.inj heq
      rw [hv, hversion]
      exact Nat.mod_lt _ (by decide)
  · rw [hb.contents, hkeep, hs.contents]

theorem insert_returns (hsync : env.awaits = false) (hev : env.eviction = none)
    (hs : Rests env.hash s a) (k : K) (v : V) :
    ∃ r s', Exec (semantics env L) (Sync.answer env (.insert k v)) s [] r s' [] ∧
      ∃ b, Rests env.hash s' b ∧ b.contents = update a.contents k (some v) := by
  obtain ⟨r, s', gs, he⟩ := returns_alone (.insert k v) hsync hs rfl
  obtain ⟨rfl, b, hb⟩ := inserts_alone hsync hev hs he
  exact ⟨r, s', he, b, hb⟩

end Alone

section Repeat

/-- A run on a new map that inserted `n` values of one key one after the other, with a view
after each. -/
structure Rounds (h : List (Label (Sync.Op Nat Nat) (Answer Nat Nat)))
    (c : Config (semantics cachingEnv plainLifecycle) (Sync.Op Nat Nat) (Answer Nat Nat))
    (n : Nat) : Prop where
  run : Run (semantics cachingEnv plainLifecycle) (Sync.answer cachingEnv)
    (State.new Nat Nat 2 ()) h c
  guards : c.guards = fun _ => []
  ready : ∀ t, 2 * n ≤ t → c.task t = .ready
  rests : ∃ a, Rests cachingEnv.hash c.shared a ∧ ∀ k, k ≠ 1 → a.contents k = none
  uncut : ∀ t, .cut t ∉ h
  views : ∀ i < n, ∃ version items, version < 2 ^ 64 ∧ .call (2 * i + 1) .snapshotView ∈ h ∧
    .ret (2 * i + 1) (.snapshot version items) ∈ h ∧
    Represents items (update (fun _ => none) 1 (some i))

theorem exists_rounds (n : Nat) : ∃ h c, Rounds h c n := by
  induction n with
  | zero =>
    exact ⟨[], _, .start, rfl, fun _ _ => rfl, ⟨_, .new Nat.two_pos (), fun _ _ => rfl⟩, by simp,
      by simp⟩
  | succ n ih =>
    obtain ⟨h, c, hc⟩ := ih
    obtain ⟨a, ha, hnone⟩ := hc.rests
    obtain ⟨r, s₁, he₁, b, hb, hcontents⟩ := insert_returns rfl rfl ha 1 n
    obtain ⟨m₁, hr₁⟩ := hc.run.perform anonymous (hc.ready (2 * n) le_rfl) hc.guards he₁
    obtain ⟨version, items, s₂, he₂, hversion, hrep, b', hb', hkeep⟩ := view_returns rfl hb
    have hready : update c.task (2 * n) (.finished (.insert 1 n) r) (2 * n + 1) = .ready := by
      rw [Function.update_of_ne (by omega)]
      exact hc.ready _ (by omega)
    obtain ⟨m₂, hr₂⟩ := hr₁.perform anonymous hready rfl he₂
    have hone : b.contents = update (fun _ => none) 1 (some n) := by
      rw [hcontents]
      funext k
      by_cases hk : k = 1
      · simp [hk]
      · simp [hk, hnone k hk]
    refine ⟨_, _, hr₂, rfl, fun t ht => ?_, ⟨b', hb', fun k hk => ?_⟩, ?_, fun i hi => ?_⟩
    · dsimp only
      rw [Function.update_of_ne (by omega), Function.update_of_ne (by omega)]
      exact hc.ready t (by omega)
    · rw [hkeep, hone, Function.update_of_ne hk]
    · simp [hc.uncut]
    · by_cases hin : i = n
      · subst hin
        exact ⟨version, items, hversion, by simp, by simp, hone ▸ hrep⟩
      · obtain ⟨version', items', hlt, hcall, hret, hrep'⟩ := hc.views i (by omega)
        exact ⟨version', items', hlt, by simp [hcall], by simp [hret], hrep'⟩

end Repeat

/-- The version is a `u64` that wraps: among more than `2 ^ 64` contents of a map two were
shown under one version. -/
theorem versions_repeat :
    ∃ (h : List (Label (Sync.Op Nat Nat) (Answer Nat Nat)))
      (c : Config (semantics cachingEnv plainLifecycle) (Sync.Op Nat Nat) (Answer Nat Nat))
      (t u version : Nat) (items items' : List (Nat × Nat)),
      Run (semantics cachingEnv plainLifecycle) (Sync.answer cachingEnv)
        (State.new Nat Nat 2 ()) h c ∧ (∀ t, .cut t ∉ h) ∧
      .call t .snapshotView ∈ h ∧ .ret t (.snapshot version items) ∈ h ∧
      .call u .snapshotView ∈ h ∧ .ret u (.snapshot version items') ∈ h ∧
      ¬ items.Perm items' := by
  obtain ⟨h, c, hc⟩ := exists_rounds (2 ^ 64 + 1)
  choose! version items hlt hcall hret hrep using hc.views
  obtain ⟨i, hi, j, hj, hne, heq⟩ := Finset.exists_ne_map_eq_of_card_lt_of_maps_to
    (s := Finset.range (2 ^ 64 + 1)) (t := Finset.range (2 ^ 64)) (f := version)
    (by simp) (fun i hi => by simpa using hlt i (by simpa using hi))
  rw [Finset.mem_range] at hi hj
  refine ⟨h, c, 2 * i + 1, 2 * j + 1, version i, items i, items j, hc.run, hc.uncut, hcall i hi,
    hret i hi, hcall j hj, heq ▸ hret j hj, fun hperm => hne ?_⟩
  have hmem : (1, i) ∈ items j := hperm.mem_iff.mp (((hrep i hi).mem 1 i).mpr (by simp))
  simpa [eq_comm] using ((hrep j hj).mem 1 i).mp hmem

variable {h : List (Label (Sync.Op K V) (Answer K V))} {s₀ : State K V L.State}
  {c : Config (semantics env L) (Sync.Op K V) (Answer K V)}

/-- While the version has not wrapped, every answer that shows entries shows the map at one
instant between its call and its return, in the one order of atomic events that explains the
run; what is shown under one version is the same; and a call that changed nothing did not
advance the version. -/
theorem snapshots_coherent (hsync : env.awaits = false) {count : Nat} (hcount : 0 < count)
    {life : L.State}
    (hs : Reachable (semantics env L) (Sync.answer env) (State.new K V count life) s₀)
    (hr : Run (semantics env L) (Sync.answer env) s₀ h c) (hcut : ∀ t, .cut t ∉ h)
    (hw : c.shared.published < 2 ^ 64) :
    ∃ a₀ final lin, a₀.contents = s₀.contents env.hash ∧ a₀.version = s₀.published ∧
      Linearization Event.step (Explains env) (fun op es => Begins env op (visible es))
        a₀ final h lin ∧
      (∀ t op r items, .call t op ∈ h → .ret t r ∈ h → shown op r = some items →
        ∃ l₁ l₂ version d a, lin = l₁ ++ (t, .snapshot version d) :: l₂ ∧
          Replay Event.step a₀ (l₁.map Prod.snd) a ∧ Represents items a.contents ∧
          (∀ u, Precedes h u t → ∀ e, (u, e) ∉ l₂) ∧ ∀ u, Precedes h t u → ∀ e, (u, e) ∉ l₁) ∧
      (∀ t u op op' r r' version items items', .call t op ∈ h → .ret t r ∈ h →
        labelled op r = some (version, items) → .call u op' ∈ h → .ret u r' ∈ h →
        labelled op' r' = some (version, items') → items.Perm items') ∧
      ∀ t op r, .call t op ∈ h → .ret t r ∈ h →
        (∀ e ∈ visible (eventsOf t lin), ¬ e.changes) → .publish ∉ eventsOf t lin := by
  obtain ⟨a₀, ha⟩ := rests_of_reachable hsync (Rests.new hcount life) hs
  obtain ⟨g, lin, hx, hlegal, hlin⟩ := linearized hsync ha hr hw
  refine ⟨a₀, g.abs, lin, ha.contents, ha.version, hlin hcut, ?_, ?_, ?_⟩
  · intro t op r items hcall hret hl
    obtain ⟨version, d, hd, hmem⟩ := (hx.accepted hcall hret).shown hl
    obtain ⟨l₁, l₂, a, heq, h₁, -, rfl⟩ := replay_snapshot hlegal hmem
    refine ⟨l₁, l₂, version, _, a, heq, h₁, hd, fun u hp e he => ?_, fun u hp e he => ?_⟩
    · exact hx.realtime u t hp l₁ _ l₂ heq e he
    · obtain ⟨m₁, m₂, rfl⟩ := List.append_of_mem he
      rw [List.append_assoc, List.cons_append] at heq
      exact hx.realtime t u hp m₁ e _ heq _ (List.mem_append_right _ List.mem_cons_self)
  · intro t u op op' r r' version items items' hcall hret hl hcall' hret' hl'
    exact labelled_perm hlegal (hx.accepted hcall hret) hl (hx.accepted hcall' hret') hl'
  · intro t op r hcall hret hnone hpub
    obtain ⟨main, counts, ev, -, -, -, -, hchange⟩ := hx.accepted hcall hret
    obtain ⟨e, he, hc⟩ := hchange hpub
    exact hnone e he hc

theorem snapshots_coherent_rushed : ∃ (h : List (Label (Sync.Op Nat Nat) (Answer Nat Nat)))
    (c : Config (semantics cachingEnv plainLifecycle) (Sync.Op Nat Nat) (Answer Nat Nat))
    (a₀ a final : Abstract Nat Nat) (lin : List (Nat × Event Nat Nat)),
    Rushed halfway.2.shared h c ∧
      Linearization Event.step (Explains cachingEnv)
        (fun op es => Begins cachingEnv op (visible es)) a₀ final h lin ∧
      (∃ l₁ l₂ version d, lin = l₁ ++ (2, .snapshot version d) :: l₂ ∧
        Replay Event.step a₀ (l₁.map Prod.snd) a) ∧
      Represents [(2, 5), (1, 2)] a.contents ∧
      ((∀ e ∈ visible (eventsOf 7 lin), ¬ e.changes) → .publish ∉ eventsOf 7 lin) := by
  obtain ⟨h, c, hc⟩ := rushed_halfway
  obtain ⟨a₀, final, lin, -, -, hlin, hshow, -, hquiet⟩ :=
    snapshots_coherent rfl Nat.two_pos halfway_reachable hc.run hc.uncut hc.published
  have hview : .call 2 .captureSnapshot ∈ h := (hc.called _ _).mpr (by simp [rush])
  have hget : .call 7 (.get 2) ∈ h := (hc.called _ _).mpr (by simp [rush])
  obtain ⟨l₁, l₂, version, d, a, heq, hreplay, hrep, -⟩ := hshow 2 _ _ _ hview hc.viewed.1 rfl
  exact ⟨h, c, a₀, a, final, lin, hc, hlin, ⟨l₁, l₂, version, d, heq, hreplay⟩, hrep,
    hquiet 7 _ _ hget hc.found⟩

end Starshard
