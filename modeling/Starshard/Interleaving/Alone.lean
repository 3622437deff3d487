import Starshard.Concurrent.Sequential
import Starshard.Interleaving.Answers
import Starshard.Interleaving.Perform

/-! A map at rest, and one operation on it while nothing else runs: the operation returns,
and its answer and its effect are those of the abstract map. -/
namespace Starshard

open Data Concurrent
open Function (update)
open Locking (plainEnv plainLifecycle)

variable {K V E : Type} [DecidableEq K] {env : Env K V} {L : Lifecycle K V} {hash : K → Nat}

/-- What callers know of a new map. -/
def Abstract.new (K V : Type) : Abstract K V :=
  ⟨fun _ => none, 0, fun _ => none, ⟨0, 0, 0, 0, 0, 0⟩⟩

/-- A map at rest, and the abstract map its callers know. -/
structure Rests (hash : K → Nat) (s : State K V E) (a : Abstract K V) : Prop where
  wellFormed : s.WellFormed hash
  totalLen : s.totalLen = (s.live.map fun id => (s.heap id).size).sum
  contents : a.contents = s.contents hash
  version : a.version = s.published
  metrics : a.metrics = s.metrics
  /-- No version was handed out ahead of time, and the current one only with the
  current contents. -/
  labels : ∀ e d, a.labels e = some d → e ≤ s.published ∧ (e = s.published → d = a.contents)
  cache : ∀ e items, s.cache = some (e, items) →
    ∃ n d, e = wrapping n ∧ a.labels n = some d ∧ Represents items d

namespace Rests

variable {s : State K V E} {a : Abstract K V} {g : Ghost K V}

theorem inv (h : Rests hash s a) : Inv hash s (fun _ => []) ⟨a, fun id => (s.heap id).size⟩ where
  mutex t u l _ hx := by simp [OwnsExcl] at hx
  single t hp := by simp [Pinned] at hp
  inner t l _ ho := by simp [Owns] at ho
  settled _ := ⟨h.wellFormed, h.totalLen⟩
  contents k _ := congrFun h.contents k
  acc _ _ := rfl
  version := h.version
  metrics := h.metrics
  labels := h.labels
  cache := h.cache

theorem of_inv (h : Inv hash s (fun _ => []) g) : Rests hash s g.abs where
  wellFormed := h.quiescent.1
  totalLen := h.quiescent.2.1
  contents := funext h.quiescent.2.2
  version := h.version
  metrics := h.metrics
  labels := h.labels
  cache := h.cache

theorem represents (h : Rests hash s a) : Represents s.entries (s.contents hash) := by
  rw [State.entries, List.flatMap_def]
  refine h.wellFormed.represents ?_
  rw [List.forall₂_map_left_iff]
  exact List.forall₂_same.mpr fun _ _ => .refl _

theorem length (h : Rests hash s a) : s.totalLen = s.entries.length := by
  rw [h.totalLen, State.entries, List.length_flatMap]
  refine congrArg List.sum (List.map_congr_left fun id _ => ?_)
  exact (Assoc.items_length _).symm

omit [DecidableEq K] in
theorem live_new (count : Nat) (life : E) : (State.new K V count life).live = [] := by
  have hcold : allocatedShards (List.replicate count none) = [] := by
    rw [allocatedShards, List.filterMap_replicate_of_none rfl]
  exact List.append_eq_nil_iff.mpr ⟨hcold, rfl⟩

theorem new {count : Nat} (hcount : 0 < count) (life : E) :
    Rests hash (State.new K V count life) (Abstract.new K V) where
  wellFormed := by
    have hslot : ∀ i id : Nat, (State.new K V count life).shards[i]? ≠ some (some id) :=
      fun i id h => by cases List.eq_of_mem_replicate (List.mem_of_getElem? h)
    have hlive : (State.new K V count life).live = [] := live_new count life
    exact {
      count_pos := hcount
      length := List.length_replicate
      previous_length := nofun
      previous_none := by simp [State.new]
      migrating := rfl
      progress := nofun
      drained := fun i hi => absurd hi (Nat.not_lt_zero i)
      nodup := hlive ▸ List.nodup_nil
      bound := by rw [hlive]; exact nofun
      home_active := fun i id hi => absurd hi (hslot i id)
      home_previous := nofun
      disjoint := fun k => .inr rfl }
  totalLen := by
    rw [live_new]
    rfl
  contents := by
    funext k
    have hhome : (State.new K V count life).home hash k = none := by
      simp only [State.home, State.new, List.getElem?_replicate]
      split <;> rfl
    rw [State.contents, State.activeLookup, hhome]
    rfl
  version := rfl
  metrics := rfl
  labels e d h := by cases h
  cache e items h := by cases h

end Rests

section Effects

variable {a b : Abstract K V} {es : List (Event K V)}

/-- Only visible events have an effect on the contents. -/
theorem replay_visible {c c' : Contents K V} (h : Replay Event.effect c es c') :
    Replay Event.effect c (visible es) c' := by
  induction h with
  | nil => exact .nil
  | @cons a b c e es he _ ih =>
    have hcons : visible (e :: es) = if e.isVisible then e :: visible es else visible es :=
      List.filter_cons
    rw [hcons]
    cases e with
    | publish =>
      obtain rfl := he
      exact ih
    | count m =>
      obtain rfl := he
      exact ih
    | _ => exact .cons he ih

theorem replay_effects (h : Replay Event.stepWrapping a es b) :
    Replay Event.effect a.contents (visible es) b.contents :=
  replay_visible (Event.replay_contents h)

end Effects

variable {a₀ : Abstract K V} {s₀ : State K V L.State} {op : Sync.Op K V}

theorem solo_nil {Guard : Type} : solo ([] : List Guard) = fun _ => [] :=
  Function.update_eq_self 0 _

theorem starts_alone (env : Env K V) (L : Lifecycle K V) (alone : Prop) (op : Sync.Op K V)
    {s₀ : State K V L.State} (hs : Rests env.hash s₀ a₀)
    (hop : Begins env op []) : ∃ v : View K V L.State,
      Calm env (Begins env op) [] [] [] v ∧ v.evs = [] ∧
      (protocol env L alone).Holds 0 v s₀ (solo []) ⟨a₀, fun id => (s₀.heap id).size⟩ := by
  obtain ⟨v, hv, hspec, hcons⟩ := (protocol env L alone).initial_cons s₀ (fun _ => [])
    ⟨a₀, fun id => (s₀.heap id).size⟩ (Begins env op) hs.inv hop
  have hspec : v.spec = Begins env op := hspec
  refine ⟨v, hspec ▸ Calm.initial hv, hv.2.1, ⟨?_, ?_, hcons, fun _ u hu => ?_⟩⟩
  · rw [solo_self]
    exact hv.1.symm
  · rw [solo_nil]
    exact hs.inv
  · rw [solo_nil]

/-- Alone on a map at rest, an operation that does not move entries in a loop returns. -/
theorem returns_alone (op : Sync.Op K V) (hsync : env.awaits = false) (hs : Rests env.hash s₀ a₀)
    (hop : advances op = false) :
    ∃ r s gs, Exec (semantics env L) (Sync.answer env op) s₀ [] r s gs := by
  have h : Sound env L True op := sound hsync op fun ha => by
    rw [hop] at ha
    cases ha
  obtain ⟨v, hv, _, hholds⟩ := starts_alone env L True op hs h.begins
  exact (h.answers v hv).exec_total trivial hholds

/-- Whatever an operation answers when it runs alone, the events it committed explain the
answer, lead from the contents before to the contents after, and the map is at rest again. -/
theorem explained_alone (hsync : env.awaits = false) (hs : Rests env.hash s₀ a₀)
    {r : Answer K V} {s : State K V L.State} {gs : Guards K V}
    (he : Exec (semantics env L) (Sync.answer env op) s₀ [] r s gs) :
    gs = [] ∧ ∃ es a, Explains env op es r ∧ Replay Event.stepWrapping a₀ es a ∧
      Rests env.hash s a := by
  have h : Sound env L False op := sound hsync op fun _ => id
  obtain ⟨v, hv, hevs, hholds⟩ := starts_alone env L False op hs h.begins
  obtain ⟨g, v', hv', ⟨hgs, hr⟩, es, hes, hreplay⟩ := (h.answers v hv).exec he hholds
  have hguards : gs = [] := (solo_self gs).symm.trans (hv'.guards.trans hgs)
  have hinv : Inv env.hash s (solo gs) g := hv'.inv
  rw [hguards, solo_nil] at hinv
  have hall : v'.evs = es := by
    have hes : v'.evs = v.evs ++ es := hes
    rw [hes, hevs, List.nil_append]
  exact ⟨hguards, es, g.abs, hall ▸ hr, hreplay, .of_inv hinv⟩

/-- Every run is explained by a sequence of atomic events on the abstract map. -/
theorem explained (hsync : env.awaits = false) (hs : Rests env.hash s₀ a₀)
    {h : List (Label (Sync.Op K V) (Answer K V))}
    {c : Config (semantics env L) (Sync.Op K V) (Answer K V)}
    (hr : Run (semantics env L) (Sync.answer env) s₀ h c) :
    ∃ g lin, (protocol env L False).Explained (Begins env) (Explains env) a₀ h c g lin :=
  (verified (L := L) hsync).run id (P := protocol env L False)
    (g := ⟨a₀, fun id => (s₀.heap id).size⟩) hs.inv hr

/-- Between operations the map is at rest. -/
theorem rests_of_reachable (hsync : env.awaits = false) (hs : Rests env.hash s₀ a₀)
    {s : State K V L.State} (hr : Reachable (semantics env L) (Sync.answer env) s₀ s) :
    ∃ a, Rests env.hash s a := by
  obtain ⟨h, c, hrun, hq, rfl⟩ := hr
  obtain ⟨g, lin, hx⟩ := explained hsync hs hrun
  have hinv : Inv env.hash c.shared c.guards g := hx.inv
  rw [hx.guards_nil hq] at hinv
  exact ⟨g.abs, .of_inv hinv⟩

/-- Total correctness of every operation on its own: from any map at rest, in the middle of
a migration or not, it returns unless it moves entries in a loop; and whenever it returns,
the abstract map explains its answer and what it left. -/
theorem correct_alone (hsync : env.awaits = false) (hs : Rests env.hash s₀ a₀) :
    (advances op = false → ∃ r s gs, Exec (semantics env L) (Sync.answer env op) s₀ [] r s gs) ∧
      ∀ r s gs, Exec (semantics env L) (Sync.answer env op) s₀ [] r s gs →
        s.published < 2 ^ 64 → gs = [] ∧ (op = .len → r = .count s₀.entries.length) ∧
          ∃ es a, Explains env op es r ∧ Replay Event.step a₀ es a ∧ Rests env.hash s a := by
  refine ⟨returns_alone op hsync hs, fun r s gs he hw => ?_⟩
  obtain ⟨hgs, es, a, hes, hreplay, ha⟩ := explained_alone hsync hs he
  refine ⟨hgs, fun hop => ?_, es, a, hes, Event.replay_unwrapped hreplay (ha.version ▸ hw), ha⟩
  subst hop
  obtain ⟨n, _, _, ⟨rfl, rfl, rfl⟩, he⟩ := he.step_inv
  rw [he.done_inv.1, ← hs.length]

section Example

/-- A map of two entries whose migration to three shards has moved one of them. -/
def halfwayThere : List (Turn (Sync.Op Nat Nat)) :=
  [.call 0 (.insert 1 2), .go 0 100, .call 1 (.insert 2 5), .go 1 100,
    .call 2 (.startRebalanceOnline 3), .go 2 100, .call 3 (.advanceRebalance 20 1), .go 3 300]

def halfway : Trace (semantics cachingEnv plainLifecycle) (Sync.Op Nat Nat) (Answer Nat Nat) :=
  cachingMap.follow (Sync.answer cachingEnv) halfwayThere
    ([], .start _ _ _ (State.new Nat Nat 2 ()))

theorem halfway_reachable : Reachable (semantics cachingEnv plainLifecycle)
    (Sync.answer cachingEnv) (State.new Nat Nat 2 ()) halfway.2.shared := by
  have hidle : cachingMap.idle halfway.2 := by decide +kernel
  have hf : cachingMap.Follows (Sync.answer cachingEnv) (State.new Nat Nat 2 ()) halfway :=
    .follow halfwayThere .start
  exact ⟨_, _, hf.run, hf.quiescent hidle, rfl⟩

theorem halfway_rests : ∃ a, Rests cachingEnv.hash halfway.2.shared a :=
  rests_of_reachable rfl (Rests.new Nat.two_pos ()) halfway_reachable

theorem halfway_migrates : halfway.2.shared.previous.isSome ∧
    halfway.2.shared.contents cachingEnv.hash 1 = some 2 ∧
    halfway.2.shared.contents cachingEnv.hash 2 = some 5 := by
  decide +kernel

def retained : Option (Answer Nat Nat × State Nat Nat plainLifecycle.State × Guards Nat Nat) :=
  cachingMap.alone 400 (Sync.answer cachingEnv (.retain fun k _ => k == 2)) halfway.2.shared []

end Example

theorem correct_alone_retain : ∃ a₀ r s es a, Rests cachingEnv.hash halfway.2.shared a₀ ∧
    Exec (semantics cachingEnv plainLifecycle) (Sync.answer cachingEnv (.retain fun k _ => k == 2))
      halfway.2.shared [] r s [] ∧
    Explains cachingEnv (.retain fun k _ => k == 2) es r ∧
    Replay Event.step a₀ es a ∧ Rests cachingEnv.hash s a := by
  obtain ⟨a₀, hs⟩ := halfway_rests
  have hret : (retained.any fun x => decide (x.2.1.published < 2 ^ 64)) = true := by decide +kernel
  obtain ⟨⟨r, s, gs⟩, heq, hw⟩ := (Option.any_eq_true ..).mp hret
  have he := Performer.exec_of_alone (by decide) 400 heq
  obtain ⟨rfl, -, es, a, hes, hreplay, ha⟩ :=
    (correct_alone rfl hs).2 r s gs he (of_decide_eq_true hw)
  exact ⟨a₀, r, s, es, a, hs, he, hes, hreplay, ha⟩

/-- An insertion that returns alone leaves the map with the entry. -/
theorem inserts_alone (hsync : env.awaits = false) (hev : env.eviction = none)
    (hs : Rests env.hash s₀ a₀) {k : K} {v : V} {r : Answer K V} {s : State K V L.State}
    {gs : Guards K V}
    (he : Exec (semantics env L) (Sync.answer env (.insert k v)) s₀ [] r s gs) :
    gs = [] ∧ ∃ b, Rests env.hash s b ∧ b.contents = update a₀.contents k (some v) := by
  obtain ⟨hgs, es, b, ⟨main, counts, ev, ⟨old, _, rfl, _⟩, hfollow, hvis, _⟩, hreplay, hb⟩ :=
    explained_alone hsync hs he
  refine ⟨hgs, b, hb, ?_⟩
  have heffects := replay_effects hreplay
  rw [hvis, hfollow.1.1 hev] at heffects
  cases heffects with
  | cons hstep hrest =>
    rw [hrest.nil_eq]
    exact hstep.2

theorem views_alone (hsync : env.awaits = false) (hs : Rests env.hash s₀ a₀)
    {view : Sync.SnapshotView K V} {s : State K V L.State} {gs : Guards K V}
    (he : Exec (semantics env L) Sync.snapshotView s₀ [] view s gs) :
    Represents view.items a₀.contents ∧ s.contents env.hash = s₀.contents env.hash := by
  have hanswer : Exec (semantics env L) (Sync.answer env .snapshotView) s₀ []
      (.snapshot view.version view.items) s gs := he.bind .done
  obtain ⟨-, es, b, ⟨main, counts, ev, ⟨version, items, d, -, -, rfl, -⟩, hfollow, hvis, -⟩,
    hreplay, hb⟩ := explained_alone hsync hs hanswer
  rw [hfollow.2 rfl] at hvis
  have heffects := replay_effects hreplay
  rw [hvis] at heffects
  have hsp := allows_snapshot (show meaning env.valueEq (.snapshotView : Sync.Op K V) =
    snapshotMeaning .snapshot from rfl)
  obtain ⟨v, hv, -, hholds⟩ := starts_alone env L True .snapshotView hs (hsp 0 [] _ .nil).nil
  obtain ⟨g, v', hv', ⟨c, hc, hcur⟩, -⟩ := (hv.wp_snapshotView hsp).exec he hholds
  have habs : v.abs = a₀.contents := (hholds.cons.alone trivial).2.1
  refine ⟨habs ▸ hcur trivial ▸ hc.represents, ?_⟩
  rw [← hb.contents, ← hs.contents]
  cases heffects with
  | cons hstep hrest => exact hrest.nil_eq.trans hstep

end Starshard
