import Starshard.Concurrent.Soundness
import Starshard.Proof.Coverage

/-! The invariant every task keeps, and what a single task believes.

Between operations the invariant says that the state is well formed, that the
length counter and the epoch are exact, and that no snapshot carries an old
label. While operations run, each clause is suspended exactly for what the
guards of some task protect. -/
namespace Starshard

open Data Concurrent

variable {K V : Type} [DecidableEq K]

def LockId.inner : LockId → Bool
  | .active | .previous | .shard _ => true
  | _ => false

/-- The ghost state: the abstract map, and the accounted size of each shard. -/
structure Ghost (K V : Type) where
  abs : Abstract K V
  acc : Nat → Nat

structure Inv {E : Type} (hash : K → Nat) (s : State K V E) (G : Nat → Guards K V)
    (g : Ghost K V) : Prop where
  mutex : ∀ t u l, t ≠ u → OwnsExcl (G t) l → ¬ Owns (G u) l
  single : ∀ t, Pinned (G t) → ¬ Exclusive (G t)
  inner : ∀ t l, l.inner → Owns (G t) l → Owns (G t) .routing
  settled : (∀ t, ¬ Exclusive (G t)) →
    s.WellFormed hash ∧ s.totalLen = (s.live.map g.acc).sum
  contents : ∀ k, (∀ t, ¬ Writes hash (G t) s k) → g.abs.contents k = s.contents hash k
  acc : ∀ id, (∀ t, ¬ Exclusive (G t) ∧ ¬ OwnsExcl (G t) (.shard id)) →
    g.acc id = (s.heap id).size
  version : g.abs.version = s.published
  metrics : g.abs.metrics = s.metrics
  labels : ∀ e d, g.abs.labels e = some d →
    e ≤ s.published ∧ (e = s.published → d = g.abs.contents)
  cache : ∀ e items, s.cache = some (e, items) →
    ∃ n d, e = wrapping n ∧ g.abs.labels n = some d ∧ Represents items d

/-- What a task knows: its guards, a world that agrees with the real one where
the guards protect it, and the events it contributed. -/
structure View (K V E : Type) extends World K V E where
  gs : Guards K V
  /-- The task published since the last snapshot was captured. -/
  fresh : Bool
  /-- Labels the task has seen, under the version it saw; labels never change. -/
  known : Nat → Option (Contents K V)
  evs : List (Event K V)
  /-- Which visible events the operation may have contributed. -/
  spec : List (Event K V) → Prop

namespace View

variable {E : Type}

/-- The task owns a lock that keeps every snapshot from being captured. -/
def Bars (v : View K V E) : Prop :=
  Exclusive v.gs ∨
    (Pinned v.gs ∧ ∃ i id : Nat, v.st.shards[i]? = some (some id) ∧ OwnsExcl v.gs (.shard id))

structure Consistent (hash : K → Nat) (alone : Prop) (v : View K V E) (s : State K V E)
    (g : Ghost K V) : Prop where
  agree : Agree hash v.gs v.toWorld ⟨s, g.abs.contents, g.acc⟩
  fresh : v.fresh → v.Bars ∧ ∀ e d, g.abs.labels e = some d → e < s.published
  known : ∀ e d, v.known e = some d → ∃ n, e = wrapping n ∧ g.abs.labels n = some d
  /-- The task locks only shards it found in a directory. -/
  rooted : Pinned v.gs → ∀ id, Owns v.gs (.shard id) → id ∈ v.st.live
  alone : alone → v.st = s ∧ v.abs = g.abs.contents ∧ v.acc = g.acc
  meets : v.spec (visible v.evs)

end View

/-- The protocol of a map; `alone` distinguishes a task that has the map to itself. -/
def protocol (env : Env K V) (L : Lifecycle K V) (alone : Prop) :
    Protocol (semantics env L) (Event K V) (Abstract K V) where
  step := Event.stepWrapping
  View := View K V L.State
  Ghost := Ghost K V
  Spec := List (Event K V) → Prop
  state := Ghost.abs
  guards := View.gs
  events := View.evs
  spec := View.spec
  meets spec es := spec (visible es)
  inv s G g := Inv env.hash s G g
  cons v s g := v.Consistent env.hash alone s g
  cons_meets _ _ _ h := h.meets
  relax v := { v with spec := fun _ => True }
  relax_guards _ := rfl
  relax_events _ := rfl
  relax_cons _ _ _ h := ⟨h.agree, h.fresh, h.known, h.rooted, h.alone, trivial⟩
  initial v := v.gs = [] ∧ v.evs = [] ∧ v.fresh = false
  initial_guards _ h := h.1
  initial_events _ h := h.2.1
  initial_cons s _ g spec _ h :=
    ⟨⟨⟨s, g.abs.contents, g.acc⟩, [], false, fun _ => none, [], spec⟩, ⟨rfl, rfl, rfl⟩, rfl,
      ⟨.refl _ _, by simp, by simp, by simp, fun _ => ⟨rfl, rfl, rfl⟩, h⟩⟩
  alone := alone

section Inv

variable {E : Type} {hash : K → Nat} {s s' : State K V E} {G : Nat → Guards K V}
  {g g' : Ghost K V} {t u : Nat}

open Function (update)

/-- While a task owns routing exclusively, no other task owns a map lock. -/
theorem Inv.unrouted (h : Inv hash s G g) (ht : Exclusive (G t)) (hu : u ≠ t) :
    ¬ Owns (G u) .routing ∧ ∀ id, ¬ Owns (G u) (.shard id) := by
  have hr : ¬ Owns (G u) .routing := h.mutex t u .routing (Ne.symm hu) ht
  exact ⟨hr, fun id hid => hr (h.inner u _ rfl hid)⟩

theorem Inv.not_exclusive (h : Inv hash s G g) (ht : Owns (G t) .routing) (hu : u ≠ t) :
    ¬ Exclusive (G u) :=
  fun hx => h.mutex u t .routing hu hx ht

theorem Inv.pinned (h : Inv hash s G g) (ht : Pinned (G t)) :
    s.WellFormed hash ∧ s.totalLen = (s.live.map g.acc).sum := by
  refine h.settled fun u => ?_
  by_cases hu : u = t
  · exact hu ▸ h.single t ht
  · exact h.not_exclusive ht.owns hu

/-- Two tasks never may change, and rely on, the same key. -/
theorem Inv.reads_writes (h : Inv hash s G g) {k : K} (ht : Reads hash (G t) s k) (hu : u ≠ t) :
    ¬ Writes hash (G u) s k := by
  rintro (hx | ⟨hp, id, hid, ho⟩)
  · exact h.not_exclusive ht.routing hu hx
  · rcases ht with hx | ⟨_, hk⟩
    · exact h.not_exclusive hp.owns (Ne.symm hu) hx
    · rw [hid] at hk
      exact h.mutex u t _ hu ho hk

theorem Inv.sameLocks (h : Inv hash s G g) {gs : Guards K V} (hg : SameLocks (G t) gs) :
    Inv hash s (update G t gs) g := by
  have hG : ∀ u, SameLocks (G u) (update G t gs u) := by
    intro u
    by_cases hu : u = t
    · subst hu
      simpa using hg
    · simpa [hu] using SameLocks.refl (G u)
  exact {
    mutex := fun a b l hab => by
      rw [(hG a).ownsExcl, (hG b).owns]
      exact h.mutex a b l hab
    single := fun a => by
      rw [(hG a).pinned, (hG a).exclusive]
      exact h.single a
    inner := fun a l hl => by
      rw [(hG a).owns, (hG a).owns]
      exact h.inner a l hl
    settled := fun hx => h.settled fun a => (hG a).exclusive.not.mp (hx a)
    contents := fun k hk => h.contents k fun a => (Writes.congr (hG a)).not.mp (hk a)
    acc := fun id hi => h.acc id fun a =>
      ⟨(hG a).exclusive.not.mp (hi a).1, ((hG a).ownsExcl _).not.mp (hi a).2⟩
    version := h.version
    metrics := h.metrics
    labels := h.labels
    cache := h.cache }

theorem Inv.sameCore (h : Inv hash s G g) (hs : State.SameCore s s') (hc : s'.cache = s.cache)
    (hm : s'.metrics = s.metrics) : Inv hash s' G g where
  mutex := h.mutex
  single := h.single
  inner := h.inner
  settled hx := by
    obtain ⟨hw, ht⟩ := h.settled hx
    exact ⟨hs.tables.wellFormed hw, by rw [hs.totalLen, hs.tables.live, ht]⟩
  contents k hk := by
    have hh : ∀ t, Writes hash (G t) s' k ↔ Writes hash (G t) s k := by
      intro t
      unfold Writes
      rw [hs.tables.home]
    rw [hs.tables.contents]
    exact h.contents k fun t => (hh t).not.mp (hk t)
  acc id hi := by rw [hs.heap]; exact h.acc id hi
  version := by rw [hs.published]; exact h.version
  metrics := by rw [hm]; exact h.metrics
  labels := by rw [hs.published]; exact h.labels
  cache := by rw [hc]; exact h.cache

theorem Inv.quiescent (h : Inv hash s (fun _ => []) g) :
    s.WellFormed hash ∧ s.totalLen = (s.live.map fun id => (s.heap id).size).sum ∧
      (∀ k, g.abs.contents k = s.contents hash k) := by
  have hn : ∀ _ : Nat, ¬ Exclusive ([] : Guards K V) := by simp [Exclusive]
  obtain ⟨hw, ht⟩ := h.settled hn
  have hacc : g.acc = fun id => (s.heap id).size := by
    funext id
    exact h.acc id fun _ => by simp [Exclusive]
  refine ⟨hw, by rw [ht, hacc], fun k => h.contents k fun _ => ?_⟩
  simp [Writes, Exclusive, Pinned]

/-- A shard a task found in a directory is where the directory says. -/
theorem View.Consistent.home_eq {alone : Prop} {v : View K V E}
    (hc : v.Consistent hash alone s g) (h : Inv hash s G g) (ht : G t = v.gs) {k : K} {id : Nat}
    (hp : Pinned v.gs) (ho : Owns v.gs (.shard id)) (hk : s.home hash k = some id) :
    v.st.home hash k = some id := by
  have hw := (h.pinned (ht ▸ hp : Pinned (G t))).1
  have hk' := State.home_eq_some.mp hk
  rcases State.mem_live.mp (hc.rooted hp id ho) with ⟨i, hi⟩ | ⟨i, hi⟩
  · have hi' := hc.agree.slots hp.owns i id hi
    have heq := slot_unique (List.nodup_append'.mp hw.nodup).1 hi' hk'
    have hcount : s.shardCount = v.st.shardCount := hc.agree.shardCount hp.owns
    rw [State.home_eq_some, ← hcount, ← heq]
    exact hi
  · have hi' : slotAt s.previous i = some id := by
      rw [hc.agree.previous hp.owns]
      exact hi
    exact absurd hi' (hw.active_ne_previous hk')

theorem View.Consistent.reads_of {alone : Prop} {v : View K V E}
    (hc : v.Consistent hash alone s g) (h : Inv hash s G g) (ht : G t = v.gs) {k : K}
    (hk : Reads hash v.gs s k) : Reads hash v.gs v.st k := by
  rcases hk with hx | ⟨hp, hk⟩
  · exact .inl hx
  · refine .inr ⟨hp, ?_⟩
    cases hid : s.home hash k with
    | some id =>
      rw [hid] at hk
      rw [hc.home_eq h ht hp hk hid]
      exact hk
    | none =>
      rw [hid] at hk
      have hh : s.home hash k = v.st.home hash k := hc.agree.home_none hp.owns hk k
      rw [← hh, hid]
      exact hk

theorem View.Consistent.writes_of {alone : Prop} {v : View K V E}
    (hc : v.Consistent hash alone s g) (h : Inv hash s G g) (ht : G t = v.gs) {k : K}
    (hk : Writes hash v.gs s k) : Writes hash v.gs v.st k := by
  rcases hk with hx | ⟨hp, id, hid, ho⟩
  · exact .inl hx
  · exact .inr ⟨hp, id, hc.home_eq h ht hp ho.owns hid, ho⟩

end Inv

end Starshard
