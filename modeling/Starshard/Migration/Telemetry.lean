import Mathlib.Data.List.Induction
import Starshard.Migration.Drain

/-! The telemetry of migrations over whole runs, in every state a run passes through:
also inside a batch and after one that unwound. -/
namespace Starshard.Migration

open Data Worker
open Concurrent (Replay)

variable {K V : Type}

/-- The counters of a generation that only grow while at most `n` batches end; the one of the
batches wraps. -/
structure Advances (n : Nat) (p q : RebalanceTelemetry) : Prop where
  movedEntries : p.movedEntries ≤ q.movedEntries
  completedShards : p.completedShards ≤ q.completedShards
  batches : p.batches + n < 2 ^ 64 → p.batches ≤ q.batches ∧ q.batches ≤ p.batches + n
  maxPauseNs : p.maxPauseNs ≤ q.maxPauseNs

theorem Advances.refl (n : Nat) (p : RebalanceTelemetry) : Advances n p p :=
  ⟨Nat.le_refl _, Nat.le_refl _, fun _ => ⟨Nat.le_refl _, Nat.le_add_right ..⟩, Nat.le_refl _⟩

theorem Advances.trans {n n' : Nat} {p q r : RebalanceTelemetry} (h : Advances n p q)
    (h' : Advances n' q r) : Advances (n + n') p r where
  movedEntries := Nat.le_trans h.movedEntries h'.movedEntries
  completedShards := Nat.le_trans h.completedShards h'.completedShards
  batches hn := by
    obtain ⟨hle, hlt⟩ := h.batches (by omega)
    obtain ⟨hle', hlt'⟩ := h'.batches (by omega)
    omega
  maxPauseNs := Nat.le_trans h.maxPauseNs h'.maxPauseNs

/-- What a tracker update inside a generation does to the telemetry. -/
structure Grows (n : Nat) (p q : RebalanceTelemetry) : Prop where
  le : Advances n p q
  pauses : p.lastPauseNs ≤ p.maxPauseNs → q.lastPauseNs ≤ q.maxPauseNs

theorem Grows.refl (n : Nat) (p : RebalanceTelemetry) : Grows n p p := ⟨.refl n p, id⟩

variable [DecidableEq K] {hash : K → Nat}

def sourceEntries (m : Map K V) : Nat := (leftover m.owner.tables).length

/-- A run, with the number of entries its foreground operations took from the sources of
the generation it is in. -/
inductive Taken (hash : K → Nat) (flavor : Flavor) (count : Nat) :
    List (Label K V) → Map K V → Nat → Prop where
  | new : 0 < count → count < usizeMax → Taken hash flavor count [] (Map.new K V count) 0
  | snoc {ls : List (Label K V)} {m m' : Map K V} {n : Nat} {l : Label K V} :
      Taken hash flavor count ls m n → Step hash flavor l m m' →
      Taken hash flavor count (ls ++ [l]) m'
        (if l.begins then 0 else if l.writes then n + (sourceEntries m - sourceEntries m') else n)

theorem Taken.run {flavor : Flavor} {count : Nat} {ls : List (Label K V)} {m : Map K V} {n : Nat}
    (h : Taken hash flavor count ls m n) : Run hash flavor count ls m := by
  induction h with
  | new hpos hcap => exact ⟨hpos, hcap, .nil⟩
  | snoc _ hs ih => exact ⟨ih.1, ih.2.1, ih.2.2.append (.single hs)⟩

theorem Run.taken {flavor : Flavor} {count : Nat} {ls : List (Label K V)} {m : Map K V}
    (h : Run hash flavor count ls m) : ∃ n, Taken hash flavor count ls m n := by
  induction ls using List.reverseRecOn generalizing m with
  | nil =>
    have := h.2.2.nil_eq
    subst this
    exact ⟨0, .new h.1 h.2.1⟩
  | append_singleton ls l ih =>
    obtain ⟨m₁, hr, hs⟩ := h.2.2.of_append
    obtain ⟨n, hn⟩ := ih ⟨h.1, h.2.1, hr⟩
    cases hs with
    | cons hs hnil =>
      cases hnil
      exact ⟨_, hn.snoc hs⟩

end Starshard.Migration
