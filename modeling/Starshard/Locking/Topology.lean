import Mathlib.Data.Prod.Lex
import Starshard.Proof.Topology

/-! Where the shard locks stand: the layout of both directories and the order in
which locks are taken. -/
namespace Starshard

open Data

/-- Two directories in which every shard has one place. -/
@[ext]
structure Topology where
  shards : Slots
  previous : Option Slots
  next : Nat
  distinct : (allocatedShards shards ++ allocatedShards (previous.getD [])).Nodup
  bound : ∀ id ∈ allocatedShards shards ++ allocatedShards (previous.getD []), id < next

namespace Topology

/-- While routing is pinned, cold slots are initialised and nothing else changes. -/
structure Grows (T T' : Topology) : Prop where
  shards : ∀ i id : Nat, T.shards[i]? = some (some id) → T'.shards[i]? = some (some id)
  previous : T'.previous = T.previous

theorem Grows.refl (T : Topology) : T.Grows T := ⟨fun _ _ h => h, rfl⟩

theorem Grows.trans {T T' T'' : Topology} (h : T.Grows T') (h' : T'.Grows T'') : T.Grows T'' :=
  ⟨fun i id hi => h'.shards i id (h.shards i id hi), h'.previous.trans h.previous⟩

structure Describes {K V E : Type} (T : Topology) (s : State K V E) : Prop where
  shards : s.shards = T.shards
  previous : s.previous = T.previous
  next : s.next = T.next

theorem Describes.unique {K V E : Type} {T T' : Topology} {s : State K V E}
    (h : T.Describes s) (h' : T'.Describes s) : T = T' :=
  Topology.ext (h.shards.symm.trans h'.shards) (h.previous.symm.trans h'.previous)
    (h.next.symm.trans h'.next)

theorem active_unique (T : Topology) {i j id : Nat} (hi : T.shards[i]? = some (some id))
    (hj : T.shards[j]? = some (some id)) : i = j :=
  slot_unique T.distinct.of_append_left hi hj

theorem previous_unique (T : Topology) {i j id : Nat} (hi : slotAt T.previous i = some id)
    (hj : slotAt T.previous j = some id) : i = j := by
  obtain ⟨p, hp, hi⟩ := slotAt_eq_some.mp hi
  obtain ⟨q, hq, hj⟩ := slotAt_eq_some.mp hj
  have hn := T.distinct.of_append_right
  rw [hp, Option.getD_some] at hn
  rw [hp, Option.some.injEq] at hq
  exact slot_unique hn hi (hq ▸ hj)

theorem apart (T : Topology) {i j id : Nat} (hi : T.shards[i]? = some (some id))
    (hj : slotAt T.previous j = some id) : False :=
  (List.nodup_append.mp T.distinct).2.2 id (mem_allocatedShards.mpr ⟨i, hi⟩) id
    (mem_previous.mpr ⟨j, hj⟩) rfl

/-- The kind of a lock decides first. -/
theorem kind_lt {a b : Nat} (h : a < b) (i j : Nat) : toLex (a, i) < toLex (b, j) :=
  Prod.Lex.toLex_lt_toLex.mpr (.inl h)

theorem first_le (a i : Nat) : toLex (a, 0) ≤ toLex (a, i) :=
  Prod.Lex.toLex_le_toLex.mpr (.inr ⟨rfl, Nat.zero_le i⟩)

/-- The order of the locks that can be waited for while routing is pinned. The
previous directory has no place in it: it is only written under exclusive routing. -/
inductive Rank (T : Topology) : LockId → Nat ×ₗ Nat → Prop
  | builder : Rank T .builder (toLex (0, 0))
  | routing : Rank T .routing (toLex (1, 0))
  | directory : Rank T .active (toLex (2, 0))
  | active {i id : Nat} : T.shards[i]? = some (some id) → Rank T (.shard id) (toLex (3, i))
  | previous {j id : Nat} : slotAt T.previous j = some id → Rank T (.shard id) (toLex (4, j))
  | cache : Rank T .cache (toLex (5, 0))

theorem Rank.unique {T : Topology} {l : LockId} {r r' : Nat ×ₗ Nat} (h : T.Rank l r)
    (h' : T.Rank l r') : r = r' := by
  cases h with
  | active hi =>
    cases h' with
    | active hj => rw [T.active_unique hi hj]
    | previous hj => exact (T.apart hi hj).elim
  | previous hi =>
    cases h' with
    | active hj => exact (T.apart hj hi).elim
    | previous hj => rw [T.previous_unique hi hj]
  | _ =>
    cases h'
    rfl

theorem Rank.grows {T T' : Topology} {l : LockId} {r : Nat ×ₗ Nat} (h : T.Rank l r)
    (hT : T.Grows T') : T'.Rank l r := by
  cases h with
  | builder => exact .builder
  | routing => exact .routing
  | directory => exact .directory
  | active hi => exact .active (hT.shards _ _ hi)
  | previous hj => exact .previous (by rwa [hT.previous])
  | cache => exact .cache

theorem Rank.ne {T : Topology} {a b : Nat} {r r' : Nat ×ₗ Nat} (h : T.Rank (.shard a) r)
    (h' : T.Rank (.shard b) r') (hne : r ≠ r') : a ≠ b := by
  rintro rfl
  exact hne (h.unique h')

end Topology
end Starshard
