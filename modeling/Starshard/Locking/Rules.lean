import Starshard.Concurrent.Discipline
import Starshard.Locking.Topology
import Starshard.Proof.Protocol

/-! The locking discipline of the synchronous map: which lock may be asked for
while which locks are owned. -/
namespace Starshard

open Data Concurrent

variable {K V : Type}

def Guard.lock? : Guard K V → Option (LockId × Mode)
  | .lock l m => some (l, m)
  | _ => none

namespace Locking

/-- The stack of a task's guards, of which only the locks matter, and the
directories as far as the task knows them. -/
structure View where
  stack : List (Option (LockId × Mode))
  topology : Topology

namespace View

def push (v : View) : View := { v with stack := none :: v.stack }

def lock (v : View) (l : LockId) (m : Mode) : View := { v with stack := some (l, m) :: v.stack }

def owns (l : LockId) (g : Option (LockId × Mode)) : Bool := g.any fun h => decide (h.1 = l)

def unlock (v : View) (l : LockId) : View := { v with stack := v.stack.eraseP (owns l) }

def pop (v : View) : View := { v with stack := v.stack.tail }

def learn (v : View) (T : Topology) : View := { v with topology := T }

/-- Every ranked lock that is owned comes before rank `r`. -/
def Below (v : View) (r : Nat ×ₗ Nat) : Prop :=
  ∀ l m, some (l, m) ∈ v.stack → l ≠ .previous → ∃ r', v.topology.Rank l r' ∧ r' < r

def Only (v : View) (ls : List LockId) : Prop := ∀ l m, some (l, m) ∈ v.stack → l ∈ ls

def Sharing (v : View) : Prop := some (.routing, .shared) ∈ v.stack

def Excluding (v : View) : Prop := some (.routing, .excl) ∈ v.stack

/-- When a task may ask for a lock. The inner locks need routing; an exclusive owner of
routing meets nobody there but itself. -/
def MayLock (v : View) : LockId → Mode → Prop
  | .builder, _ => v.Only []
  | .rebalance, _ => False
  | .routing, _ | .cache, _ => v.Only [.builder]
  | .previous, m => (v.Excluding ∧ ∀ m', some (.previous, m') ∉ v.stack) ∨
      (v.Sharing ∧ m = .shared)
  | l, _ => (v.Excluding ∧ ∀ m', some (l, m') ∉ v.stack) ∨
      (v.Sharing ∧ ∃ r, v.topology.Rank l r ∧ v.Below r)

end View

/-- The rules of the discipline. -/
def discipline (K V : Type) : Discipline (Act K V) Resp View where
  admits v
    | .lock l m => v.MayLock l m
    | .unlock l => l = .routing → ∀ l' m, l'.inner → some (l', m) ∉ v.stack
    | .push g => g.lock? = none
    | .pop => v.stack.head? = some none
    | .shards | .previous | .initSlot _ => v.Sharing ∨ v.Excluding
    | .install _ => v.Excluding
    | .setPrevious slots => v.Excluding ∧ ∃ T : Topology, T.shards = v.topology.shards ∧
        T.previous = slots ∧ T.next = v.topology.next
    | _ => True
  answers v
    | .lock l m, _, v' => if l = .routing then ∃ T, v' = (v.lock l m).learn T else v' = v.lock l m
    | .unlock l, _, v' => v' = v.unlock l
    | .push _, _, v' => v' = v.push
    | .pop, _, v' => v' = v.pop
    | .shards, r, v' => ∃ T, v.topology.Grows T ∧ r = T.shards ∧ v' = v.learn T
    | .previous, r, v' => r = v.topology.previous ∧ v' = v
    | .initSlot i, r, v' => ∃ T, v.topology.Grows T ∧ T.shards[i]? = some (some r) ∧ v' = v.learn T
    | .install maps, r, v' => r = v.topology.shards ∧ ∃ T : Topology,
        T.shards = allocate v.topology.next maps ∧ T.previous = v.topology.previous ∧
          v.topology.next ≤ T.next ∧ v' = v.learn T
    | .setPrevious slots, r, v' => r = v.topology.previous ∧ ∃ T : Topology,
        T.shards = v.topology.shards ∧ T.previous = slots ∧ T.next = v.topology.next ∧
          v' = v.learn T
    | _, _, v' => v' = v

/-- The program takes its locks in order. -/
abbrev Obeys {α : Type} (p : Prog K V α) (v : View) (Φ : α → View → Prop) : Prop :=
  (discipline K V).Obeys p v Φ

/-- The program takes no lock and leaves the guards as they are. -/
abbrev Neutral {α : Type} (p : Prog K V α) : Prop := (discipline K V).Neutral p

namespace View

variable {v : View} {l l' : LockId} {m m' : Mode} {T : Topology}

@[simp] theorem push_pop : v.push.pop = v := rfl

@[simp] theorem lock_unlock : (v.lock l m).unlock l = v := by
  simp [lock, unlock, owns]

@[simp] theorem learn_topology : (v.learn T).topology = T := rfl

@[simp] theorem learn_stack : (v.learn T).stack = v.stack := rfl

@[simp] theorem lock_topology : (v.lock l m).topology = v.topology := rfl

@[simp] theorem push_topology : v.push.topology = v.topology := rfl

@[simp] theorem lock_learn : (v.lock l m).learn T = (v.learn T).lock l m := rfl

@[simp] theorem push_learn : v.push.learn T = (v.learn T).push := rfl

@[simp] theorem learn_learn {T' : Topology} : (v.learn T).learn T' = v.learn T' := rfl

@[simp] theorem learn_self : v.learn v.topology = v := rfl

@[simp] theorem mem_lock {g : LockId × Mode} :
    some g ∈ (v.lock l m).stack ↔ g = (l, m) ∨ some g ∈ v.stack := by
  simp [lock]

@[simp] theorem mem_push {g : LockId × Mode} : some g ∈ v.push.stack ↔ some g ∈ v.stack := by
  simp [push]

@[simp] theorem sharing_push : v.push.Sharing ↔ v.Sharing := by simp [Sharing]

@[simp] theorem excluding_push : v.push.Excluding ↔ v.Excluding := by simp [Excluding]

@[simp] theorem sharing_learn : (v.learn T).Sharing ↔ v.Sharing := Iff.rfl

@[simp] theorem excluding_learn : (v.learn T).Excluding ↔ v.Excluding := Iff.rfl

@[simp] theorem only_push {ls : List LockId} : v.push.Only ls ↔ v.Only ls := by simp [Only]

theorem Sharing.lock (h : v.Sharing) : (v.lock l m).Sharing := mem_lock.mpr (.inr h)

theorem Excluding.lock (h : v.Excluding) : (v.lock l m).Excluding := mem_lock.mpr (.inr h)

theorem Below.learn {r : Nat ×ₗ Nat} (h : v.Below r) (hT : v.topology.Grows T) :
    (v.learn T).Below r := fun l m hm hl => by
  obtain ⟨r', hr, hlt⟩ := h l m hm hl
  exact ⟨r', hr.grows hT, hlt⟩

theorem Below.mono {r r' : Nat ×ₗ Nat} (h : v.Below r) (hr : r ≤ r') : v.Below r' :=
  fun l m hm hl => by
    obtain ⟨q, hq, hlt⟩ := h l m hm hl
    exact ⟨q, hq, hlt.trans_le hr⟩

theorem Below.lock {r r' : Nat ×ₗ Nat} (h : v.Below r) (hl : v.topology.Rank l r) (hr : r < r') :
    (v.lock l m).Below r' := fun l' m' hm hn => by
  rcases mem_lock.mp hm with he | hm
  · cases he
    exact ⟨r, hl, hr⟩
  · exact h.mono hr.le l' m' hm hn

theorem Below.add {r r' : Nat ×ₗ Nat} (h : v.Below r) (hl : v.topology.Rank l r') (hr : r' < r) :
    (v.lock l m).Below r := fun l' m' hm hn => by
  rcases mem_lock.mp hm with he | hm
  · cases he
    exact ⟨r', hl, hr⟩
  · exact h l' m' hm hn

@[simp] theorem below_push {r : Nat ×ₗ Nat} : v.push.Below r ↔ v.Below r := by
  simp [Below, push]

end View

section Actions

variable {α : Type} {v : View} {Φ : α → View → Prop}

/-- A lock other than routing: taking it teaches nothing about the layout. -/
class NotRouting (l : LockId) : Prop where
  ne : l ≠ .routing

instance : NotRouting .builder := ⟨nofun⟩
instance : NotRouting .active := ⟨nofun⟩
instance : NotRouting .previous := ⟨nofun⟩
instance : NotRouting .cache := ⟨nofun⟩
instance (id : Nat) : NotRouting (.shard id) := ⟨nofun⟩

theorem obeys_lock {l : LockId} [hl : NotRouting l] {m : Mode} {f : Unit → Prog K V α}
    (h : v.MayLock l m) (hf : Obeys (f ()) (v.lock l m) Φ) :
    Obeys (act (.lock l m) >>= f) v Φ :=
  ⟨h, fun _ v' hv => by
    replace hv : if l = .routing then ∃ T, v' = (v.lock l m).learn T else v' = v.lock l m := hv
    rw [if_neg hl.ne] at hv
    subst hv
    exact hf⟩

theorem obeys_routing {m : Mode} {f : Unit → Prog K V α} (h : v.Only [.builder])
    (hf : ∀ T, Obeys (f ()) ((v.learn T).lock .routing m) Φ) :
    Obeys (act (.lock .routing m) >>= f) v Φ :=
  ⟨h, fun _ _ ⟨T, hv⟩ => hv ▸ hf T⟩

theorem obeys_unlock {l : LockId} {f : Unit → Prog K V α}
    (h : l = .routing → ∀ l' m, l'.inner → some (l', m) ∉ v.stack)
    (hf : Obeys (f ()) (v.unlock l) Φ) : Obeys (act (.unlock l) >>= f) v Φ :=
  ⟨h, fun _ _ hv => hv ▸ hf⟩

theorem obeys_release {l : LockId} [hl : NotRouting l] {m : Mode} {f : Unit → Prog K V α}
    (hf : Obeys (f ()) v Φ) : Obeys (act (.unlock l) >>= f) (v.lock l m) Φ :=
  obeys_unlock (fun h => absurd h hl.ne) (by rwa [View.lock_unlock])

theorem obeys_leave {m : Mode} {f : Unit → Prog K V α} (h : v.Only [.builder])
    (hf : Obeys (f ()) v Φ) : Obeys (act (.unlock .routing) >>= f) (v.lock .routing m) Φ := by
  refine obeys_unlock (fun _ l' m' hin hm => ?_) (by rwa [View.lock_unlock])
  rcases View.mem_lock.mp hm with he | hm
  · cases he
    cases hin
  · cases List.mem_singleton.mp (h l' m' hm)
    cases hin

theorem obeys_push {g : Guard K V} {f : Unit → Prog K V α} (h : g.lock? = none)
    (hf : Obeys (f ()) v.push Φ) : Obeys (act (.push g) >>= f) v Φ :=
  ⟨h, fun _ _ hv => hv ▸ hf⟩

theorem obeys_pop {f : Unit → Prog K V α} (hf : Obeys (f ()) v Φ) :
    Obeys (act .pop >>= f) v.push Φ :=
  ⟨rfl, fun _ v' hv => by
    rw [(hv : v' = v.push.pop), View.push_pop]
    exact hf⟩

theorem obeys_shards {f : Slots → Prog K V α} (h : v.Sharing ∨ v.Excluding)
    (hf : ∀ T, v.topology.Grows T → Obeys (f T.shards) (v.learn T) Φ) :
    Obeys (act .shards >>= f) v Φ :=
  ⟨h, fun _ _ ⟨T, hT, hr, hv⟩ => by
    subst hr hv
    exact hf T hT⟩

theorem obeys_previous {f : Option Slots → Prog K V α} (h : v.Sharing ∨ v.Excluding)
    (hf : Obeys (f v.topology.previous) v Φ) : Obeys (act .previous >>= f) v Φ :=
  ⟨h, fun _ _ ⟨hr, hv⟩ => by
    subst hr hv
    exact hf⟩

theorem obeys_initSlot {i : Nat} {f : Nat → Prog K V α} (h : v.Sharing ∨ v.Excluding)
    (hf : ∀ id T, v.topology.Grows T → T.shards[i]? = some (some id) →
      Obeys (f id) (v.learn T) Φ) : Obeys (act (.initSlot i) >>= f) v Φ :=
  ⟨h, fun r _ ⟨T, hT, hi, hv⟩ => by
    subst hv
    exact hf r T hT hi⟩

def plain : Act K V → Bool
  | .lock _ _ | .unlock _ | .push _ | .pop | .shards | .previous | .initSlot _ | .install _
  | .setPrevious _ => false
  | _ => true

theorem obeys_act {a : Act K V} {f : Resp a → Prog K V α} (ha : plain a = true)
    (hf : ∀ r, Obeys (f r) v Φ) : Obeys (act a >>= f) v Φ := by
  cases a with
  | lock | unlock | push | pop | shards | previous | initSlot | install | setPrevious => cases ha
  | _ => exact ⟨trivial, fun r _ hv => hv ▸ hf r⟩

theorem obeys_ite {c : Prop} [Decidable c] {p q : Prog K V α} (hp : Obeys p v Φ)
    (hq : Obeys q v Φ) : Obeys (if c then p else q) v Φ := by
  by_cases h : c
  · rwa [if_pos h]
  · rwa [if_neg h]

theorem neutral_act {a : Act K V} (ha : plain a = true) : Neutral (act a) := fun _ _ hΦ =>
  obeys_act ha (f := .done) hΦ

theorem obeys_crash : Obeys (crash : Prog K V α) v Φ := ⟨trivial, fun r => nomatch r⟩

theorem neutral_crash : Neutral (crash : Prog K V α) := fun _ _ _ => obeys_crash

theorem neutral_diverge : Neutral (diverge : Prog K V α) :=
  fun _ _ _ => ⟨trivial, fun r => nomatch r⟩

end Actions
end Locking
end Starshard
