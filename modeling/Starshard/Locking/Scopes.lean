import Starshard.Locking.Rules
import Starshard.Sync.Eviction

/-! Scopes. What a program may rely on in a scope is a condition on the owned locks
and a relation between the directories before and after it. -/
namespace Starshard.Locking

open Data Concurrent

variable {K V : Type}

structure Scope where
  holds : View → Prop
  rel : Topology → Topology → Prop
  refl : ∀ T, rel T T
  trans : ∀ {T T' T''}, rel T T' → rel T' T'' → rel T T''
  stable : ∀ {v T}, holds v → rel v.topology T → holds (v.learn T)

namespace Scope

variable {α β γ : Type} (S : Scope)

/-- In its scope the program is disciplined and releases what it takes. -/
def Runs (p : Prog K V α) : Prop :=
  ∀ v, S.holds v → ∀ Φ : α → View → Prop,
    (∀ x T, S.rel v.topology T → Φ x (v.learn T)) → Obeys p v Φ

variable {S}

theorem Runs.seq {p : Prog K V α} {f : α → Prog K V β} (h : S.Runs p)
    (hf : ∀ x, S.Runs (f x)) : S.Runs (p >>= f) := fun v hv Φ hΦ =>
  Discipline.Obeys.bind (h v hv _ fun x _ hT =>
    hf x _ (S.stable hv hT) Φ fun y _ hT' => hΦ y _ (S.trans hT hT'))

theorem runs_of_neutral {p : Prog K V α} (h : Neutral p) : S.Runs p := fun v _ Φ hΦ =>
  h v Φ fun x => hΦ x v.topology (S.refl _)

theorem runs_done (x : α) : S.Runs (.done x : Prog K V α) := runs_of_neutral (.done x)

theorem runs_act {a : Act K V} (ha : plain a = true) : S.Runs (act a) :=
  runs_of_neutral (neutral_act ha)

theorem runs_crash : S.Runs (crash : Prog K V α) := runs_of_neutral neutral_crash

theorem Runs.ite {c : Prop} [Decidable c] {p q : Prog K V α} (hp : S.Runs p) (hq : S.Runs q) :
    S.Runs (if c then p else q) := by
  split
  · exact hp
  · exact hq

theorem Runs.foldlM {f : β → γ → Prog K V β} {xs : List γ} (h : ∀ b, ∀ x ∈ xs, S.Runs (f b x))
    (b : β) : S.Runs (xs.foldlM f b) := by
  induction xs generalizing b with
  | nil => exact runs_done b
  | cons x xs ih =>
    rw [List.foldlM_cons]
    exact (h b x (List.mem_cons_self ..)).seq fun b' =>
      ih (fun b y hy => h b y (List.mem_cons_of_mem _ hy)) b'

theorem Runs.mapM {f : γ → Prog K V β} {xs : List γ} (h : ∀ x ∈ xs, S.Runs (f x)) :
    S.Runs (xs.mapM f) := by
  induction xs with
  | nil =>
    rw [List.mapM_nil]
    exact runs_done []
  | cons x xs ih =>
    rw [List.mapM_cons]
    exact (h x (List.mem_cons_self ..)).seq fun y =>
      (ih fun z hz => h z (List.mem_cons_of_mem _ hz)).seq fun ys => runs_done _

end Scope

/-- Routing is shared and no lock from the active directory on is owned. -/
def joint : Scope where
  holds v := v.Sharing ∧ v.Below (toLex (2, 0))
  rel := Topology.Grows
  refl := .refl
  trans := .trans
  stable h hT := ⟨h.1, h.2.learn hT⟩

/-- Routing is exclusive and no inner lock is owned. -/
def sole : Scope where
  holds v := v.Excluding ∧ ∀ (l : LockId) m, l.inner = true → some (l, m) ∉ v.stack
  rel _ _ := True
  refl _ := trivial
  trans _ _ := trivial
  stable h _ := h

/-- No lock is owned. -/
def alone : Scope where
  holds v := v.Only []
  rel _ _ := True
  refl _ := trivial
  trans _ _ := trivial
  stable h _ := h

section Scopes

variable {α β : Type} {v : View} {l : LockId} {m : Mode} {Φ : β → View → Prop}

theorem sole_mayLock (h : sole.holds v) (hl : l.inner) : v.MayLock l m := by
  cases l with
  | active | previous | shard => exact .inl ⟨h.1, fun m' => h.2 _ m' hl⟩
  | builder | rebalance | routing | cache => cases hl

theorem joint_directory (h : joint.holds v) : v.MayLock .active m :=
  .inr ⟨h.1, _, .directory, h.2⟩

theorem joint_previous (h : joint.holds v) : v.MayLock .previous .shared := .inr ⟨h.1, rfl⟩

theorem joint_shard (h : joint.holds v) {i id : Nat} (hi : v.topology.shards[i]? = some (some id)) :
    v.MayLock (.shard id) m :=
  .inr ⟨h.1, _, .active hi, h.2.mono (Topology.kind_lt (by decide) _ _).le⟩

theorem joint_lock (h : joint.holds v) {i id : Nat} (hi : v.topology.shards[i]? = some (some id)) :
    (v.lock (.shard id) m).Sharing ∧ (v.lock (.shard id) m).Below (toLex (4, 0)) :=
  ⟨h.1.lock, (h.2.mono (Topology.kind_lt (by decide) _ _).le).lock (.active hi)
    (Topology.kind_lt (by decide) _ _)⟩

theorem joint_push (h : joint.holds v) : joint.holds v.push := by
  obtain ⟨hs, hb⟩ := h
  exact ⟨View.sharing_push.mpr hs, View.below_push.mpr hb⟩

theorem sole_push (h : sole.holds v) : sole.holds v.push :=
  ⟨View.excluding_push.mpr h.1, fun l m hl hm => h.2 l m hl (View.mem_push.mp hm)⟩

/-- A section under shared routing, inside an operation that owns no lock. -/
theorem obeys_shared {f : Unit → Prog K V α} {Φ : α → View → Prop} (h : v.Only [.builder])
    (hf : ∀ T, joint.holds ((v.learn T).lock .routing .shared) →
      Obeys (f ()) ((v.learn T).lock .routing .shared) Φ) :
    Obeys (act (.lock .routing .shared) >>= f) v Φ := by
  refine obeys_routing h fun T => hf T ⟨View.mem_lock.mpr (.inl rfl), ?_⟩
  intro l m hm hl
  rcases View.mem_lock.mp hm with he | hm
  · cases he
    exact ⟨_, .routing, Topology.kind_lt (by decide) _ _⟩
  · cases List.mem_singleton.mp (h l m hm)
    exact ⟨_, .builder, Topology.kind_lt (by decide) _ _⟩

theorem obeys_exclusive {f : Unit → Prog K V α} {Φ : α → View → Prop} (h : v.Only [.builder])
    (hf : ∀ T, sole.holds ((v.learn T).lock .routing .excl) →
      Obeys (f ()) ((v.learn T).lock .routing .excl) Φ) :
    Obeys (act (.lock .routing .excl) >>= f) v Φ := by
  refine obeys_routing h fun T => hf T ⟨View.mem_lock.mpr (.inl rfl), fun l m hl hm => ?_⟩
  rcases View.mem_lock.mp hm with he | hm
  · cases he
    cases hl
  · cases List.mem_singleton.mp (h l m hm)
    cases hl

theorem View.Only.builder (h : v.Only []) : v.Only [.builder] := fun l m hm =>
  absurd (h l m hm) List.not_mem_nil

end Scopes
end Starshard.Locking
