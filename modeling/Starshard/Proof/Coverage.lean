import Starshard.Proof.Topology
import Starshard.Spec.Event

/-! What the guards of a task protect.

A task that pins routing and owns the active shard of a key (or, for a key
without an active shard, the active directory) can rely on everything the key
resolves to. Exclusive routing protects the whole map. -/
namespace Starshard

open Data

variable {K V E : Type}

abbrev Guards (K V : Type) := List (Guard K V)

def Owns (gs : Guards K V) (l : LockId) : Prop := ∃ m, Guard.lock l m ∈ gs

def OwnsExcl (gs : Guards K V) (l : LockId) : Prop := Guard.lock l .excl ∈ gs

def Pinned (gs : Guards K V) : Prop := Guard.lock .routing .shared ∈ gs

def Exclusive (gs : Guards K V) : Prop := Guard.lock .routing .excl ∈ gs

theorem OwnsExcl.owns {gs : Guards K V} {l : LockId} (h : OwnsExcl gs l) : Owns gs l := ⟨_, h⟩

theorem Exclusive.owns {gs : Guards K V} (h : Exclusive gs) : Owns gs .routing := ⟨_, h⟩

theorem Pinned.owns {gs : Guards K V} (h : Pinned gs) : Owns gs .routing := ⟨_, h⟩

theorem owns_routing {gs : Guards K V} : Owns gs .routing ↔ Pinned gs ∨ Exclusive gs := by
  constructor
  · rintro ⟨m, h⟩
    cases m with
    | shared => exact .inl h
    | excl => exact .inr h
  · rintro (h | h)
    · exact h.owns
    · exact h.owns

@[simp] theorem owns_nil (l : LockId) : ¬ Owns ([] : Guards K V) l := by simp [Owns]

@[simp] theorem ownsExcl_nil (l : LockId) : ¬ OwnsExcl ([] : Guards K V) l := by simp [OwnsExcl]

@[simp] theorem owns_lock (gs : Guards K V) (l l' : LockId) (m : Mode) :
    Owns (.lock l' m :: gs) l ↔ l = l' ∨ Owns gs l := by
  constructor
  · rintro ⟨n, h⟩
    rcases List.mem_cons.mp h with h | h
    · exact .inl (by cases h; rfl)
    · exact .inr ⟨n, h⟩
  · rintro (rfl | ⟨n, h⟩)
    · exact ⟨m, by simp⟩
    · exact ⟨n, by simp [h]⟩

@[simp] theorem ownsExcl_lock (gs : Guards K V) (l l' : LockId) (m : Mode) :
    OwnsExcl (.lock l' m :: gs) l ↔ (l = l' ∧ m = .excl) ∨ OwnsExcl gs l := by
  simp [OwnsExcl, eq_comm]

@[simp] theorem pinned_lock (gs : Guards K V) (l : LockId) (m : Mode) :
    Pinned (.lock l m :: gs) ↔ (l = .routing ∧ m = .shared) ∨ Pinned gs := by
  simp [Pinned, eq_comm]

@[simp] theorem exclusive_lock (gs : Guards K V) (l : LockId) (m : Mode) :
    Exclusive (.lock l m :: gs) ↔ (l = .routing ∧ m = .excl) ∨ Exclusive gs := by
  simp [Exclusive, eq_comm]

namespace Guard

def isLocal : Guard K V → Bool
  | .lock _ _ => false
  | _ => true

end Guard

def SameLocks (gs gs' : Guards K V) : Prop := ∀ l m, Guard.lock l m ∈ gs' ↔ Guard.lock l m ∈ gs

namespace SameLocks

variable {gs gs' : Guards K V}

theorem refl (gs : Guards K V) : SameLocks gs gs := fun _ _ => .rfl

theorem owns (h : SameLocks gs gs') (l : LockId) : Owns gs' l ↔ Owns gs l := by
  simp only [Owns, h l]

theorem ownsExcl (h : SameLocks gs gs') (l : LockId) : OwnsExcl gs' l ↔ OwnsExcl gs l := h l .excl

theorem pinned (h : SameLocks gs gs') : Pinned gs' ↔ Pinned gs := h _ _

theorem exclusive (h : SameLocks gs gs') : Exclusive gs' ↔ Exclusive gs := h _ _

theorem cons {g : Guard K V} (hg : g.isLocal) : SameLocks gs (g :: gs) := by
  intro l m
  cases g <;> simp_all [Guard.isLocal]

theorem map {f : Guard K V → Guard K V} (hf : ∀ g, g.isLocal → (f g).isLocal)
    (hl : ∀ l m, f (.lock l m) = .lock l m) : SameLocks gs (gs.map f) := by
  intro l m
  rw [List.mem_map]
  constructor
  · rintro ⟨g, hg, he⟩
    cases hloc : g.isLocal with
    | true =>
      have := hf g hloc
      rw [he] at this
      cases this
    | false =>
      cases g with
      | lock l' m' =>
        rw [hl] at he
        exact he ▸ hg
      | _ => cases hloc
  · intro h
    exact ⟨_, h, hl l m⟩

end SameLocks

section Reads

variable (hash : K → Nat)

/-- The task may rely on the entry of a key. -/
def Reads (gs : Guards K V) (s : State K V E) (k : K) : Prop :=
  Exclusive gs ∨ (Pinned gs ∧ match s.home hash k with
    | some id => Owns gs (.shard id)
    | none => Owns gs .active)

/-- The task may change the entry of a key. -/
def Writes (gs : Guards K V) (s : State K V E) (k : K) : Prop :=
  Exclusive gs ∨ (Pinned gs ∧ ∃ id, s.home hash k = some id ∧ OwnsExcl gs (.shard id))

variable {hash} {gs gs' : Guards K V} {s s' : State K V E} {k : K}

theorem Writes.reads (h : Writes hash gs s k) : Reads hash gs s k := by
  rcases h with h | ⟨hp, id, hid, ho⟩
  · exact .inl h
  · exact .inr ⟨hp, by simpa [hid] using ho.owns⟩

theorem Reads.routing (h : Reads hash gs s k) : Owns gs .routing := by
  rcases h with h | ⟨h, _⟩
  · exact h.owns
  · exact h.owns

theorem Reads.congr (h : SameLocks gs gs') : Reads hash gs' s k ↔ Reads hash gs s k := by
  unfold Reads
  rw [h.exclusive, h.pinned]
  cases s.home hash k <;> simp [h.owns]

theorem Writes.congr (h : SameLocks gs gs') : Writes hash gs' s k ↔ Writes hash gs s k := by
  unfold Writes
  simp only [h.exclusive, h.pinned, h.ownsExcl]

end Reads

/-- The shared state together with the ghost state of the protocol: the contents
as of the last committed event, and the part of each shard's size that the
length counter accounts for. -/
structure World (K V E : Type) where
  st : State K V E
  abs : Contents K V
  acc : Nat → Nat

variable [DecidableEq K] {hash : K → Nat} {gs gs' : Guards K V} {w w' w'' : World K V E}

/-- What `w'` shares with `w` for a task that owned `gs` in between. -/
structure Agree (hash : K → Nat) (gs : Guards K V) (w w' : World K V E) : Prop where
  shardCount : Owns gs .routing → w'.st.shardCount = w.st.shardCount
  previousShardCount : Owns gs .routing → w'.st.previousShardCount = w.st.previousShardCount
  previous : Owns gs .routing → w'.st.previous = w.st.previous
  layout : Owns gs .routing → w'.st.tracker.layout = w.st.tracker.layout
  slots : Owns gs .routing → ∀ (i id : Nat), w.st.shards[i]? = some (some id) →
    w'.st.shards[i]? = some (some id)
  active : Owns gs .routing → Owns gs .active → w'.st.shards = w.st.shards
  heap : ∀ id, Owns gs (.shard id) → w'.st.heap id = w.st.heap id
  acc : ∀ id, Owns gs (.shard id) → w'.acc id = w.acc id
  prev : ∀ k, Reads hash gs w.st k → w'.st.prevLookup hash k = w.st.prevLookup hash k
  abs : ∀ k, Reads hash gs w.st k → w'.abs k = w.abs k
  exclusive : Exclusive gs → State.SameCore w.st w'.st ∧ w'.acc = w.acc

namespace Agree

theorem refl (gs : Guards K V) (w : World K V E) : Agree hash gs w w where
  shardCount _ := rfl
  previousShardCount _ := rfl
  previous _ := rfl
  layout _ := rfl
  slots _ _ _ h := h
  active _ _ := rfl
  heap _ _ := rfl
  acc _ _ := rfl
  prev _ _ := rfl
  abs _ _ := rfl
  exclusive _ := ⟨.refl _, rfl⟩

theorem home_some (h : Agree hash gs w w') (hr : Owns gs .routing) {k : K} {id : Nat}
    (hk : w.st.home hash k = some id) : w'.st.home hash k = some id := by
  rw [State.home_eq_some] at hk ⊢
  rw [h.shardCount hr]
  exact h.slots hr _ _ hk

theorem home_none (h : Agree hash gs w w') (hr : Owns gs .routing) (ha : Owns gs .active) (k : K) :
    w'.st.home hash k = w.st.home hash k := by
  simp only [State.home, h.active hr ha, h.shardCount hr]

theorem home_of_reads (h : Agree hash gs w w') {k : K} (hk : Reads hash gs w.st k) :
    w'.st.home hash k = w.st.home hash k := by
  rcases hk with hk | ⟨hp, hk⟩
  · exact (h.exclusive hk).1.tables.home k
  · cases hid : w.st.home hash k with
    | some id => exact h.home_some hp.owns hid
    | none =>
      rw [hid] at hk
      exact (h.home_none hp.owns hk k).trans hid

theorem reads (h : Agree hash gs w w') {k : K} (hk : Reads hash gs w.st k) :
    Reads hash gs w'.st k := by
  have hh := h.home_of_reads hk
  unfold Reads at hk ⊢
  rwa [hh]

theorem writes (h : Agree hash gs w w') {k : K} (hk : Writes hash gs w.st k) :
    Writes hash gs w'.st k := by
  have hh := h.home_of_reads hk.reads
  unfold Writes at hk ⊢
  rwa [hh]

theorem trans (h : Agree hash gs w w') (h' : Agree hash gs w' w'') : Agree hash gs w w'' where
  shardCount hr := (h'.shardCount hr).trans (h.shardCount hr)
  previousShardCount hr := (h'.previousShardCount hr).trans (h.previousShardCount hr)
  previous hr := (h'.previous hr).trans (h.previous hr)
  layout hr := (h'.layout hr).trans (h.layout hr)
  slots hr i id hi := h'.slots hr i id (h.slots hr i id hi)
  active hr ha := (h'.active hr ha).trans (h.active hr ha)
  heap id ho := (h'.heap id ho).trans (h.heap id ho)
  acc id ho := (h'.acc id ho).trans (h.acc id ho)
  prev k hk := (h'.prev k (h.reads hk)).trans (h.prev k hk)
  abs k hk := (h'.abs k (h.reads hk)).trans (h.abs k hk)
  exclusive hx :=
    ⟨(h.exclusive hx).1.trans (h'.exclusive hx).1, (h'.exclusive hx).2.trans (h.exclusive hx).2⟩

theorem mono (h : Agree hash gs w w') (hg : ∀ l m, Guard.lock l m ∈ gs' → Guard.lock l m ∈ gs) :
    Agree hash gs' w w' := by
  have ho : ∀ l, Owns gs' l → Owns gs l := fun l ⟨m, hm⟩ => ⟨m, hg l m hm⟩
  have hk : ∀ k, Reads hash gs' w.st k → Reads hash gs w.st k := by
    rintro k (hk | ⟨hp, hk⟩)
    · exact .inl (hg _ _ hk)
    · refine .inr ⟨hg _ _ hp, ?_⟩
      cases hid : w.st.home hash k <;> rw [hid] at hk <;> exact ho _ hk
  exact {
    shardCount := fun hr => h.shardCount (ho _ hr)
    previousShardCount := fun hr => h.previousShardCount (ho _ hr)
    previous := fun hr => h.previous (ho _ hr)
    layout := fun hr => h.layout (ho _ hr)
    slots := fun hr => h.slots (ho _ hr)
    active := fun hr ha => h.active (ho _ hr) (ho _ ha)
    heap := fun id hi => h.heap id (ho _ hi)
    acc := fun id hi => h.acc id (ho _ hi)
    prev := fun k hr => h.prev k (hk k hr)
    abs := fun k hr => h.abs k (hk k hr)
    exclusive := fun hx => h.exclusive (hg _ _ hx) }

theorem activeLookup (h : Agree hash gs w w') {k : K} (hk : Reads hash gs w.st k) :
    w'.st.activeLookup hash k = w.st.activeLookup hash k := by
  have hh := h.home_of_reads hk
  rcases hk with hk | ⟨hp, hk⟩
  · exact (h.exclusive hk).1.tables.activeLookup k
  · rw [State.activeLookup, hh, State.activeLookup]
    cases hid : w.st.home hash k with
    | none => rfl
    | some id =>
      rw [hid] at hk
      simp [h.heap id hk]

theorem contents (h : Agree hash gs w w') {k : K} (hk : Reads hash gs w.st k) :
    w'.st.contents hash k = w.st.contents hash k := by
  rw [State.contents, h.activeLookup hk, h.prev k hk, State.contents]

/-- Shards are only added while routing is owned. -/
theorem live (h : Agree hash gs w w') (hr : Owns gs .routing) {id : Nat} (hid : id ∈ w.st.live) :
    id ∈ w'.st.live := by
  rw [State.mem_live] at hid ⊢
  rw [h.previous hr]
  exact hid.imp_left fun ⟨i, hi⟩ => ⟨i, h.slots hr i id hi⟩

theorem of_unrouted (hr : ¬ Owns gs .routing) (hs : ∀ id, ¬ Owns gs (.shard id)) :
    Agree hash gs w w' where
  shardCount h := absurd h hr
  previousShardCount h := absurd h hr
  previous h := absurd h hr
  layout h := absurd h hr
  slots h := absurd h hr
  active h := absurd h hr
  heap id h := absurd h (hs id)
  acc id h := absurd h (hs id)
  prev _ h := absurd h.routing hr
  abs _ h := absurd h.routing hr
  exclusive h := absurd h.owns hr

theorem of_sameCore (hs : State.SameCore w.st w'.st) (ha : w'.abs = w.abs)
    (hc : w'.acc = w.acc) : Agree hash gs w w' where
  shardCount _ := hs.shardCount
  previousShardCount _ := hs.previousShardCount
  previous _ := hs.previous
  layout _ := hs.layout
  slots _ i id h := hs.shards ▸ h
  active _ _ := hs.shards
  heap id _ := by rw [hs.heap]
  acc id _ := by rw [hc]
  prev k _ := hs.tables.prevLookup k
  abs k _ := by rw [ha]
  exclusive _ := ⟨hs, hc⟩

end Agree

/-- Everything the guards protect is committed and accounted for. -/
structure Clean (hash : K → Nat) (gs : Guards K V) (w : World K V E) : Prop where
  wellFormed : Owns gs .routing → w.st.WellFormed hash
  total : Exclusive gs → w.st.totalLen = (w.st.live.map w.acc).sum
  acc : ∀ id, Exclusive gs ∨ Owns gs (.shard id) → w.acc id = (w.st.heap id).size
  contents : ∀ k, Reads hash gs w.st k → w.abs k = w.st.contents hash k

end Starshard
