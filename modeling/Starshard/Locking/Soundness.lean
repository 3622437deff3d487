import Starshard.Locking.Layout
import Starshard.Proof.Directory

/-! What disciplined operations keep true of the locks and the directories, over any
interleaving. -/
namespace Starshard.Locking

open Data Concurrent
open Function (update)

variable {K V : Type}

section Unwinding

/-- An action of a call that ends early: it takes no lock and leaves the directories. -/
def harmless : Act K V → Bool
  | .lock _ _ | .push _ | .initSlot _ | .install _ | .setPrevious _ => false
  | _ => true

def Harmless {α : Type} : Prog K V α → Prop
  | .done _ => True
  | .step a k => harmless a = true ∧ ∀ r, Harmless (k r)

variable {α β : Type}

theorem Harmless.bind {p : Prog K V α} {f : α → Prog K V β} (h : Harmless p)
    (hf : ∀ x, Harmless (f x)) : Harmless (p >>= f) := by
  induction p with
  | done x => exact hf x
  | step a k ih => exact ⟨h.1, fun r => ih r (h.2 r)⟩

theorem harmless_act {a : Act K V} (ha : harmless a = true) : Harmless (act a) := ⟨ha, fun _ => trivial⟩

theorem Harmless.ite {c : Prop} [Decidable c] {p q : Prog K V α} (hp : Harmless p)
    (hq : Harmless q) : Harmless (if c then p else q) := by
  split
  · exact hp
  · exact hq

theorem shardMutation_drop_harmless (id : Nat) : Harmless (ShardMutation.drop id : Prog K V Unit) := by
  have hpop : Harmless (act .pop : Prog K V Unit) := harmless_act rfl
  have hend : ∀ (c : Prop) [Decidable c], Harmless (if c
      then (act .bump >>= fun _ => act .pop : Prog K V Unit) else act .pop) := fun c _ =>
    .ite ((harmless_act rfl).bind fun _ => hpop) hpop
  refine ⟨rfl, fun (o : Nat × Bool) => ⟨rfl, fun (n : Nat) => ?_⟩⟩
  exact .ite ((harmless_act (a := .addLen _) rfl).bind fun _ => hend _)
    (.ite ((harmless_act (a := .subLen _) rfl).bind fun _ => hend _) (hend _))

theorem Guard.drop_harmless (g : Guard K V) : Harmless g.drop := by
  have hpop : Harmless (act .pop : Prog K V Unit) := harmless_act rfl
  have hseq : ∀ {a : Act K V} {p : Prog K V Unit}, harmless a = true → Harmless p →
      Harmless (act a >>= fun _ => p) := fun ha hp => (harmless_act ha).bind fun _ => hp
  cases g with
  | lock l m => exact harmless_act rfl
  | mutation id n c => exact shardMutation_drop_harmless id
  | ticket => exact hseq rfl hpop
  | operation => exact hseq rfl (hseq rfl hpop)
  | prepared k => exact hseq rfl hpop
  | timer generation started budget => exact (harmless_act rfl).bind fun _ => hseq rfl hpop
  | batch started entries => exact (harmless_act rfl).bind fun _ => hseq rfl (hseq rfl hpop)
  | dispatch entries => exact hseq rfl hpop

theorem unwind_harmless (gs : List (Guard K V)) : Harmless (Guard.unwind gs) := by
  induction gs with
  | nil => trivial
  | cons g gs ih => exact (Guard.drop_harmless g).bind fun _ => ih

end Unwinding

section Layouts

variable {E : Type} {s : State K V E} {T : Topology}

theorem allocate_fresh (next : Nat) (maps : List (Option (Assoc K V))) :
    (allocatedShards (allocate next maps)).Nodup ∧
      ∀ id ∈ allocatedShards (allocate next maps), next ≤ id ∧ id < next + maps.length := by
  induction maps generalizing next with
  | nil => exact ⟨List.nodup_nil, nofun⟩
  | cons map maps ih =>
    obtain ⟨hn, hb⟩ := ih (next + 1)
    have hb' : ∀ id ∈ allocatedShards (allocate (next + 1) maps),
        next + 1 ≤ id ∧ id < next + (map :: maps).length := fun id hid => by
      have := hb id hid
      rw [List.length_cons]
      omega
    cases map with
    | none => exact ⟨hn, fun id hid => ⟨Nat.le_of_succ_le (hb' id hid).1, (hb' id hid).2⟩⟩
    | some map =>
      refine ⟨List.nodup_cons.mpr ⟨fun hid => ?_, hn⟩, fun id hid => ?_⟩
      · have := (hb' next hid).1
        omega
      · rcases List.mem_cons.mp hid with rfl | hid
        · rw [List.length_cons]
          omega
        · exact ⟨Nat.le_of_succ_le (hb' id hid).1, (hb' id hid).2⟩

/-- The layout after new shards were installed. -/
def installed (T : Topology) (maps : List (Option (Assoc K V))) : Topology where
  shards := allocate T.next maps
  previous := T.previous
  next := T.next + maps.length
  distinct := List.nodup_append.mpr ⟨(allocate_fresh T.next maps).1, T.distinct.of_append_right,
    fun a ha b hb hab => by
      have h₁ := ((allocate_fresh T.next maps).2 a ha).1
      have h₂ := T.bound b (List.mem_append_right _ hb)
      omega⟩
  bound id hid := by
    rcases List.mem_append.mp hid with h | h
    · exact ((allocate_fresh T.next maps).2 id h).2
    · exact (T.bound id (List.mem_append_right _ h)).trans_le (Nat.le_add_right ..)

theorem exists_initialised {i : Nat} (h : T.shards[i]? = some none) :
    ∃ T' : Topology, T'.shards = T.shards.set i (some T.next) ∧ T'.previous = T.previous ∧
      T'.next = T.next + 1 := by
  have hperm := allocatedShards_set (n := T.next) h
  have hp : (allocatedShards (T.shards.set i (some T.next)) ++
      allocatedShards (T.previous.getD [])).Perm
      (T.next :: (allocatedShards T.shards ++ allocatedShards (T.previous.getD []))) :=
    hperm.append_right _
  refine ⟨⟨_, T.previous, T.next + 1, hp.nodup_iff.mpr (List.nodup_cons.mpr
    ⟨fun hid => Nat.lt_irrefl _ (T.bound _ hid), T.distinct⟩), fun id hid => ?_⟩, rfl, rfl, rfl⟩
  rcases List.mem_cons.mp (hp.subset hid) with rfl | hid
  · exact Nat.lt_succ_self _
  · exact (T.bound id hid).trans (Nat.lt_succ_self _)

theorem grows_initialised {T' : Topology} {i : Nat} (h : T.shards[i]? = some none)
    (hs : T'.shards = T.shards.set i (some T.next)) (hp : T'.previous = T.previous) : T.Grows T' where
  shards j id hj := by
    have hne : i ≠ j := by
      rintro rfl
      rw [h] at hj
      cases hj
    rw [hs, List.getElem?_set_ne hne]
    exact hj
  previous := hp

end Layouts

section Steps

variable [DecidableEq K] {env : Env K V} {L : Lifecycle K V} {G : Nat → List (Guard K V)} {t u : Nat}
  {s s' : State K V L.State} {a : Act K V} {r : Resp a} {gs : List (Guard K V)} {v w : View}
  {T : Topology}

abbrev stackOf (gs : List (Guard K V)) : List (Option (LockId × Mode)) := gs.map Guard.lock?

/-- A view describes what a task owns, and does not contradict the state. -/
structure Fits (v : View) (gs : List (Guard K V)) {E : Type} (s : State K V E) : Prop where
  stack : v.stack = stackOf gs
  sharing : v.Sharing → ∃ T : Topology, T.Describes s ∧ v.topology.Grows T
  excluding : v.Excluding → v.topology.Describes s
  inner : ∀ l m, l.inner = true → some (l, m) ∈ v.stack → v.Sharing ∨ v.Excluding
  writer : some (.previous, .excl) ∈ v.stack → v.Excluding
  single : v.Sharing → ¬ v.Excluding

/-- No two tasks own one lock unless both share it. -/
def Mutex (G : Nat → List (Guard K V)) : Prop :=
  ∀ t u, t ≠ u → ∀ l m m', some (l, m) ∈ stackOf (G t) → some (l, m') ∈ stackOf (G u) →
    m = .shared ∧ m' = .shared

omit [DecidableEq K] in
theorem lock?_mark (id : Nat) (g : Guard K V) : (g.mark id).lock? = g.lock? := by
  cases g <;> rfl

omit [DecidableEq K] in
theorem lock?_retire (k : K) (x : V) (g : Guard K V) : (g.retire k x).lock? = g.lock? := by
  cases g <;> rfl

omit [DecidableEq K] in
theorem stackOf_map {f : Guard K V → Guard K V} (h : ∀ g, (f g).lock? = g.lock?)
    (gs : List (Guard K V)) : stackOf (gs.map f) = stackOf gs := by
  unfold stackOf
  rw [List.map_map]
  exact List.map_congr_left fun g _ => h g

omit [DecidableEq K] in
theorem stackOf_erase (l : LockId) (gs : List (Guard K V)) :
    stackOf (gs.eraseP (Guard.holds l)) = (stackOf gs).eraseP (View.owns l) := by
  have hown : (fun g : Guard K V => View.owns l g.lock?) = Guard.holds l := by
    funext g
    cases g <;> rfl
  unfold stackOf
  rw [List.eraseP_map]
  exact congrArg (fun p => (gs.eraseP p).map Guard.lock?) hown.symm

theorem exec_stack (h : exec L G t a s r s' gs) {g : LockId × Mode} (hg : some g ∈ stackOf gs) :
    some g ∈ stackOf (G t) ∨ a = .lock g.1 g.2 ∨ ∃ x, a = .push x ∧ x.lock? = some g := by
  cases a with
  | lock l m =>
    obtain ⟨-, -, rfl⟩ := h
    rcases List.mem_cons.mp hg with he | hg
    · cases he
      exact .inr (.inl rfl)
    · exact .inl hg
  | unlock l =>
    obtain ⟨-, rfl⟩ := h
    rw [stackOf_erase] at hg
    exact .inl (List.mem_of_mem_eraseP hg)
  | push x =>
    obtain ⟨-, rfl⟩ := h
    rcases List.mem_cons.mp hg with he | hg
    · exact .inr (.inr ⟨x, rfl, he.symm⟩)
    · exact .inl hg
  | pop =>
    obtain ⟨-, rfl⟩ := h
    unfold stackOf at hg
    rw [List.map_tail] at hg
    exact .inl (List.mem_of_mem_tail hg)
  | mark id =>
    obtain ⟨-, rfl⟩ := h
    rw [stackOf_map (lock?_mark id)] at hg
    exact .inl hg
  | retire k x =>
    obtain ⟨-, rfl⟩ := h
    rw [stackOf_map (lock?_retire k x)] at hg
    exact .inl hg
  | crash | diverge => exact h.elim
  | initSlot i =>
    obtain ⟨rfl, -⟩ := h
    exact .inl hg
  | _ =>
    obtain rfl : gs = G t := by first | exact h.2 | exact h.2.2 | exact h.2.1
    exact .inl hg

/-- The locks are granted as the machine grants them. -/
theorem Mutex.exec (hm : Mutex G) (hpush : ∀ x, a = .push x → x.lock? = none)
    (h : exec L G t a s r s' gs) : Mutex (update G t gs) := by
  -- a lock that the step adds was free
  have hnew : ∀ l m u m', u ≠ t → some (l, m) ∈ stackOf gs → some (l, m') ∈ stackOf (G u) →
      m = .shared ∧ m' = .shared := by
    intro l m u m' hu hg hg'
    rcases exec_stack h hg with hold | rfl | ⟨x, rfl, hx⟩
    · exact hm t u (Ne.symm hu) l m m' hold hg'
    · obtain ⟨x, hx, hlock⟩ := List.mem_map.mp hg'
      have hfree := h.1 u x hx
      cases x with
      | lock l' n =>
        cases hlock
        rw [Guard.excludes_lock] at hfree
        cases m <;> cases m' <;> simp_all
      | _ => cases hlock
    · rw [hpush x rfl] at hx
      cases hx
  intro a' b hab l m m' ha hb
  by_cases h1 : a' = t
  · subst h1
    rw [Function.update_self] at ha
    rw [Function.update_of_ne (Ne.symm hab)] at hb
    exact hnew l m b m' (Ne.symm hab) ha hb
  · rw [Function.update_of_ne h1] at ha
    by_cases h2 : b = t
    · subst h2
      rw [Function.update_self] at hb
      exact (hnew l m' a' m h1 hb ha).symm
    · rw [Function.update_of_ne h2] at hb
      exact hm a' b hab l m m' ha hb

/-- How a step changes the directories. -/
theorem exec_directories (h : exec L G t a s r s' gs) (hT : T.Describes s) :
    T.Describes s' ∨
      (∃ i T', a = .initSlot i ∧ T.shards[i]? = some none ∧ T.Grows T' ∧ T'.Describes s') ∨
      (∃ maps, a = .install maps ∧ (installed T maps).Describes s') ∨
      (∃ slots, a = .setPrevious slots ∧ s'.shards = s.shards ∧ s'.previous = slots ∧
        s'.next = s.next) := by
  cases a with
  | crash | diverge => exact h.elim
  | initSlot i =>
    obtain ⟨-, h⟩ := h
    rw [hT.shards] at h
    cases hi : T.shards[i]? with
    | none =>
      rw [hi] at h
      exact h.elim
    | some slot =>
      rw [hi] at h
      cases slot with
      | some id =>
        obtain ⟨-, rfl⟩ := h
        exact .inl hT
      | none =>
        obtain ⟨-, rfl⟩ := h
        obtain ⟨T', hs, hp, hn⟩ := exists_initialised hi
        refine .inr (.inl ⟨i, T', rfl, hi, grows_initialised hi hs hp, ?_, ?_, ?_⟩)
        · rw [hs, hT.next]
        · rw [hp]
          exact hT.previous
        · rw [hn, ← hT.next]
  | install maps =>
    obtain ⟨-, -, rfl⟩ := h
    refine .inr (.inr (.inl ⟨maps, rfl, ?_, hT.previous, ?_⟩))
    · rw [hT.next]
      rfl
    · exact congrArg (· + maps.length) hT.next
  | setPrevious slots =>
    obtain ⟨-, -, rfl⟩ := h
    exact .inr (.inr (.inr ⟨slots, rfl, rfl, rfl, rfl⟩))
  | life c =>
    obtain ⟨⟨e, -, rfl⟩, -⟩ := h
    exact .inl ⟨hT.shards, hT.previous, hT.next⟩
  | lock l m =>
    obtain ⟨-, rfl, -⟩ := h
    exact .inl hT
  | _ =>
    left
    first
    | (obtain ⟨rfl, -⟩ := h; exact hT)
    | (obtain ⟨-, rfl, -⟩ := h; exact hT)
    | (obtain ⟨-, -, rfl⟩ := h; exact ⟨hT.shards, hT.previous, hT.next⟩)
    | (obtain ⟨rfl, -⟩ := h; exact ⟨hT.shards, hT.previous, hT.next⟩)
    | (obtain ⟨-, rfl, -⟩ := h; exact ⟨hT.shards, hT.previous, hT.next⟩)

omit [DecidableEq K] in
theorem Fits.same (hv : Fits v gs s) (hT : ∀ T : Topology, T.Describes s → T.Describes s') :
    Fits v gs s' :=
  { hv with
    sharing := fun hs => by
      obtain ⟨T, hd, hg⟩ := hv.sharing hs
      exact ⟨T, hT T hd, hg⟩
    excluding := fun hx => hT _ (hv.excluding hx) }

/-- What another task relies on survives a step of task `t`. -/
theorem Fits.other (hw : Fits w (G u) s) (hv : Fits v (G t) s) (hut : u ≠ t) (hm : Mutex G)
    (hadm : (discipline K V).admits v a) (h : exec L G t a s r s' gs) : Fits w (G u) s' := by
  -- an exclusive owner of routing excludes every other owner
  have hexcl : ∀ {x y : View} {i j : Nat}, i ≠ j → Fits x (G i) s → Fits y (G j) s →
      x.Excluding → ¬ (y.Sharing ∨ y.Excluding) := by
    intro x y i j hij hx hy hxe hyr
    unfold View.Excluding View.Sharing at *
    rw [hx.stack] at hxe
    rw [hy.stack] at hyr
    rcases hyr with hy' | hy'
    · cases (hm i j hij _ _ _ hxe hy').1
    · cases (hm i j hij _ _ _ hxe hy').1
  have hout : v.Excluding → Fits w (G u) s' := fun hx => by
    have hno := hexcl (Ne.symm hut) hv hw hx
    exact { hw with
      sharing := fun hs => absurd (.inl hs) hno
      excluding := fun he => absurd (.inr he) hno }
  cases a with
  | install maps => exact hout hadm
  | setPrevious slots => exact hout hadm.1
  | initSlot i =>
    refine { hw with sharing := fun hs => ?_, excluding := fun he => ?_ }
    · obtain ⟨T, hd, hg⟩ := hw.sharing hs
      rcases exec_directories h hd with hd' | ⟨_, T', _, _, hg', hd'⟩ | ⟨_, he, _⟩ | ⟨_, he, _⟩
      · exact ⟨T, hd', hg⟩
      · exact ⟨T', hd', hg.trans hg'⟩
      · cases he
      · cases he
    · exact absurd hadm (hexcl hut hw hv he)
  | _ =>
    refine hw.same fun T hd => ?_
    rcases exec_directories h hd with hd' | ⟨_, _, he, _⟩ | ⟨_, he, _⟩ | ⟨_, he, _⟩
    · exact hd'
    · cases he
    · cases he
    · cases he

omit [DecidableEq K] in
theorem Fits.drop (hv : Fits v (G t) s) (hT : ∀ T : Topology, T.Describes s → T.Describes s')
    (hst : w.stack = stackOf gs) (htop : w.topology = v.topology)
    (hsub : ∀ g, some g ∈ w.stack → some g ∈ v.stack)
    (hin : ∀ l m, l.inner = true → some (l, m) ∈ w.stack → w.Sharing ∨ w.Excluding)
    (hwr : some (.previous, .excl) ∈ w.stack → w.Excluding) : Fits w gs s' where
  stack := hst
  sharing hs := by
    obtain ⟨T, hd, hg⟩ := hv.sharing (hsub _ hs)
    exact ⟨T, hT T hd, htop ▸ hg⟩
  excluding hx := htop ▸ hT _ (hv.excluding (hsub _ hx))
  inner := hin
  writer := hwr
  single hs hx := hv.single (hsub _ hs) (hsub _ hx)

omit [DecidableEq K] in
theorem Fits.lock {l : LockId} {m : Mode} (hv : Fits v (G t) s) (h : v.MayLock l m)
    (hl : l ≠ .routing) : Fits (v.lock l m) (.lock l m :: G t) s where
  stack := congrArg (some (l, m) :: ·) hv.stack
  sharing hs := by
    rcases View.mem_lock.mp hs with he | hs
    · cases he
      exact absurd rfl hl
    · exact hv.sharing hs
  excluding hx := by
    rcases View.mem_lock.mp hx with he | hx
    · cases he
      exact absurd rfl hl
    · exact hv.excluding hx
  inner l' m' hin hm := by
    have hr : v.Sharing ∨ v.Excluding := by
      rcases View.mem_lock.mp hm with he | hm
      · cases he
        cases l with
        | active | previous | shard => exact h.elim (fun h => .inr h.1) fun h => .inl h.1
        | builder | rebalance | routing | cache => cases hin
      · exact hv.inner l' m' hin hm
    exact hr.imp .lock .lock
  writer hm := by
    rcases View.mem_lock.mp hm with he | hm
    · cases he
      rcases h with h | ⟨-, h⟩
      · exact h.1.lock
      · cases h
    · exact (hv.writer hm).lock
  single hs hx := by
    rcases View.mem_lock.mp hs with he | hs
    · cases he
      exact hl rfl
    · rcases View.mem_lock.mp hx with he | hx
      · cases he
        exact hl rfl
      · exact hv.single hs hx

omit [DecidableEq K] in
theorem Fits.routing {m : Mode} (hv : Fits v (G t) s) (h : v.Only [.builder])
    (hT : T.Describes s) : Fits ((v.lock .routing m).learn T) (.lock .routing m :: G t) s where
  stack := congrArg (some (LockId.routing, m) :: ·) hv.stack
  sharing _ := ⟨T, hT, .refl T⟩
  excluding _ := hT
  inner l m' hin hm := by
    rcases View.mem_lock.mp hm with he | hm
    · cases he
      cases hin
    · cases List.mem_singleton.mp (h l m' hm)
      cases hin
  writer hm := by
    rcases View.mem_lock.mp hm with he | hm
    · cases he
    · cases List.mem_singleton.mp (h _ _ hm)
  single hs hx := by
    rcases View.mem_lock.mp hs with he | hs
    · cases he
      rcases View.mem_lock.mp hx with he | hx
      · cases he
      · cases List.mem_singleton.mp (h _ _ hx)
    · cases List.mem_singleton.mp (h _ _ hs)

omit [DecidableEq K] in
theorem Fits.learn (hv : Fits v gs s) (hT : T.Describes s') : Fits (v.learn T) gs s' :=
  { hv with
    sharing := fun _ => ⟨T, hT, .refl T⟩
    excluding := fun _ => hT }

theorem exec_initSlot {i : Nat} {id : Nat} (h : exec L G t (.initSlot i) s id s' gs) :
    s'.shards[i]? = some (some id) := by
  obtain ⟨-, h⟩ := h
  cases hi : s.shards[i]? with
  | none =>
    rw [hi] at h
    exact h.elim
  | some slot =>
    rw [hi] at h
    cases slot with
    | some id' =>
      obtain ⟨rfl, rfl⟩ := h
      exact hi
    | none =>
      obtain ⟨rfl, rfl⟩ := h
      exact List.getElem?_set_self (List.getElem?_eq_some_iff.mp hi).1

/-- A step of a disciplined task leads to a view that the discipline allows. -/
theorem Fits.exec (hv : Fits v (G t) s) (hT : T.Describes s)
    (hadm : (discipline K V).admits v a) (h : exec L G t a s r s' gs) :
    ∃ v', (discipline K V).answers v a r v' ∧ Fits v' gs s' := by
  -- under routing the task's knowledge can be brought up to date
  have hknown : v.Sharing ∨ v.Excluding → v.topology.Grows T := by
    rintro (hs | hx)
    · obtain ⟨T', hd, hg⟩ := hv.sharing hs
      exact hd.unique hT ▸ hg
    · exact (hv.excluding hx).unique hT ▸ .refl _
  have hsame : ∀ {T : Topology}, T.Describes s → (∀ i, a ≠ .initSlot i) → (∀ m, a ≠ .install m) →
      (∀ p, a ≠ .setPrevious p) → T.Describes s' := fun {T} hd h₁ h₂ h₃ => by
    rcases exec_directories h hd with hd' | ⟨i, _, he, _⟩ | ⟨m, he, _⟩ | ⟨p, he, _⟩
    · exact hd'
    · exact absurd he (h₁ i)
    · exact absurd he (h₂ m)
    · exact absurd he (h₃ p)
  cases a with
  | crash | diverge => exact h.elim
  | lock l m =>
    obtain ⟨-, rfl, rfl⟩ := h
    by_cases hl : l = .routing
    · subst hl
      exact ⟨_, ⟨T, rfl⟩, hv.routing hadm hT⟩
    · refine ⟨v.lock l m, ?_, hv.lock hadm hl⟩
      show if l = .routing then _ else _
      rw [if_neg hl]
  | unlock l =>
    obtain ⟨rfl, rfl⟩ := h
    refine ⟨v.unlock l, rfl, hv.drop (fun _ h => h) ?_ rfl (fun g hg => List.mem_of_mem_eraseP hg)
      (fun l' m' hin hm => ?_) fun hm => ?_⟩
    · rw [stackOf_erase, ← hv.stack]
      rfl
    · have hm' := List.mem_of_mem_eraseP hm
      have hl : l ≠ .routing := fun hl => hadm hl l' m' hin hm'
      have hkeep : ∀ n, some (LockId.routing, n) ∈ v.stack → some (LockId.routing, n) ∈ (v.unlock l).stack :=
        fun n hn => (List.mem_eraseP_of_neg (by simpa [View.owns] using Ne.symm hl)).mpr hn
      exact (hv.inner l' m' hin hm').imp (hkeep _) (hkeep _)
    · have hm' := List.mem_of_mem_eraseP hm
      have hl : l ≠ .routing := fun hl => hadm hl _ _ rfl hm'
      exact (List.mem_eraseP_of_neg (by simpa [View.owns] using Ne.symm hl)).mpr (hv.writer hm')
  | push x =>
    obtain ⟨rfl, rfl⟩ := h
    refine ⟨v.push, rfl, hv.drop (fun _ h => h) ?_ rfl (fun g hg => View.mem_push.mp hg)
      (fun l' m' hin hm => ?_) fun hm => ?_⟩
    · show none :: v.stack = x.lock? :: stackOf (G t)
      rw [hv.stack, (hadm : x.lock? = none)]
    · exact (hv.inner l' m' hin (View.mem_push.mp hm)).imp View.sharing_push.mpr
        View.excluding_push.mpr
    · exact View.excluding_push.mpr (hv.writer (View.mem_push.mp hm))
  | pop =>
    obtain ⟨rfl, rfl⟩ := h
    obtain ⟨stack, T₀⟩ := v
    cases stack with
    | nil => cases hadm
    | cons g rest =>
      obtain rfl : g = none := Option.some.inj hadm
      have hrest : ∀ {h : LockId × Mode}, some h ∈ none :: rest → some h ∈ rest := fun hm =>
        (List.mem_cons.mp hm).resolve_left fun he => by cases he
      refine ⟨⟨rest, T₀⟩, rfl, hv.drop (fun _ h => h) ?_ rfl (fun g hg => List.mem_cons_of_mem _ hg)
        (fun l' m' hin hm => ?_) fun hm => hrest (hv.writer (List.mem_cons_of_mem _ hm))⟩
      · unfold stackOf
        rw [List.map_tail]
        exact congrArg List.tail hv.stack
      · exact (hv.inner l' m' hin (List.mem_cons_of_mem _ hm)).imp hrest hrest
  | mark id =>
    obtain ⟨rfl, rfl⟩ := h
    refine ⟨v, rfl, { hv with stack := ?_ }⟩
    rw [stackOf_map (lock?_mark id)]
    exact hv.stack
  | retire k x =>
    obtain ⟨rfl, rfl⟩ := h
    refine ⟨v, rfl, { hv with stack := ?_ }⟩
    rw [stackOf_map (lock?_retire k x)]
    exact hv.stack
  | shards =>
    obtain ⟨rfl, rfl, rfl⟩ := h
    exact ⟨v.learn T, ⟨T, hknown hadm, hT.shards, rfl⟩, hv.learn hT⟩
  | previous =>
    obtain ⟨rfl, rfl, rfl⟩ := h
    exact ⟨v, ⟨hT.previous.trans (hknown hadm).previous, rfl⟩, hv⟩
  | initSlot i =>
    obtain rfl : gs = G t := h.1
    obtain ⟨T', hg, hd⟩ : ∃ T', T.Grows T' ∧ T'.Describes s' := by
      rcases exec_directories h hT with hd | ⟨_, T', _, _, hg, hd⟩ | ⟨_, he, _⟩ | ⟨_, he, _⟩
      · exact ⟨T, .refl T, hd⟩
      · exact ⟨T', hg, hd⟩
      · cases he
      · cases he
    exact ⟨v.learn T', ⟨T', (hknown hadm).trans hg, hd.shards ▸ exec_initSlot h, rfl⟩,
      hv.learn hd⟩
  | install maps =>
    have hd := hv.excluding hadm
    obtain ⟨rfl, rfl, rfl⟩ := h
    refine ⟨v.learn (installed v.topology maps), ⟨hd.shards,
      installed v.topology maps, rfl, rfl, Nat.le_add_right .., rfl⟩,
      hv.learn ⟨?_, hd.previous, congrArg (· + maps.length) hd.next⟩⟩
    exact congrArg (allocate · maps) hd.next
  | setPrevious slots =>
    obtain ⟨hx, T', hs, hp, hn⟩ := hadm
    have hd := hv.excluding hx
    obtain ⟨rfl, rfl, rfl⟩ := h
    exact ⟨v.learn T', ⟨hd.previous, T', hs, hp, hn, rfl⟩,
      hv.learn ⟨hd.shards.trans hs.symm, hp.symm, hd.next.trans hn.symm⟩⟩
  | _ =>
    refine ⟨v, rfl, ?_⟩
    obtain rfl : gs = G t := by first | exact h.2 | exact h.2.2 | exact h.2.1
    exact hv.same fun T hd => hsame hd (fun _ he => by cases he) (fun _ he => by cases he)
      fun _ he => by cases he

end Steps
end Starshard.Locking
