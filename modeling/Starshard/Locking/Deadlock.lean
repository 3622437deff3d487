import Starshard.Concurrent.Waiting
import Starshard.Locking.Soundness

/-! Deadlock freedom of the synchronous map. -/
namespace Starshard.Locking

open Data Concurrent
open Function (update)

variable {K V : Type} [DecidableEq K] {env : Env K V} {L : Lifecycle K V}

abbrev Machine (env : Env K V) (L : Lifecycle K V) := Config (semantics env L) (Sync.Op K V) Unit

/-- Task `t` asks for a lock. -/
def Asks (c : Machine env L) (t : Nat) (l : LockId) (m : Mode) : Prop :=
  (∃ op k, c.task t = .running op (.step (.lock l m) k)) ∨
    ∃ op k, c.task t = .unwinding op (.step (.lock l m) k)

/-- Task `t` waits for task `u`: either `u` owns the lock, or `u` queues for it before `t`
and one of the two is a writer. -/
def WaitsFor (before : Nat → Nat → Prop) (c : Machine env L) (t u : Nat) : Prop :=
  ∃ l m, Asks c t l m ∧ ((∃ g ∈ c.guards u, g.excludes l m) ∨
    ∃ m', Asks c u l m' ∧ (m = .excl ∨ m' = .excl) ∧ before u t)

/-- What holds of a task in every reachable configuration. -/
def TaskOk (gs : List (Guard K V)) (s : State K V L.State) :
    Task (Act K V) Resp (Sync.Op K V) Unit → Prop
  | .ready => gs = []
  | .running _ p => ∃ v, Fits v gs s ∧ Obeys p v fun _ _ => True
  | .unwinding _ p => Harmless p
  | _ => True

structure Orderly (c : Machine env L) : Prop where
  topology : ∃ T : Topology, T.Describes c.shared
  mutex : Mutex c.guards
  task : ∀ t, TaskOk (c.guards t) c.shared (c.task t)
  finite : ∃ n, ∀ t, n ≤ t → c.task t = .ready

namespace Orderly

theorem start (count : Nat) (life : L.State) :
    Orderly (Config.start (semantics env L) (Sync.Op K V) Unit (State.new K V count life)) where
  topology := by
    have hcold : allocatedShards (List.replicate count none) = [] := by
      induction count with
      | zero => rfl
      | succ count ih => exact ih
    refine ⟨⟨List.replicate count none, none, 0, ?_, ?_⟩, rfl, rfl, rfl⟩
    · rw [hcold]
      exact List.nodup_nil
    · rw [hcold]
      exact nofun
  mutex t u _ l m m' h := by cases h
  task t := rfl
  finite := ⟨0, fun _ _ => rfl⟩

variable {s s' : State K V L.State} {G : Nat → List (Guard K V)}
  {τ : Nat → Task (Act K V) Resp (Sync.Op K V) Unit} {t : Nat}

theorem move {gs : List (Guard K V)} {x : Task (Act K V) Resp (Sync.Op K V) Unit}
    (h : Orderly (⟨s, G, τ⟩ : Machine env L)) (ht : τ t ≠ .ready)
    (htop : ∃ T : Topology, T.Describes s') (hm : Mutex (update G t gs))
    (hx : TaskOk gs s' x) (hother : ∀ u, u ≠ t → ∀ w, Fits w (G u) s → Fits w (G u) s') :
    Orderly (⟨s', update G t gs, update τ t x⟩ : Machine env L) where
  topology := htop
  mutex := hm
  task u := by
    by_cases hu : u = t
    · subst hu
      show TaskOk (update G u gs u) s' (update τ u x u)
      rwa [Function.update_self, Function.update_self]
    · show TaskOk (update G t gs u) s' (update τ t x u)
      rw [Function.update_of_ne hu, Function.update_of_ne hu]
      have hold : TaskOk (G u) s (τ u) := h.task u
      cases hτ : τ u with
      | running op p =>
        rw [hτ] at hold
        obtain ⟨w, hw, hp⟩ := hold
        exact ⟨w, hother u hu w hw, hp⟩
      | _ =>
        rw [hτ] at hold
        exact hold
  finite := by
    obtain ⟨n, hn⟩ := h.finite
    refine ⟨n, fun u hu => ?_⟩
    have hu' : u ≠ t := by
      rintro rfl
      exact ht (hn u hu)
    show update τ t x u = .ready
    rw [Function.update_of_ne hu']
    exact hn u hu

theorem turn {x : Task (Act K V) Resp (Sync.Op K V) Unit}
    (h : Orderly (⟨s, G, τ⟩ : Machine env L)) (ht : τ t ≠ .ready)
    (hd : ∀ T : Topology, T.Describes s → T.Describes s') (hx : TaskOk (G t) s' x) :
    Orderly (⟨s', G, update τ t x⟩ : Machine env L) := by
  have hG : update G t (G t) = G := Function.update_eq_self t G
  obtain ⟨T, hT⟩ := h.topology
  have hmove : Orderly (⟨s', update G t (G t), update τ t x⟩ : Machine env L) :=
    h.move ht ⟨T, hd T hT⟩ (by rw [hG]; exact h.mutex) hx fun u _ w hw => hw.same hd
  exact (congrArg (fun G' => Orderly (⟨s', G', update τ t x⟩ : Machine env L)) hG).mp hmove

theorem call (h : Orderly (⟨s, G, τ⟩ : Machine env L)) (ht : τ t = .ready)
    (op : Sync.Op K V) : Orderly
      (⟨s, G, update τ t (.running op (Sync.code env op))⟩ : Machine env L) where
  topology := h.topology
  mutex := h.mutex
  task u := by
    show TaskOk (G u) s (update τ t (.running op (Sync.code env op)) u)
    by_cases hu : u = t
    · subst hu
      have hready : TaskOk (G u) s (τ u) := h.task u
      rw [ht] at hready
      have hG : G u = [] := hready
      obtain ⟨T, hT⟩ := h.topology
      rw [Function.update_self]
      refine ⟨⟨[], T⟩, ?_, code_runs op ⟨[], T⟩ nofun _ fun _ _ _ => trivial⟩
      rw [hG]
      exact ⟨rfl, nofun, nofun, nofun, nofun, nofun⟩
    · rw [Function.update_of_ne hu]
      exact h.task u
  finite := by
    obtain ⟨n, hn⟩ := h.finite
    refine ⟨max n (t + 1), fun u hu => ?_⟩
    have hu' : u ≠ t := by omega
    show update τ t _ u = .ready
    rw [Function.update_of_ne hu']
    exact hn u (le_trans (le_max_left ..) hu)

/-- An action that a call performs while it ends early. -/
theorem harmless_exec {a : Act K V} {r : Resp a} {gs : List (Guard K V)} {T : Topology}
    (ha : harmless a = true) (h : exec L G t a s r s' gs) (hT : T.Describes s) : T.Describes s' := by
  rcases exec_directories h hT with hd | ⟨_, _, rfl, _⟩ | ⟨_, rfl, _⟩ | ⟨_, rfl, _⟩
  · exact hd
  · cases ha
  · cases ha
  · cases ha

theorem cut_describes {a : Act K V} {T : Topology} (h : cut env L a s s') (hT : T.Describes s) :
    T.Describes s' := by
  cases a with
  | user => exact (h : s' = s) ▸ hT
  | lock l m =>
    obtain ⟨-, -, rfl⟩ := h
    exact hT
  | yield =>
    obtain ⟨-, rfl⟩ := h
    exact hT
  | put id k v =>
    obtain ⟨m, -, rfl⟩ := h
    exact ⟨hT.shards, hT.previous, hT.next⟩
  | life c =>
    obtain ⟨-, -, e, rfl⟩ := h
    exact ⟨hT.shards, hT.previous, hT.next⟩
  | _ => exact h.elim

theorem step {c c' : Machine env L} {l : Label (Sync.Op K V) Unit} (h : Orderly c)
    (hstep : Step (semantics env L) (Sync.code env) c l c') : Orderly c' := by
  cases hstep with
  | call ht => exact h.call ht _
  | @act s G τ t op a k r s' gs ht hexec =>
    obtain ⟨T, hT⟩ := h.topology
    have htask : TaskOk (G t) s (τ t) := h.task t
    rw [ht] at htask
    obtain ⟨v, hv, hadm, hnext⟩ := htask
    obtain ⟨v', hans, hv'⟩ := hv.exec hT hadm hexec
    have hpush : ∀ x, a = .push x → x.lock? = none := by
      rintro x rfl
      exact hadm
    refine h.move (by rw [ht]; nofun) ?_ (h.mutex.exec hpush hexec) ⟨v', hv', hnext r v' hans⟩
      fun u hu w hw => hw.other hv hu h.mutex hadm hexec
    rcases exec_directories hexec hT with hd | ⟨_, T', _, _, _, hd⟩ | ⟨_, _, hd⟩ |
      ⟨slots, rfl, hs, hp, hn⟩
    · exact ⟨T, hd⟩
    · exact ⟨T', hd⟩
    · exact ⟨_, hd⟩
    · obtain ⟨hx, T', hs', hp', hn'⟩ := hadm
      have hd := hv.excluding hx
      exact ⟨T', hs.trans (hd.shards.trans hs'.symm), hp.trans hp'.symm,
        hn.trans (hd.next.trans hn'.symm)⟩
  | @cut s G τ t op a k s' ht hcut =>
    exact h.turn (by rw [ht]; nofun) (fun T hd => cut_describes hcut hd) (unwind_harmless _)
  | @unwind s G τ t op a k r s' gs ht hexec =>
    obtain ⟨T, hT⟩ := h.topology
    have htask : TaskOk (G t) s (τ t) := h.task t
    rw [ht] at htask
    obtain ⟨ha, hnext⟩ := htask
    have hpush : ∀ x, a = .push x → x.lock? = none := by
      rintro x rfl
      cases ha
    exact h.move (by rw [ht]; nofun) ⟨T, harmless_exec ha hexec hT⟩ (h.mutex.exec hpush hexec)
      (hnext r) fun u _ w hw => hw.same fun T hd => harmless_exec ha hexec hd
  | @ret s G τ t op r ht => exact h.turn (by rw [ht]; nofun) (fun T hd => hd) trivial
  | @settled s G τ t op ht => exact h.turn (by rw [ht]; nofun) (fun T hd => hd) trivial

theorem run {count : Nat} {life : L.State} {h : List (Label (Sync.Op K V) Unit)} {c : Machine env L}
    (hrun : Run (semantics env L) (Sync.code env) (State.new K V count life) h c) : Orderly c := by
  induction hrun with
  | start => exact start count life
  | step _ hs ih => exact ih.step hs

end Orderly

section Waiting

variable {before : Nat → Nat → Prop} {c : Machine env L} {T : Topology} {t u : Nat} {l : LockId}
  {m : Mode}

theorem Orderly.asks (h : Orderly c) (ha : Asks c t l m) :
    ∃ v, Fits v (c.guards t) c.shared ∧ v.MayLock l m := by
  have htask := h.task t
  rcases ha with ⟨op, k, ht⟩ | ⟨op, k, ht⟩
  · rw [ht] at htask
    obtain ⟨v, hv, hadm, -⟩ := htask
    exact ⟨v, hv, hadm⟩
  · rw [ht] at htask
    cases htask.1

theorem Asks.unique {l' : LockId} {m' : Mode} (h : Asks c t l m) (h' : Asks c t l' m') :
    l = l' ∧ m = m' := by
  rcases h with ⟨op, k, h⟩ | ⟨op, k, h⟩ <;> rcases h' with ⟨op', k', h'⟩ | ⟨op', k', h'⟩ <;>
    rw [h] at h' <;> cases h' <;> exact ⟨rfl, rfl⟩

omit [DecidableEq K] in
theorem mem_stackOf {gs : List (Guard K V)} {m' : Mode} :
    some (l, m') ∈ stackOf gs ↔ Guard.lock l m' ∈ gs := by
  constructor
  · intro h
    obtain ⟨g, hg, he⟩ := List.mem_map.mp h
    cases g with
    | lock l' n =>
      cases he
      exact hg
    | _ => cases he
  · intro h
    exact List.mem_map.mpr ⟨_, h, rfl⟩

omit [DecidableEq K] in
/-- The owner of a lock that is waited for owns it in a conflicting mode. -/
theorem owner_stack {gs : List (Guard K V)} (h : ∃ g ∈ gs, g.excludes l m) :
    ∃ m', some (l, m') ∈ stackOf gs ∧ (m = .excl ∨ m' = .excl) := by
  obtain ⟨g, hg, he⟩ := h
  cases g with
  | lock l' n =>
    rw [Guard.excludes_lock] at he
    obtain ⟨rfl, he⟩ := he
    exact ⟨n, mem_stackOf.mpr hg, he⟩
  | _ => cases he

/-- The place of a waiting task: its lock has a rank above all ranked locks it owns. -/
def Placed (c : Machine env L) (T : Topology) (t : Nat) (r : Nat ×ₗ Nat) : Prop :=
  (∃ l m, Asks c t l m ∧ T.Rank l r) ∧
    ∀ l m, some (l, m) ∈ stackOf (c.guards t) → l ≠ .previous → ∃ r', T.Rank l r' ∧ r' < r

/-- Two owners of routing where one is exclusive are one task. -/
theorem Orderly.exclusive_eq (h : Orderly c) {v w : View} (hv : Fits v (c.guards t) c.shared)
    (hw : Fits w (c.guards u) c.shared) (hx : v.Excluding) (hr : w.Sharing ∨ w.Excluding) : t = u := by
  by_contra hne
  unfold View.Excluding View.Sharing at *
  rw [hv.stack] at hx
  rw [hw.stack] at hr
  rcases hr with hr | hr
  · cases (h.mutex t u hne _ _ _ hx hr).1
  · cases (h.mutex t u hne _ _ _ hx hr).1

theorem mayLock_routing {v : View} (h : v.MayLock l m) (hl : l.inner = true) :
    v.Sharing ∨ v.Excluding := by
  cases l with
  | active | previous | shard => exact h.elim (fun h => .inr h.1) fun h => .inl h.1
  | builder | rebalance | routing | cache => cases hl

/-- Nobody makes an exclusive owner of routing wait for an inner lock. -/
theorem Orderly.exclusive_waits [IsStrictOrder Nat before] (h : Orderly c) {v : View}
    (hv : Fits v (c.guards t) c.shared) (hx : v.Excluding) (hl : l.inner = true)
    (hfree : ∀ m', some (l, m') ∉ v.stack) (ha : Asks c t l m) (hw : WaitsFor before c t u)
    (hu : ∃ l' m', Asks c u l' m') : False := by
  obtain ⟨l₀, m₀, ha₀, hw⟩ := hw
  obtain ⟨rfl, rfl⟩ := ha.unique ha₀
  obtain ⟨l', m', hu⟩ := hu
  obtain ⟨w, hfw, hmw⟩ := h.asks hu
  rcases hw with hown | ⟨n, hq, -, hb⟩
  · obtain ⟨n, hn, -⟩ := owner_stack hown
    have hn' : some (l, n) ∈ w.stack := hfw.stack ▸ hn
    obtain rfl := h.exclusive_eq hv hfw hx (hfw.inner l n hl hn')
    rw [← hv.stack] at hn
    exact hfree n hn
  · obtain ⟨rfl, -⟩ := hu.unique hq
    obtain rfl := h.exclusive_eq hv hfw hx (mayLock_routing hmw hl)
    exact irrefl _ hb

theorem Orderly.placed [IsStrictOrder Nat before] (h : Orderly c) (hT : T.Describes c.shared)
    (hw : WaitsFor before c t u) (hu : ∃ l' m', Asks c u l' m') : ∃ r, Placed c T t r := by
  obtain ⟨l, m, ha, hwait⟩ := id hw
  obtain ⟨v, hv, hmay⟩ := h.asks ha
  have honly : ∀ {ls r}, v.Only ls → (∀ l ∈ ls, ∃ r', T.Rank l r' ∧ r' < r) → T.Rank l r →
      ∃ r, Placed c T t r := fun {ls r} ho hls hr =>
    ⟨r, ⟨l, m, ha, hr⟩, fun l' m' hm _ => hls l' (ho l' m' (hv.stack ▸ hm))⟩
  have hbuilder : ∀ {k : Nat}, 0 < k → ∀ l' ∈ [LockId.builder], ∃ r', T.Rank l' r' ∧ r' < toLex (k, 0) :=
    fun hk l' hl' => by
      cases List.mem_singleton.mp hl'
      exact ⟨_, .builder, Topology.kind_lt hk 0 0⟩
  have hinner : (v.Excluding ∧ ∀ m', some (l, m') ∉ v.stack) ∨
      (v.Sharing ∧ ∃ r, v.topology.Rank l r ∧ v.Below r) → l.inner = true → ∃ r, Placed c T t r := by
    rintro (⟨hx, hfree⟩ | ⟨hs, r, hr, hb⟩) hl
    · exact (h.exclusive_waits hv hx hl hfree ha hw hu).elim
    · obtain ⟨T', hd, hg⟩ := hv.sharing hs
      obtain rfl := hd.unique hT
      refine ⟨r, ⟨l, m, ha, hr.grows hg⟩, fun l' m' hm hn => ?_⟩
      obtain ⟨r', hr', hlt⟩ := hb l' m' (hv.stack ▸ hm) hn
      exact ⟨r', hr'.grows hg, hlt⟩
  cases l with
  | builder => exact honly hmay nofun .builder
  | rebalance => exact hmay.elim
  | routing => exact honly hmay (hbuilder Nat.one_pos) .routing
  | cache => exact honly hmay (hbuilder (by decide)) .cache
  | active => exact hinner hmay rfl
  | shard id => exact hinner hmay rfl
  | previous =>
    -- the previous directory has a writer only under exclusive routing
    rcases hmay with ⟨hx, hfree⟩ | ⟨hs, rfl⟩
    · exact (h.exclusive_waits hv hx rfl hfree ha hw hu).elim
    · obtain ⟨l', m', hu⟩ := hu
      obtain ⟨w, hfw, hmw⟩ := h.asks hu
      have hno : ¬ w.Excluding := fun hx => by
        obtain rfl := h.exclusive_eq hfw hv hx (.inl hs)
        unfold View.Sharing View.Excluding at *
        rw [hv.stack, ← hfw.stack] at hs
        exact hfw.single hs hx
      rcases hwait with hown | ⟨n, hq, hex, -⟩
      · obtain ⟨n, hn, hex⟩ := owner_stack hown
        obtain rfl : n = .excl := hex.resolve_left nofun
        exact (hno (hfw.writer (hfw.stack ▸ hn))).elim
      · obtain rfl : n = .excl := hex.resolve_left nofun
        obtain ⟨rfl, rfl⟩ := hu.unique hq
        rcases hmw with ⟨hx, -⟩ | ⟨-, h⟩
        · exact (hno hx).elim
        · cases h

/-- Waiting leads to a higher place, or to a task that queued before. -/
theorem Placed.step {r r' : Nat ×ₗ Nat} (ht : Placed c T t r) (hu : Placed c T u r')
    (hw : WaitsFor before c t u) : r < r' ∨ (r = r' ∧ before u t) := by
  obtain ⟨⟨l, m, ha, hr⟩, -⟩ := ht
  obtain ⟨⟨l', m', hb, hr'⟩, hbelow⟩ := hu
  obtain ⟨l₀, m₀, ha₀, hw⟩ := hw
  obtain ⟨rfl, rfl⟩ := ha.unique ha₀
  rcases hw with hown | ⟨n, hq, -, hbefore⟩
  · obtain ⟨n, hn, -⟩ := owner_stack hown
    have hl : l ≠ .previous := by
      rintro rfl
      cases hr
    obtain ⟨q, hq, hlt⟩ := hbelow l n hn hl
    exact .inl (hr.unique hq ▸ hlt)
  · obtain ⟨rfl, -⟩ := hb.unique hq
    exact .inr ⟨hr.unique hr', hbefore⟩

/-- No set of tasks waits for itself in an orderly configuration. -/
theorem Orderly.not_deadlocked [IsStrictOrder Nat before] (ho : Orderly c) {D : Set Nat} :
    ¬ Deadlocked (WaitsFor before c) D := by
  intro hD
  obtain ⟨T, hT⟩ := ho.topology
  have hasks : ∀ t ∈ D, ∃ l m, Asks c t l m := fun t ht => by
    obtain ⟨u, -, l, m, ha, -⟩ := hD.2 t ht
    exact ⟨l, m, ha⟩
  have hplaced : ∀ t, t ∈ D → ∃ r, Placed c T t r := fun t ht => by
    obtain ⟨u, hu, hw⟩ := hD.2 t ht
    exact ho.placed hT hw (hasks u hu)
  have hfin : D.Finite := by
    obtain ⟨n, hn⟩ := ho.finite
    refine (Set.finite_lt_nat n).subset fun t ht => ?_
    by_contra hlt
    obtain ⟨l, m, ha⟩ := hasks t ht
    rcases ha with ⟨op, k, ha⟩ | ⟨op, k, ha⟩ <;>
      · rw [hn t (Nat.le_of_not_lt hlt)] at ha
        cases ha
  classical
  let rank : Nat → Nat ×ₗ Nat := fun t =>
    if ht : t ∈ D then (hplaced t ht).choose else toLex (0, 0)
  have hrank : ∀ t ∈ D, Placed c T t (rank t) := fun t ht => by
    simp only [rank, dif_pos ht]
    exact (hplaced t ht).choose_spec
  exact not_deadlocked_of_rank hfin rank
    (fun t ht u hu hw => (hrank t ht).step (hrank u hu) hw) hD

/-- In no reachable state of the synchronous map, under any interleaving of any number of
operations, do the members of a set of operations all wait for each other. The order in
which tasks queue for a lock is arbitrary. -/
theorem deadlock_free {count : Nat} {life : L.State} {h : List (Label (Sync.Op K V) Unit)}
    (before : Nat → Nat → Prop) [IsStrictOrder Nat before] {c : Machine env L}
    (hrun : Run (semantics env L) (Sync.code env) (State.new K V count life) h c) :
    ¬ ∃ D : Set Nat, Deadlocked (WaitsFor before c) D := by
  rintro ⟨D, hD⟩
  exact (Orderly.run hrun).not_deadlocked hD

/-- A map without capacity configuration, whose lifecycle calls answer anything. -/
def plainEnv : Env Nat Nat := ⟨id, .clone, none, fun x y => decide (x = y), false⟩

def plainLifecycle : Lifecycle Nat Nat where
  State := Unit
  initial := ()
  step _ _ _ _ := True
  total c s := by
    have hr : Nonempty c.Reply := by
      cases c <;>
        first | exact ⟨()⟩ | exact ⟨(0 : Nat)⟩ | exact ⟨false⟩ | exact ⟨([] : List (EvictionCandidate Nat))⟩
    exact hr.elim fun r => ⟨r, s, trivial⟩

/-- An insertion owns routing, a clear waits for it, and there is no deadlock. -/
theorem deadlock_free_clear : ∃ (h : List (Label (Sync.Op Nat Nat) Unit))
    (c : Machine plainEnv plainLifecycle),
    Run (semantics plainEnv plainLifecycle) (Sync.code plainEnv) (State.new Nat Nat 1 ()) h c ∧
      WaitsFor (· < ·) c 1 0 ∧ ¬ ∃ D : Set Nat, Deadlocked (WaitsFor (· < ·) c) D := by
  let M := semantics plainEnv plainLifecycle
  have hfree : ∀ u, ∀ g ∈ update (fun _ => []) 0 [(Guard.operation : Guard Nat Nat)] u,
      ¬ g.excludes .routing .shared := by
    intro u g hg
    by_cases hu : u = 0
    · subst hu
      rw [Function.update_self, List.mem_singleton] at hg
      subst hg
      exact Bool.false_ne_true
    · rw [Function.update_of_ne hu] at hg
      cases hg
  have h₀ : Run M (Sync.code plainEnv) (State.new Nat Nat 1 ()) [] _ := .start
  have h₁ := h₀.step (.call (t := 0) rfl : Step M _ _ (.call 0 (.insert 1 2)) _)
  have h₂ := h₁.step (.act (t := 0) (r := ()) rfl ⟨rfl, rfl⟩)
  have h₃ := h₂.step (.act (t := 0) (r := ()) rfl ⟨hfree, rfl, rfl⟩)
  have h₄ := h₃.step (.call (t := 1) rfl : Step M _ _ (.call 1 .clear) _)
  have h₅ := h₄.step (.act (t := 1) (r := ()) rfl ⟨rfl, rfl⟩)
  exact ⟨_, _, h₅, ⟨.routing, .excl, .inl ⟨_, _, rfl⟩,
    .inl ⟨.lock .routing .shared, List.mem_cons_self .., rfl⟩⟩, deadlock_free (· < ·) h₅⟩

end Waiting
end Starshard.Locking
