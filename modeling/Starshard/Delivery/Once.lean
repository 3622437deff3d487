import Mathlib.Algebra.BigOperators.Group.Multiset.Basic
import Mathlib.Data.List.Nodup
import Starshard.Delivery.Machine

/-! Every evicted entry reaches the callback once, or is counted once as suppressed. -/
namespace Starshard.Delivery

open Concurrent

variable {K V : Type}

/-- What a frame still has to deliver. -/
def Frame.pending : Frame K V → Multiset (Item K V)
  | .pass _ _ _ batch => batch.entries
  | .dispatch _ rest => rest
  | .foreign => 0

def Thread.pending (th : Thread K V) : Multiset (Item K V) := (th.stack.map Frame.pending).sum

def State.pending (s : State K V) : Multiset (Item K V) :=
  (s.threads.map Thread.pending).sum +
    (s.suspended.map fun p => (p.batch.entries : Multiset (Item K V))).sum

/-- A dispatch runs on behalf of a pass that holds no lock and whose batch was taken. -/
def Sound : List (Frame K V) → Prop
  | [] => True
  | .pass _ stage _ batch :: below =>
    (stage ≠ .leaving → batch.dispatched = false) ∧
      (batch.dispatched = true → batch.entries = []) ∧ Sound below
  | .dispatch _ _ :: below =>
    (∃ kind batch under, below = .pass kind .leaving false batch :: under) ∧ Sound below
  | .foreign :: below => Sound below

structure Inv (s : State K V) : Prop where
  account : (s.evicted : Multiset (Item K V)) = s.delivered + s.suppressed + s.pending
  ids : ((s.items ++ s.evicted ++ s.removed).map Item.id).Nodup
  fresh : ∀ x ∈ s.items ++ s.evicted ++ s.removed, x.id < s.nextId
  evictions : s.evictions = UInt64.ofNat s.evicted.length
  suppressions : s.suppressedCallbacks = UInt64.ofNat s.suppressed.length
  sound : ∀ th ∈ s.threads, Sound th.stack
  suspended : ∀ p ∈ s.suspended, p.batch.dispatched = false

section Threads

variable {s : State K V} {t : Nat} {th th' : Thread K V}

theorem sum_set {α : Type} {l : List α} {i : Nat} {a : α} (f : α → Multiset (Item K V))
    (h : l[i]? = some a) (b : α) : ((l.set i b).map f).sum + f a = (l.map f).sum + f b := by
  induction l generalizing i with
  | nil => cases h
  | cons c l ih =>
    cases i with
    | zero =>
      cases h
      simp only [List.set_cons_zero, List.map_cons, List.sum_cons]
      rw [add_right_comm, add_comm (f b), add_right_comm]
    | succ i =>
      simp only [List.set_cons_succ, List.map_cons, List.sum_cons, add_assoc]
      rw [ih h]

theorem sum_eraseIdx {α : Type} {l : List α} {i : Nat} {a : α} (f : α → Multiset (Item K V))
    (h : l[i]? = some a) : ((l.eraseIdx i).map f).sum + f a = (l.map f).sum := by
  induction l generalizing i with
  | nil => cases h
  | cons c l ih =>
    cases i with
    | zero =>
      cases h
      exact add_comm _ _
    | succ i =>
      simp only [List.eraseIdx_cons_succ, List.map_cons, List.sum_cons, add_assoc]
      rw [ih h]

theorem pending_thread (h : s.threads[t]? = some th) (th' : Thread K V) :
    (s.thread t th').pending + th.pending = s.pending + th'.pending := by
  unfold State.pending State.thread
  have := sum_set Thread.pending h th'
  rw [add_right_comm, this, add_right_comm]

theorem pending_add (h : s.threads[t]? = some th) (th' : Thread K V) {d : Multiset (Item K V)}
    (hd : th'.pending = th.pending + d) : (s.thread t th').pending = s.pending + d := by
  refine add_right_cancel (b := th.pending) ?_
  rw [pending_thread h th', hd, add_assoc, add_comm d]

theorem pending_sub (h : s.threads[t]? = some th) (th' : Thread K V) {d : Multiset (Item K V)}
    (hd : th.pending = th'.pending + d) : s.pending = (s.thread t th').pending + d := by
  refine add_right_cancel (b := th'.pending) ?_
  rw [← pending_thread h th', hd, add_assoc, add_comm d]

theorem Thread.pending_cons {f : Frame K V} {below : List (Frame K V)}
    (h : th.stack = f :: below) : th.pending = f.pending + (below.map Frame.pending).sum := by
  unfold pending
  rw [h]
  rfl

theorem pending_deliver {x : Item K V} {rest : List (Item K V)} {below : List (Frame K V)}
    (ht : s.threads[t]? = some th) (hstack : th.stack = .dispatch .loop (x :: rest) :: below) :
    s.pending = (s.thread t (th.goto (.dispatch (.inside x) rest :: below))).pending + {x} := by
  refine pending_sub ht _ ?_
  rw [Thread.pending_cons hstack, Thread.pending_cons rfl, add_right_comm]
  refine congrArg (· + _) ?_
  change ((x :: rest : List (Item K V)) : Multiset (Item K V)) = rest + {x}
  rw [add_comm, Multiset.singleton_add]
  rfl

theorem State.sound_thread (hs : ∀ th ∈ s.threads, Sound th.stack) (h : Sound th'.stack) :
    ∀ u ∈ (s.thread t th').threads, Sound u.stack := by
  intro u hu
  rcases List.mem_or_eq_of_mem_set hu with hu | rfl
  · exact hs u hu
  · exact h

end Threads

namespace Inv

variable {s s' : State K V} {t : Nat} {th th' : Thread K V}

theorem new : Inv (State.new K V) where
  account := rfl
  ids := List.nodup_nil
  fresh _ hx := by cases hx
  evictions := rfl
  suppressions := rfl
  sound _ hth := by cases hth
  suspended _ hp := by cases hp

variable (h : Inv s)

include h

theorem sound_of (ht : s.threads[t]? = some th) : Sound th.stack :=
  h.sound th (List.mem_of_getElem? ht)

theorem move (ht : s.threads[t]? = some th) (hp : th'.pending = th.pending) (hs : Sound th'.stack) :
    Inv (s.thread t th') where
  account := by
    have := pending_thread ht th'
    rw [hp] at this
    rw [add_right_cancel this]
    exact h.account
  ids := h.ids
  fresh := h.fresh
  evictions := h.evictions
  suppressions := h.suppressions
  sound := State.sound_thread h.sound hs
  suspended := h.suspended

theorem shelve (ht : s.threads[t]? = some th) {ps : List (Suspended K V)}
    (hp : th'.pending + (ps.map fun p => (p.batch.entries : Multiset (Item K V))).sum =
      th.pending + (s.suspended.map fun p => (p.batch.entries : Multiset (Item K V))).sum)
    (hs : Sound th'.stack) (hps : ∀ p ∈ ps, p.batch.dispatched = false) :
    Inv { s.thread t th' with suspended := ps } where
  account := by
    have hpending : State.pending { s.thread t th' with suspended := ps } = s.pending := by
      unfold State.pending
      refine add_right_cancel (b := th.pending) ?_
      rw [add_right_comm, State.thread, sum_set Thread.pending ht th', add_assoc, hp, ← add_assoc,
        add_right_comm]
    rw [hpending]
    exact h.account
  ids := h.ids
  fresh := h.fresh
  evictions := h.evictions
  suppressions := h.suppressions
  sound := State.sound_thread h.sound hs
  suspended := hps

omit h in
theorem take_evicted (pre post : List (Item K V)) (x : Item K V) (evicted removed : List (Item K V)) :
    (pre ++ post ++ (evicted ++ [x]) ++ removed).Perm (pre ++ x :: post ++ evicted ++ removed) := by
  refine List.Perm.append_right _ ?_
  rw [← List.append_assoc]
  refine (List.perm_append_singleton x _).trans ?_
  simp only [List.append_assoc, List.cons_append]
  exact List.perm_middle.symm

omit h in
theorem take_removed (pre post : List (Item K V)) (x : Item K V) (evicted removed : List (Item K V)) :
    (pre ++ post ++ evicted ++ (removed ++ [x])).Perm (pre ++ x :: post ++ evicted ++ removed) := by
  rw [← List.append_assoc]
  refine (List.perm_append_singleton x _).trans ?_
  simp only [List.append_assoc, List.cons_append]
  exact List.perm_middle.symm

theorem relist {items removed : List (Item K V)} {n : Nat}
    (hids : ((items ++ s.evicted ++ removed).map Item.id).Nodup)
    (hfresh : ∀ x ∈ items ++ s.evicted ++ removed, x.id < n) :
    Inv { s with items := items, removed := removed, nextId := n } :=
  ⟨h.account, hids, hfresh, h.evictions, h.suppressions, h.sound, h.suspended⟩

theorem write (k : K) (v : V) :
    Inv { s with items := s.items ++ [⟨s.nextId, k, v⟩], nextId := s.nextId + 1 } := by
  have hperm : (s.items ++ [Item.mk s.nextId k v] ++ s.evicted ++ s.removed).Perm
      (Item.mk s.nextId k v :: (s.items ++ s.evicted ++ s.removed)) := by
    simp only [List.append_assoc, List.singleton_append]
    exact List.perm_middle
  refine h.relist ?_ fun x hx => ?_
  · rw [(hperm.map Item.id).nodup_iff, List.map_cons, List.nodup_cons]
    refine ⟨fun hmem => ?_, h.ids⟩
    obtain ⟨x, hx, hid⟩ := List.mem_map.mp hmem
    exact absurd hid (Nat.ne_of_lt (h.fresh x hx))
  · rcases List.mem_cons.mp (hperm.subset hx) with rfl | hx
    · exact Nat.lt_succ_self _
    · exact Nat.lt_succ_of_lt (h.fresh x hx)

theorem overwrite {pre post : List (Item K V)} {x : Item K V} (hitems : s.items = pre ++ x :: post)
    (v : V) : Inv { s with items := pre ++ { x with value := v } :: post } := by
  have hids := h.ids
  have hfresh := h.fresh
  rw [hitems] at hids hfresh
  refine h.relist (by simpa using hids) fun y hy => ?_
  simp only [List.mem_append, List.mem_cons] at hy hfresh
  rcases hy with ((hy | rfl | hy) | hy) | hy
  · exact hfresh y (.inl (.inl (.inl hy)))
  · exact hfresh x (.inl (.inl (.inr (.inl rfl))))
  · exact hfresh y (.inl (.inl (.inr (.inr hy))))
  · exact hfresh y (.inl (.inr hy))
  · exact hfresh y (.inr hy)

theorem remove {pre post : List (Item K V)} {x : Item K V} (hitems : s.items = pre ++ x :: post) :
    Inv { s with items := pre ++ post, removed := s.removed ++ [x] } := by
  have hids := h.ids
  have hfresh := h.fresh
  rw [hitems] at hids hfresh
  have hperm := take_removed pre post x s.evicted s.removed
  exact h.relist ((hperm.map Item.id).nodup_iff.mpr hids) fun y hy => hfresh y (hperm.subset hy)

theorem evict {pre post : List (Item K V)} {x : Item K V} {kind : MapKind} {batch : Batch K V}
    {below : List (Frame K V)} (ht : s.threads[t]? = some th)
    (hstack : th.stack = .pass kind .removing true batch :: below)
    (hitems : s.items = pre ++ x :: post) :
    Inv { s.thread t (th.goto (.pass kind .removing true
        { batch with entries := batch.entries ++ [x] } :: below)) with
      items := pre ++ post
      evicted := s.evicted ++ [x]
      evictions := s.evictions + 1 } := by
  have hids := h.ids
  have hfresh := h.fresh
  rw [hitems] at hids hfresh
  have hperm := take_evicted pre post x s.evicted s.removed
  have hsound := h.sound_of ht
  rw [hstack] at hsound
  obtain ⟨hopen, htaken, hbelow⟩ := hsound
  refine ⟨?_, (hperm.map Item.id).nodup_iff.mpr hids, fun y hy => hfresh y (hperm.subset hy), ?_,
    h.suppressions, State.sound_thread h.sound ⟨hopen, ?_, hbelow⟩, h.suspended⟩
  · have hadd := pending_add ht (th.goto (.pass kind .removing true
      { batch with entries := batch.entries ++ [x] } :: below)) (d := {x}) (by
        rw [Thread.pending_cons hstack, Thread.pending_cons rfl, add_right_comm]
        rfl)
    change ((s.evicted ++ [x] : List (Item K V)) : Multiset (Item K V)) =
      s.delivered + s.suppressed + State.pending (s.thread t _)
    rw [hadd, ← add_assoc, ← h.account]
    rfl
  · rw [List.length_append, UInt64.ofNat_add, ← h.evictions]
    rfl
  · intro hd
    rw [hopen nofun] at hd
    cases hd

/-- The entries of a batch that is dispatched under the flag are counted. -/
theorem suppress {x : Item K V} {rest : List (Item K V)} {below : List (Frame K V)}
    (ht : s.threads[t]? = some th) (hstack : th.stack = .dispatch .entered (x :: rest) :: below) :
    Inv { s.thread t (th.goto (.dispatch .retiring [] :: below)) with
      suppressed := s.suppressed ++ x :: rest
      suppressedCallbacks := s.suppressedCallbacks + UInt64.ofNat (x :: rest).length } := by
  have hsound := h.sound_of ht
  rw [hstack] at hsound
  refine ⟨?_, h.ids, h.fresh, h.evictions, ?_, State.sound_thread h.sound hsound, h.suspended⟩
  · have hsub := pending_sub ht (th.goto (.dispatch .retiring [] :: below))
      (d := ((x :: rest : List (Item K V)) : Multiset (Item K V))) (by
        rw [Thread.pending_cons hstack, Thread.pending_cons rfl, add_comm]
        exact congrArg (· + _) (zero_add _).symm)
    change (s.evicted : Multiset (Item K V)) = s.delivered +
      ((s.suppressed ++ x :: rest : List (Item K V)) : Multiset (Item K V)) +
        State.pending (s.thread t _)
    rw [h.account, hsub, ← Multiset.coe_add, add_comm (State.pending _), ← add_assoc, ← add_assoc]
  · rw [List.length_append, UInt64.ofNat_add, ← h.suppressions]

theorem deliver {x : Item K V} {rest : List (Item K V)} {below : List (Frame K V)}
    (ht : s.threads[t]? = some th) (hstack : th.stack = .dispatch .loop (x :: rest) :: below) :
    Inv { s.thread t (th.goto (.dispatch (.inside x) rest :: below)) with
      delivered := s.delivered ++ [x] } := by
  have hsound := h.sound_of ht
  rw [hstack] at hsound
  refine ⟨?_, h.ids, h.fresh, h.evictions, h.suppressions, State.sound_thread h.sound hsound,
    h.suspended⟩
  have hsub := pending_deliver ht hstack
  change (s.evicted : Multiset (Item K V)) =
    ((s.delivered ++ [x] : List (Item K V)) : Multiset (Item K V)) + s.suppressed +
      State.pending (s.thread t _)
  rw [h.account, hsub, ← Multiset.coe_add, Multiset.coe_singleton]
  simp only [add_assoc, add_comm, add_left_comm]

theorem spawn : Inv { s with threads := s.threads ++ [⟨[], false⟩] } := by
  refine ⟨?_, h.ids, h.fresh, h.evictions, h.suppressions, fun th hth => ?_, h.suspended⟩
  · rw [h.account]
    simp [State.pending, Thread.pending]
  · rcases List.mem_append.mp hth with hth | hth
    · exact h.sound th hth
    · rw [List.mem_singleton.mp hth]
      trivial

theorem panics (n : UInt64) : Inv { s with callbackPanics := n } :=
  ⟨h.account, h.ids, h.fresh, h.evictions, h.suppressions, h.sound, h.suspended⟩

theorem replace {f g : Frame K V} {below : List (Frame K V)} (ht : s.threads[t]? = some th)
    (hstack : th.stack = f :: below) (hp : g.pending = f.pending)
    (hs : Sound (f :: below) → Sound (g :: below)) (d : Bool) :
    Inv (s.thread t ⟨g :: below, d⟩) := by
  refine h.move ht ?_ (hs (hstack ▸ h.sound_of ht))
  rw [Thread.pending_cons hstack, Thread.pending_cons rfl, hp]

theorem step {l : Label K V} (hs : Step l s s') : Inv s' := by
  cases hs with
  | spawn => exact h.spawn
  | write k v => exact h.write k v
  | overwrite v _ _ hitems => exact h.overwrite hitems v
  | remove _ _ hitems => exact h.remove hitems
  | evict ht hstack hitems => exact h.evict ht hstack hitems
  | suppress ht hstack _ => exact h.suppress ht hstack
  | deliver ht hstack => exact h.deliver ht hstack
  | enter kind ht hfree =>
    refine h.move ht ?_ ⟨fun _ => rfl, fun _ => rfl, h.sound_of ht⟩
    rw [Thread.pending_cons rfl]
    exact zero_add _
  | lock ht hstack hl | unlock ht hstack hl | empty ht hstack | guard ht hstack hd
  | exhaust ht hstack =>
    refine h.replace ht hstack ?_ ?_ _
    · rfl
    · exact id
  | «begin» ht hstack =>
    refine h.replace ht hstack ?_ ?_ _
    · rfl
    · exact fun ⟨hopen, htaken, hbelow⟩ => ⟨fun _ => hopen nofun, htaken, hbelow⟩
  | unwind ht hstack hl | finish ht hstack hl =>
    refine h.replace ht hstack ?_ ?_ _
    · rfl
    · exact fun ⟨_, htaken, hbelow⟩ => ⟨fun hne => absurd rfl hne, htaken, hbelow⟩
  | «return» panicked ht hstack =>
    refine Inv.panics (s := s.thread _ _) (h.replace ht hstack ?_ ?_ _) _
    · rfl
    · exact id
  | suspend ht hstack =>
    have hsound := h.sound_of ht
    rw [hstack] at hsound
    refine h.shelve ht ?_ hsound.2.2 fun p hp => ?_
    · rw [Thread.pending_cons hstack, List.map_append, List.sum_append, List.map_singleton,
        List.sum_singleton, ← add_assoc, add_comm, ← add_assoc]
      rfl
    · rcases List.mem_append.mp hp with hp | hp
      · exact h.suspended p hp
      · rw [List.mem_singleton.mp hp]
        exact hsound.1 nofun
  | resume ht hfree hp | cancel ht hfree hp =>
    have hopen := h.suspended _ (List.mem_of_getElem? hp)
    refine h.shelve ht ?_ ⟨fun _ => hopen, fun hd => ?_, h.sound_of ht⟩ fun p hmem =>
      h.suspended p (List.mem_of_mem_eraseIdx hmem)
    · rw [Thread.pending_cons rfl, ← sum_eraseIdx _ hp, add_assoc, add_comm, add_assoc]
      rfl
    · rw [hopen] at hd
      cases hd
  | dispatch ht hstack hl | drop ht hstack hd =>
    have hsound := h.sound_of ht
    rw [hstack] at hsound
    refine h.move ht ?_ ⟨⟨_, _, _, rfl⟩, fun hne => absurd rfl hne, fun _ => rfl, hsound.2.2⟩
    rw [Thread.pending_cons hstack, Thread.pending_cons rfl, List.map_cons, List.sum_cons]
    exact congrArg _ (zero_add _)
  | dropped ht hstack hd =>
    have hsound := h.sound_of ht
    rw [hstack] at hsound
    refine h.move ht ?_ hsound.2.2
    rw [Thread.pending_cons hstack, Frame.pending, hsound.2.1 hd]
    exact (zero_add _).symm
  | leave ht hstack =>
    have hsound := h.sound_of ht
    rw [hstack] at hsound
    refine h.move ht ?_ hsound.2
    rw [Thread.pending_cons hstack]
    exact (zero_add _).symm
  | borrow ht hfree hd =>
    have hsound := h.sound_of ht
    refine h.move ht ?_ hsound
    rw [Thread.pending_cons rfl]
    exact zero_add _
  | restore ht hstack =>
    have hsound := h.sound_of ht
    rw [hstack] at hsound
    refine h.move ht ?_ hsound
    rw [Thread.pending_cons hstack]
    exact (zero_add _).symm

theorem run {ls : List (Label K V)} (hr : Replay Step s ls s') : Inv s' := by
  induction hr with
  | nil => exact h
  | cons hs _ ih => exact ih (h.step hs)

end Inv

/-- No pass of this map is in flight. -/
def State.quiet (s : State K V) : Prop :=
  (∀ th ∈ s.threads, ∀ f ∈ th.stack, f = .foreign) ∧ s.suspended = []

theorem pending_eq_zero {s : State K V} (h : s.quiet) : s.pending = 0 := by
  have hthread : ∀ m ∈ s.threads.map Thread.pending, m = 0 := by
    intro m hm
    obtain ⟨th, hth, rfl⟩ := List.mem_map.mp hm
    refine List.sum_eq_zero fun m hm => ?_
    obtain ⟨f, hf, rfl⟩ := List.mem_map.mp hm
    rw [h.1 th hth f hf]
    rfl
  unfold State.pending
  rw [h.2, List.sum_eq_zero hthread]
  rfl

/-- The pass whose entries are delivered holds no map lock. -/
def State.released (t : Nat) (s : State K V) : Prop :=
  ∃ th call rest kind batch under, s.threads[t]? = some th ∧
    th.stack = .dispatch call rest :: .pass kind .leaving false batch :: under

/-- In every run each evicted entry is delivered once or counted once as suppressed,
after it left the map and its pass released the locks. -/
theorem evictions_delivered_once {ls : List (Label K V)} {s : State K V}
    (hr : Replay Step (State.new K V) ls s) :
    (s.evicted.map Item.id).Nodup ∧
    (s.quiet → (s.delivered ++ s.suppressed).Perm s.evicted ∧
      s.suppressedCallbacks = UInt64.ofNat s.suppressed.length ∧
      s.evictions = UInt64.ofNat s.delivered.length + s.suppressedCallbacks) ∧
    (∀ x ∈ s.delivered ++ s.suppressed, x ∈ s.evicted ∧
      ∀ y ∈ s.items ++ s.removed, x.id ≠ y.id) ∧
    ∀ t x s', Step (.deliver t x) s s' → x ∈ s.evicted ∧ (∀ y ∈ s.items, x.id ≠ y.id) ∧
      s.released t := by
  have h := Inv.new.run hr
  have hids := h.ids
  rw [List.append_assoc, List.map_append, List.map_append, List.nodup_append,
    List.nodup_append] at hids
  obtain ⟨-, ⟨hevicted, -, hremoved⟩, hitems⟩ := hids
  have hsplit : ∀ x ∈ s.evicted, ∀ y ∈ s.items ++ s.removed, x.id ≠ y.id := by
    intro x hx y hy
    have hx' := List.mem_map_of_mem (f := Item.id) hx
    rcases List.mem_append.mp hy with hy | hy
    · exact (hitems _ (List.mem_map_of_mem hy) _ (List.mem_append_left _ hx')).symm
    · exact hremoved _ hx' _ (List.mem_map_of_mem hy)
  have hmem : ∀ x, x ∈ (s.delivered : Multiset (Item K V)) + s.suppressed + s.pending →
      x ∈ s.evicted := fun x hx => Multiset.mem_coe.mp (h.account ▸ hx)
  refine ⟨hevicted, fun hq => ?_, fun x hx => ?_, fun t x s' hs => ?_⟩
  · have hperm : (s.delivered ++ s.suppressed).Perm s.evicted := by
      have := h.account
      rw [pending_eq_zero hq, add_zero, Multiset.coe_add] at this
      exact (Multiset.coe_eq_coe.mp this).symm
    refine ⟨hperm, h.suppressions, ?_⟩
    rw [h.evictions, h.suppressions, ← UInt64.ofNat_add, ← List.length_append, hperm.length_eq]
  · have hx' : x ∈ s.evicted := hmem x (Multiset.mem_add.mpr (.inl (by simpa using hx)))
    exact ⟨hx', hsplit x hx'⟩
  · cases hs with
    | deliver ht hstack =>
      rename_i th rest below
      have hsound := h.sound_of ht
      rw [hstack] at hsound
      obtain ⟨⟨kind, batch, under, rfl⟩, -⟩ := hsound
      have hx' : x ∈ s.evicted := by
        refine hmem x (Multiset.mem_add.mpr (.inr ?_))
        rw [pending_deliver ht hstack]
        exact Multiset.mem_add.mpr (.inr (Multiset.mem_singleton_self x))
      exact ⟨hx', fun y hy => hsplit x hx' y (List.mem_append_left _ hy),
        th, _, _, kind, batch, under, ht, hstack⟩

/-- Two entries are evicted; the callback for the first one runs a pass of its own that
evicts the second. -/
theorem evictions_delivered_once_nested :
    ∃ s : State Nat Nat, s.delivered = [⟨0, 1, 10⟩] ∧ s.suppressed = [⟨1, 2, 20⟩] ∧
      (s.delivered ++ s.suppressed).Perm s.evicted := by
  have hr : ∃ s : State Nat Nat, Replay Step (State.new Nat Nat)
      [.spawn, .write 0 1 10, .write 0 2 20, .enter 0, .lock 0, .begin 0, .evict 0 ⟨0, 1, 10⟩,
        .unwind 0, .drop 0, .suppress 0, .deliver 0 ⟨0, 1, 10⟩, .enter 0, .lock 0, .begin 0,
        .evict 0 ⟨1, 2, 20⟩, .unlock 0, .finish 0, .suppress 0, .leave 0, .drop 0, .return 0,
        .exhaust 0, .leave 0, .drop 0] s ∧ s.delivered = [⟨0, 1, 10⟩] ∧
      s.suppressed = [⟨1, 2, 20⟩] ∧ s.quiet :=
    ⟨_, .cons .spawn (.cons (.write 1 10 rfl rfl) (.cons (.write 2 20 rfl rfl)
      (.cons (.enter .sync rfl rfl) (.cons (.lock rfl rfl nofun) (.cons (.begin rfl rfl)
      (.cons (.evict rfl rfl (List.nil_append _).symm) (.cons (.unwind rfl rfl nofun)
      (.cons (.drop rfl rfl rfl) (.cons (.guard rfl rfl rfl) (.cons (.deliver rfl rfl)
      (.cons (.enter .sync rfl rfl) (.cons (.lock rfl rfl nofun) (.cons (.begin rfl rfl)
      (.cons (.evict rfl rfl (List.nil_append _).symm) (.cons (.unlock rfl rfl nofun)
      (.cons (.dispatch rfl rfl nofun) (.cons (.suppress rfl rfl rfl) (.cons (.leave rfl rfl)
      (.cons (.dropped rfl rfl rfl) (.cons (.return true rfl rfl) (.cons (.exhaust rfl rfl)
      (.cons (.leave rfl rfl) (.cons (.dropped rfl rfl rfl) .nil))))))))))))))))))))))),
      rfl, rfl, by
        refine ⟨fun th hth f hf => ?_, rfl⟩
        rw [List.mem_singleton.mp hth] at hf
        cases hf⟩
  obtain ⟨s, hrun, hd, hs, hq⟩ := hr
  obtain ⟨-, hquiet, -⟩ := evictions_delivered_once hrun
  exact ⟨s, hd, hs, (hquiet hq).1⟩

end Starshard.Delivery
