import Starshard.Concurrent.Erasure
import Starshard.Interleaving.History
import Starshard.Locking.Deadlock

/-! A map in use never comes to a standstill: while calls are in progress, one of them can
go on. -/
namespace Starshard

open Data Concurrent
open Locking (plainEnv plainLifecycle)

variable {K V : Type} [DecidableEq K] {env : Env K V} {L : Lifecycle K V}

omit [DecidableEq K] in
theorem discard_bind {α β : Type} (p : Prog K V α) (f : α → β) :
    Sync.discard (p >>= fun r => pure (f r)) = Sync.discard p :=
  Program.bind_assoc p _ _

/-- The programs with answers are the programs of the operations. -/
theorem discard_answer (op : Sync.Op K V) : Sync.discard (Sync.answer env op) = Sync.code env op := by
  have hunit : ∀ p : Prog K V Unit, Sync.discard p = p := Program.bind_done
  have hdone : ∀ p : Prog K V Unit,
      Sync.discard (p >>= fun _ => (pure .done : Prog K V (Answer K V))) = p := fun p =>
    (discard_bind p _).trans (hunit p)
  cases op with
  | retain _ | clear => exact hdone _
  | _ => first | exact discard_bind _ _ | exact hdone _

variable {h : List (Label (Sync.Op K V) (Answer K V))} {a₀ : Abstract K V}
  {s₀ : State K V L.State} {c : Config (semantics env L) (Sync.Op K V) (Answer K V)} {t : Nat}

/-- A call is in progress or ends early. -/
def Busy (c : Config (semantics env L) (Sync.Op K V) (Answer K V)) (t : Nat) : Prop :=
  match c.task t with
  | .running _ _ | .unwinding _ _ => True
  | _ => False

theorem quiescent_of_idle (h : ∀ t, ¬ Busy c t) : c.Quiescent := by
  intro t
  have ht := h t
  unfold Busy at ht
  cases hT : c.task t with
  | running op p =>
    rw [hT] at ht
    exact ht trivial
  | unwinding op p =>
    rw [hT] at ht
    exact ht trivial
  | _ => trivial

/-- Task `t` can take a step, return, or settle after a panic. -/
def Moves (c : Config (semantics env L) (Sync.Op K V) (Answer K V)) (t : Nat) : Prop :=
  (∃ a r s' gs, Performs c t a ∧ exec L c.guards t a c.shared r s' gs) ∨
    (∃ op r, c.task t = .running op (.done r)) ∨ ∃ op, c.task t = .unwinding op (.done ())

theorem busy_of_guard {g : Ghost K V} {lin : List (Nat × Event K V)}
    (hx : (protocol env L False).Explained (Begins env) (Explains env) a₀ h c g lin)
    {x : Guard K V} (hg : x ∈ c.guards t) : Busy c t := by
  have ht := hx.task t
  unfold Busy
  cases hT : c.task t with
  | running op p => trivial
  | unwinding op p => trivial
  | ready =>
    rw [hT] at ht
    rw [ht.1] at hg
    cases hg
  | finished op r =>
    rw [hT] at ht
    rw [ht.1] at hg
    cases hg
  | aborted op =>
    rw [hT] at ht
    have hnil : c.guards t = [] := ht
    rw [hnil] at hg
    cases hg

/-- A busy task that cannot move asks for a lock that some task owns, or diverges. -/
theorem busy_waits {g : Ghost K V} {lin : List (Nat × Event K V)}
    (hx : (protocol env L False).Explained (Begins env) (Explains env) a₀ h c g lin)
    (hstill : ¬ Moves c t) (ht : Busy c t) : Performs c t .diverge ∨
      ∃ l m, Performs c t (.lock l m) ∧ ∃ u, ∃ g ∈ c.guards u, g.excludes l m := by
  have hnext : ∀ a, Performs c t a → Performs c t .diverge ∨
      ∃ l m, Performs c t (.lock l m) ∧ ∃ u, ∃ g ∈ c.guards u, g.excludes l m := by
    intro a hp
    have hno : ¬ ∃ r s' gs, exec L c.guards t a c.shared r s' gs := by
      rintro ⟨r, s', gs, he⟩
      exact hstill (.inl ⟨a, r, s', gs, hp, he⟩)
    rcases performs_enabled hx hp with ⟨l, m, rfl⟩ | rfl | hen
    · refine .inr ⟨l, m, hp, ?_⟩
      by_contra hfree
      exact hno ⟨(), c.shared, _, fun u g hg he => hfree ⟨u, g, hg, he⟩, rfl, rfl⟩
    · exact .inl hp
    · exact absurd hen hno
  unfold Busy at ht
  cases hT : c.task t with
  | running op p =>
    cases p with
    | done r => exact absurd (.inr (.inl ⟨op, r, hT⟩)) hstill
    | step a k => exact hnext a (.inl ⟨op, k, hT⟩)
  | unwinding op p =>
    cases p with
    | done r => exact absurd (.inr (.inr ⟨op, hT⟩)) hstill
    | step a k => exact hnext a (.inr ⟨op, k, hT⟩)
  | _ =>
    simp only [hT] at ht

/-- What the machine of the operations without their answers asks for. -/
theorem Performs.asks {l : LockId} {m : Mode} (h : Performs c t (.lock l m)) :
    Locking.Asks (c.map fun _ => ()) t l m := by
  have htask : (c.map fun _ => ()).task t = (c.task t).map fun _ => () := rfl
  rcases h with ⟨op, k, h⟩ | ⟨op, k, h⟩
  · exact .inl ⟨op, fun r => k r >>= fun _ => .done (), by rw [htask, h]; rfl⟩
  · exact .inr ⟨op, k, by rw [htask, h]; rfl⟩

theorem busy_of_asks {l : LockId} {m : Mode} (h : Locking.Asks (c.map fun _ => ()) t l m) :
    Busy c t := by
  have htask : (c.map fun _ => ()).task t = (c.task t).map fun _ => () := rfl
  unfold Busy
  cases hT : c.task t with
  | running _ _ | unwinding _ _ => trivial
  | ready | finished _ _ | aborted _ =>
    rw [hT] at htask
    rcases h with ⟨op, k, h⟩ | ⟨op, k, h⟩ <;>
      · rw [htask] at h
        cases h

/-- While calls are in progress, one of them can take a step or return, whatever locks the
others own or wait for; and it is not refused behind a writer that queued before it, in
whatever order tasks queue. The exception is a loop that has used up its fuel. -/
theorem some_call_moves (hsync : env.awaits = false) {count : Nat} (hcount : 0 < count)
    {life : L.State} (before : Nat → Nat → Prop) [IsStrictOrder Nat before]
    (hr : Run (semantics env L) (Sync.answer env) (State.new K V count life) h c)
    (hq : ¬ c.Quiescent) : (∃ t, Performs c t .diverge) ∨
      ∃ t, Moves c t ∧ ¬ ∃ u, Locking.WaitsFor before (c.map fun _ => ()) t u := by
  by_contra hno
  rw [not_or] at hno
  obtain ⟨hdiverge, hstill⟩ := hno
  have hs : Rests env.hash (State.new K V count life) (Abstract.new K V) := Rests.new hcount life
  obtain ⟨g, lin, hx⟩ := explained hsync hs hr
  -- the same run of the operations without their answers
  have hcode : mapped (fun _ => ()) (Sync.answer env) = Sync.code env :=
    funext fun op => discard_answer op
  have hmap := hr.map fun _ => ()
  rw [hcode] at hmap
  have hstuck : ¬ Deadlocked (Locking.WaitsFor before (c.map fun _ => ())) {t | Busy c t} :=
    (Locking.Orderly.run hmap).not_deadlocked
  refine hstuck ⟨?_, fun t ht => ?_⟩
  · by_contra hempty
    exact hq (quiescent_of_idle fun t ht => hempty ⟨t, ht⟩)
  · by_cases hmove : Moves c t
    · -- it is refused, by a busy task
      by_contra hfree
      refine hstill ⟨t, hmove, fun ⟨u, hw⟩ => hfree ⟨u, ?_, hw⟩⟩
      obtain ⟨l, m, -, ⟨x, hg, -⟩ | ⟨m', ha, -⟩⟩ := hw
      · exact busy_of_guard hx hg
      · exact busy_of_asks ha
    · obtain ⟨l, m, hp, u, x, hg, he⟩ :=
        (busy_waits hx hmove ht).resolve_left fun hd => hdiverge ⟨t, hd⟩
      exact ⟨u, busy_of_guard hx hg, l, m, hp.asks, .inl ⟨x, hg, he⟩⟩

section Example

/-- A lookup is in progress, a clear waits for it, and an insertion queues behind the clear. -/
def queue : List (Turn (Sync.Op Nat Nat)) :=
  halfwayThere ++ [.call 4 (.get 1), .go 4 5, .call 5 .clear, .go 5 5, .call 6 (.insert 1 7),
    .go 6 1]

def stopsAt (t : Nat) (l : LockId) (m : Mode)
    (c : Config (semantics cachingEnv plainLifecycle) (Sync.Op Nat Nat) (Answer Nat Nat)) : Bool :=
  match c.task t with
  | .running _ (.step (.lock l' m') _) => l' = l && m' = m
  | _ => false

theorem performs_of_stopsAt {l : LockId} {m : Mode}
    {c : Config (semantics cachingEnv plainLifecycle) (Sync.Op Nat Nat) (Answer Nat Nat)}
    (h : stopsAt t l m c) : Performs c t (.lock l m) := by
  unfold stopsAt at h
  split at h
  · next op l' m' k ht =>
    rw [Bool.and_eq_true, decide_eq_true_eq, decide_eq_true_eq] at h
    obtain ⟨rfl, rfl⟩ := h
    exact .inl ⟨op, k, ht⟩
  · cases h

def queued (c : Config (semantics cachingEnv plainLifecycle) (Sync.Op Nat Nat) (Answer Nat Nat)) :
    Bool :=
  stopsAt 5 .routing .excl c && stopsAt 6 .routing .shared c &&
    (c.guards 4).any fun g => g.excludes .routing .excl

theorem queue_queues : queued
    (cachingMap.follow (Sync.answer cachingEnv) queue
      ([], .start _ _ _ (State.new Nat Nat 2 ()))).2 := by
  decide +kernel

end Example

theorem some_call_moves_queued : ∃
    (h : List (Label (Sync.Op Nat Nat) (Answer Nat Nat)))
    (c : Config (semantics cachingEnv plainLifecycle) (Sync.Op Nat Nat) (Answer Nat Nat)),
    Run (semantics cachingEnv plainLifecycle) (Sync.answer cachingEnv) (State.new Nat Nat 2 ())
      h c ∧
      Locking.WaitsFor (· < ·) (c.map fun _ => ()) 5 4 ∧
      Locking.WaitsFor (· < ·) (c.map fun _ => ()) 6 5 ∧ ((∃ t, Performs c t .diverge) ∨
        ∃ t, Moves c t ∧ ¬ ∃ u, Locking.WaitsFor (· < ·) (c.map fun _ => ()) t u) := by
  obtain ⟨tr, hf, he, -⟩ := cachingMap.exists_follows queue queued queue_queues
  rw [queued, Bool.and_eq_true, Bool.and_eq_true] at he
  obtain ⟨⟨h₅, h₆⟩, hown⟩ := he
  have hclear := performs_of_stopsAt h₅
  have hinsert := performs_of_stopsAt h₆
  obtain ⟨g, hg, hex⟩ := List.any_eq_true.mp hown
  have hq : ¬ tr.2.Quiescent := fun hq => by
    have hbusy := busy_of_asks hinsert.asks
    unfold Busy at hbusy
    have hidle := hq 6
    cases ht : tr.2.task 6 with
    | running _ _ | unwinding _ _ => rw [ht] at hidle; exact hidle
    | ready | finished _ _ | aborted _ => rw [ht] at hbusy; exact hbusy
  exact ⟨tr.1, tr.2, hf.run, ⟨_, _, hclear.asks, .inl ⟨g, hg, hex⟩⟩,
    ⟨_, _, hinsert.asks, .inr ⟨_, hclear.asks, .inr rfl, by decide⟩⟩,
    some_call_moves rfl Nat.two_pos (· < ·) hf.run hq⟩

end Starshard
