import Starshard.Concurrent.Totals

/-! Runs that are computed. A performer answers the actions of finitely many tasks; a
schedule says whose turn it is. A task that cannot go on lets its turn pass. -/
namespace Concurrent

variable {Act : Type} {Resp : Act → Type} {M : Semantics Act Resp} {Op Res : Type}

/-- One outcome of each action, when only the tasks below `tasks` own guards. -/
structure Performer (M : Semantics Act Resp) where
  tasks : Nat
  perform : (Nat → List M.Guard) → Nat → (a : Act) → M.Shared →
    Option (Resp a × M.Shared × List M.Guard)
  sound : ∀ {G t a s r s' gs}, (∀ u, tasks ≤ u → G u = []) →
    perform G t a s = some (r, s', gs) → M.exec G t a s r s' gs
  /-- The operation may end inside the action, which changes nothing. -/
  cuts : Act → Bool
  cuts_sound : ∀ {a s}, cuts a → M.cut a s s

inductive Turn (Op : Type) where
  | call (t : Nat) (op : Op)
  /-- So many steps of a task, as far as it can go. -/
  | go (t n : Nat)
  | cut (t : Nat)

def Turn.task : Turn Op → Nat
  | .call t _ | .go t _ | .cut t => t

/-- The labels so far, and the configuration. -/
abbrev Trace (M : Semantics Act Resp) (Op Res : Type) := List (Label Op Res) × Config M Op Res

namespace Performer

open Function (update)

variable (P : Performer M) (code : Op → Program Act Resp Res)

def advance (t : Nat) (tr : Trace M Op Res) : Trace M Op Res :=
  match tr.2.task t with
  | .running op (.step a k) => match P.perform tr.2.guards t a tr.2.shared with
    | some (r, s', gs) =>
      (tr.1 ++ [.tau], ⟨s', update tr.2.guards t gs, update tr.2.task t (.running op (k r))⟩)
    | none => tr
  | .running op (.done r) =>
    (tr.1 ++ [.ret t r], ⟨tr.2.shared, tr.2.guards, update tr.2.task t (.finished op r)⟩)
  | .unwinding op (.step a k) => match P.perform tr.2.guards t a tr.2.shared with
    | some (r, s', gs) =>
      (tr.1 ++ [.tau], ⟨s', update tr.2.guards t gs, update tr.2.task t (.unwinding op (k r))⟩)
    | none => tr
  | .unwinding op (.done ()) =>
    (tr.1 ++ [.tau], ⟨tr.2.shared, tr.2.guards, update tr.2.task t (.aborted op)⟩)
  | _ => tr

def go (t : Nat) : Nat → Trace M Op Res → Trace M Op Res
  | 0, tr => tr
  -- the match has each step computed before the next
  | n + 1, tr => match P.advance t tr with
    | (h, ⟨s, G, T⟩) => go t n (h, ⟨s, G, T⟩)

def call (t : Nat) (op : Op) (tr : Trace M Op Res) : Trace M Op Res :=
  match tr.2.task t with
  | .ready => (tr.1 ++ [.call t op],
    ⟨tr.2.shared, tr.2.guards, update tr.2.task t (.running op (code op))⟩)
  | _ => tr

def cut (t : Nat) (tr : Trace M Op Res) : Trace M Op Res :=
  match tr.2.task t with
  | .running op (.step a _) =>
    if P.cuts a then
      (tr.1 ++ [.cut t], ⟨tr.2.shared, tr.2.guards,
        update tr.2.task t (.unwinding op (M.unwind (tr.2.guards t)))⟩)
    else tr
  | _ => tr

def turn (tr : Trace M Op Res) (x : Turn Op) : Trace M Op Res :=
  if x.task < P.tasks then
    match x with
    | .call t op => call code t op tr
    | .go t n => P.go t n tr
    | .cut t => P.cut t tr
  else tr

def follow : List (Turn Op) → Trace M Op Res → Trace M Op Res
  | [], tr => tr
  | x :: schedule, tr => match P.turn code tr x with
    | (h, ⟨s, G, T⟩) => follow schedule (h, ⟨s, G, T⟩)

/-- The trace is a run, and the other tasks have not been called. -/
structure Follows (s₀ : M.Shared) (tr : Trace M Op Res) : Prop where
  run : Run M code s₀ tr.1 tr.2
  guards : ∀ u, P.tasks ≤ u → tr.2.guards u = []
  ready : ∀ u, P.tasks ≤ u → tr.2.task u = .ready

variable {P code} {s₀ : M.Shared} {tr : Trace M Op Res} {t : Nat}

theorem Follows.start : P.Follows code s₀ ([], Config.start M Op Res s₀) :=
  ⟨.start, fun _ _ => rfl, fun _ _ => rfl⟩

theorem Follows.step (h : P.Follows code s₀ tr) (ht : t < P.tasks) {l : Label Op Res}
    {s' : M.Shared} {gs : List M.Guard} {x : Task Act Resp Op Res}
    (hs : Step M code tr.2 l ⟨s', update tr.2.guards t gs, update tr.2.task t x⟩) :
    P.Follows code s₀ (tr.1 ++ [l], ⟨s', update tr.2.guards t gs, update tr.2.task t x⟩) where
  run := h.run.step hs
  guards u hu := (Function.update_of_ne (by omega) _ _).trans (h.guards u hu)
  ready u hu := (Function.update_of_ne (by omega) _ _).trans (h.ready u hu)

theorem Follows.still (h : P.Follows code s₀ tr) (ht : t < P.tasks) {l : Label Op Res}
    {x : Task Act Resp Op Res}
    (hs : Step M code tr.2 l ⟨tr.2.shared, tr.2.guards, update tr.2.task t x⟩) :
    P.Follows code s₀ (tr.1 ++ [l], ⟨tr.2.shared, tr.2.guards, update tr.2.task t x⟩) := by
  have hsame : update tr.2.guards t (tr.2.guards t) = tr.2.guards := Function.update_eq_self ..
  have hstep : P.Follows code s₀ (tr.1 ++ [l],
      ⟨tr.2.shared, update tr.2.guards t (tr.2.guards t), update tr.2.task t x⟩) :=
    h.step ht (hsame.symm ▸ hs)
  rwa [hsame] at hstep

theorem Follows.advance (h : P.Follows code s₀ tr) (ht : t < P.tasks) :
    P.Follows code s₀ (P.advance t tr) := by
  unfold Performer.advance
  split
  · next op a k htask =>
    split
    · next r s' gs hperf => exact h.step ht (.act htask (P.sound h.guards hperf))
    · exact h
  · next op r htask => exact h.still ht (.ret htask)
  · next op a k htask =>
    split
    · next r s' gs hperf => exact h.step ht (.unwind htask (P.sound h.guards hperf))
    · exact h
  · next op htask => exact h.still ht (.settled htask)
  · exact h

theorem Follows.go (ht : t < P.tasks) : ∀ (n : Nat) {tr : Trace M Op Res},
    P.Follows code s₀ tr → P.Follows code s₀ (P.go t n tr)
  | 0, _, h => h
  | n + 1, _, h => Follows.go ht n (h.advance ht)

theorem Follows.call (h : P.Follows code s₀ tr) (ht : t < P.tasks) (op : Op) :
    P.Follows code s₀ (Performer.call code t op tr) := by
  unfold Performer.call
  split
  · next htask => exact h.still ht (.call htask)
  · exact h

theorem Follows.cut (h : P.Follows code s₀ tr) (ht : t < P.tasks) :
    P.Follows code s₀ (P.cut t tr) := by
  unfold Performer.cut
  split
  · next op a k htask =>
    split
    · next hcut => exact h.still ht (.cut htask (P.cuts_sound hcut))
    · exact h
  · exact h

theorem Follows.turn (h : P.Follows code s₀ tr) (x : Turn Op) :
    P.Follows code s₀ (P.turn code tr x) := by
  unfold Performer.turn
  split
  · next ht =>
    cases x with
    | call t op => exact h.call ht op
    | go t n => exact .go ht n h
    | cut t => exact h.cut ht
  · exact h

/-- A schedule that is followed is a run. -/
theorem Follows.follow (schedule : List (Turn Op)) {tr : Trace M Op Res}
    (h : P.Follows code s₀ tr) : P.Follows code s₀ (P.follow code schedule tr) := by
  induction schedule generalizing tr with
  | nil => exact h
  | cons x schedule ih => exact ih (h.turn x)

/-- What a call answered. -/
def result? : Task Act Resp Op Res → Option Res
  | .finished _ r => some r
  | _ => none

theorem Follows.returned (h : P.Follows code s₀ tr) {r : Res}
    (hr : result? (tr.2.task t) = some r) : .ret t r ∈ tr.1 := by
  cases ht : tr.2.task t with
  | finished op r' =>
    rw [ht] at hr
    cases hr
    exact h.run.finished ht
  | _ => rw [ht] at hr; cases hr

/-- No task of the schedule is in progress. -/
def idle (P : Performer M) (c : Config M Op Res) : Bool :=
  (List.range P.tasks).all fun t => match c.task t with
    | .running _ _ | .unwinding _ _ => false
    | _ => true

theorem Follows.quiescent (h : P.Follows code s₀ tr) (hi : P.idle tr.2) : tr.2.Quiescent := by
  intro t
  by_cases ht : t < P.tasks
  · have hall := List.all_eq_true.mp hi t (List.mem_range.mpr ht)
    cases hT : tr.2.task t with
    | running op p => rw [hT] at hall; cases hall
    | unwinding op p => rw [hT] at hall; cases hall
    | _ => trivial
  · rw [h.ready t (Nat.le_of_not_lt ht)]
    trivial

/-- The first tasks have answered, and no task is in progress. -/
def ends [DecidableEq Res] (P : Performer M) (answers : List Res) (c : Config M Op Res) : Bool :=
  P.idle c &&
    decide ((List.range answers.length).map (fun t => result? (c.task t)) = answers.map some)

theorem Follows.ended [DecidableEq Res] {answers : List Res} (h : P.Follows code s₀ tr)
    (he : P.ends answers tr.2) :
    tr.2.Quiescent ∧ ∀ t r, answers[t]? = some r → .ret t r ∈ tr.1 := by
  rw [ends, Bool.and_eq_true, decide_eq_true_eq] at he
  refine ⟨h.quiescent he.1, fun t r ht => h.returned ?_⟩
  obtain ⟨hlt, rfl⟩ := List.getElem?_eq_some_iff.mp ht
  have hr := congrArg (fun l => l[t]?) he.2
  simpa [hlt] using hr

def alone {α : Type} : Nat → Program Act Resp α → M.Shared → List M.Guard →
    Option (α × M.Shared × List M.Guard)
  | 0, _, _, _ => none
  | _ + 1, .done x, s, gs => some (x, s, gs)
  | n + 1, .step a k, s, gs => match P.perform (solo gs) 0 a s with
    | some (r, s', gs') => alone n (k r) s' gs'
    | none => none

theorem exec_of_alone {α : Type} (htasks : 0 < P.tasks) : ∀ (n : Nat) {p : Program Act Resp α}
    {s s' : M.Shared} {gs gs' : List M.Guard} {x : α},
    P.alone n p s gs = some (x, s', gs') → Exec M p s gs x s' gs'
  | n + 1, .done y, s, _, gs, _, _, h => by
    cases h
    exact .done
  | n + 1, .step a k, s, _, gs, _, _, h => by
    unfold Performer.alone at h
    split at h
    · next r s₁ gs₁ hperf =>
      refine .step (P.sound (fun u hu => ?_) hperf) (exec_of_alone htasks n h)
      exact Function.update_of_ne (by omega) _ _
    · cases h

/-- The labels a turn may add. -/
def Emits (l : Label Op Res) : Turn Op → Prop
  | .call t op => l = .call t op
  | .go t _ => l = .tau ∨ ∃ r, l = .ret t r
  | .cut t => l = .cut t

theorem mem_advance {l : Label Op Res} (h : l ∈ (P.advance t tr).1) :
    l ∈ tr.1 ∨ l = .tau ∨ ∃ r, l = .ret t r := by
  have hadd : ∀ {x : Label Op Res}, l ∈ tr.1 ++ [x] → x = .tau ∨ (∃ r, x = .ret t r) →
      l ∈ tr.1 ∨ l = .tau ∨ ∃ r, l = .ret t r := by
    intro x h hx
    refine (List.mem_append.mp h).imp_right fun h => ?_
    rwa [List.mem_singleton.mp h]
  unfold Performer.advance at h
  split at h
  · split at h
    · exact hadd h (.inl rfl)
    · exact .inl h
  · exact hadd h (.inr ⟨_, rfl⟩)
  · split at h
    · exact hadd h (.inl rfl)
    · exact .inl h
  · exact hadd h (.inl rfl)
  · exact .inl h

theorem mem_go : ∀ (n : Nat) {tr : Trace M Op Res} {l : Label Op Res},
    l ∈ (P.go t n tr).1 → l ∈ tr.1 ∨ l = .tau ∨ ∃ r, l = .ret t r
  | 0, _, _, h => .inl h
  | n + 1, _, _, h => (mem_go n h).elim mem_advance .inr

theorem mem_turn {l : Label Op Res} {x : Turn Op} (h : l ∈ (P.turn code tr x).1) :
    l ∈ tr.1 ∨ Emits l x := by
  unfold Performer.turn at h
  split at h
  · cases x with
    | call t op =>
      have h : l ∈ (Performer.call code t op tr).1 := h
      unfold Performer.call at h
      split at h
      · exact (List.mem_append.mp h).imp_right List.mem_singleton.mp
      · exact .inl h
    | go t n => exact mem_go n h
    | cut t =>
      have h : l ∈ (P.cut t tr).1 := h
      unfold Performer.cut at h
      split at h
      · split at h
        · exact (List.mem_append.mp h).imp_right List.mem_singleton.mp
        · exact .inl h
      · exact .inl h
  · exact .inl h

theorem mem_follow {l : Label Op Res} (schedule : List (Turn Op)) {tr : Trace M Op Res}
    (h : l ∈ (P.follow code schedule tr).1) : l ∈ tr.1 ∨ ∃ x ∈ schedule, Emits l x := by
  induction schedule generalizing tr with
  | nil => exact .inl h
  | cons x schedule ih =>
    rcases ih h with h | ⟨y, hy, h⟩
    · exact (mem_turn h).imp_right fun h => ⟨x, List.mem_cons_self, h⟩
    · exact .inr ⟨y, List.mem_cons_of_mem _ hy, h⟩

/-- A run whose end passes a test, when following the schedule does. -/
theorem exists_follows (schedule : List (Turn Op)) (test : Config M Op Res → Bool)
    (h : test (P.follow code schedule ([], .start M Op Res s₀)).2) :
    ∃ tr : Trace M Op Res, P.Follows code s₀ tr ∧ test tr.2 ∧
      (∀ t op, .call t op ∈ tr.1 → .call t op ∈ schedule) ∧
      ∀ t, .cut t ∈ tr.1 → .cut t ∈ schedule := by
  refine ⟨_, .follow schedule .start, h, fun t op hc => ?_, fun t hc => ?_⟩
  · obtain ⟨x, hx, hl⟩ := (mem_follow schedule hc).resolve_left List.not_mem_nil
    cases x with
    | call u op' =>
      cases hl
      exact hx
    | go u n => rcases hl with hl | ⟨r, hl⟩ <;> cases hl
    | cut u => cases hl
  · obtain ⟨x, hx, hl⟩ := (mem_follow schedule hc).resolve_left List.not_mem_nil
    cases x with
    | call u op => cases hl
    | go u n => rcases hl with hl | ⟨r, hl⟩ <;> cases hl
    | cut u =>
      cases hl
      exact hx

end Performer
end Concurrent
