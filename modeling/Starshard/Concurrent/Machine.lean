import Starshard.Concurrent.Program

/-! Interleaving of tasks that own scoped guards.

A guard is what a task must undo when it leaves a scope: a lock, an open
accounting record, a ticket. Every task carries the stack of its guards. A task
can be cut at some of its actions, by unwinding or by being dropped; the rest of
its program is then replaced by the release of the guards it still owns.

Each operation call is a task of its own, so calls of one client are tasks whose
call and return do not overlap. -/
namespace Concurrent

/-- What the atomic actions do. `exec G t a s r s' gs` lets task `t` perform `a`
in shared state `s` while task `u` owns the guards `G u`; the action answers `r`
and leaves `s'` and the guards `gs` of `t`. -/
structure Semantics (Act : Type) (Resp : Act → Type) where
  Shared : Type
  Guard : Type
  exec : (Nat → List Guard) → Nat → (a : Act) → Shared → Resp a → Shared → List Guard → Prop
  /-- Actions that may have to wait for other tasks. -/
  blocks : Act → Prop
  /-- `cut a s s'` permits the operation to end inside `a`, leaving `s'`. -/
  cut : Act → Shared → Shared → Prop
  unwind : List Guard → Program Act Resp Unit

variable {Act : Type} {Resp : Act → Type} {Op Res : Type}

inductive Task (Act : Type) (Resp : Act → Type) (Op Res : Type) where
  | ready
  | running (op : Op) (p : Program Act Resp Res)
  | unwinding (op : Op) (p : Program Act Resp Unit)
  | finished (op : Op) (r : Res)
  | aborted (op : Op)

structure Config (M : Semantics Act Resp) (Op Res : Type) where
  shared : M.Shared
  guards : Nat → List M.Guard
  task : Nat → Task Act Resp Op Res

inductive Label (Op Res : Type) where
  | call (t : Nat) (op : Op)
  | ret (t : Nat) (r : Res)
  | cut (t : Nat)
  | tau

open Function (update)

/-- One step of the machine; `code` gives the program of an operation. -/
inductive Step (M : Semantics Act Resp) (code : Op → Program Act Resp Res) :
    Config M Op Res → Label Op Res → Config M Op Res → Prop where
  | call {s G T} {t : Nat} {op : Op} : T t = .ready →
      Step M code ⟨s, G, T⟩ (.call t op) ⟨s, G, update T t (.running op (code op))⟩
  | act {s G T} {t : Nat} {op : Op} {a : Act} {k r s' gs} : T t = .running op (.step a k) →
      M.exec G t a s r s' gs →
      Step M code ⟨s, G, T⟩ .tau ⟨s', update G t gs, update T t (.running op (k r))⟩
  | cut {s G T} {t : Nat} {op : Op} {a : Act} {k s'} : T t = .running op (.step a k) →
      M.cut a s s' →
      Step M code ⟨s, G, T⟩ (.cut t) ⟨s', G, update T t (.unwinding op (M.unwind (G t)))⟩
  | unwind {s G T} {t : Nat} {op : Op} {a : Act} {k r s' gs} :
      T t = .unwinding op (.step a k) → M.exec G t a s r s' gs →
      Step M code ⟨s, G, T⟩ .tau ⟨s', update G t gs, update T t (.unwinding op (k r))⟩
  | ret {s G T} {t : Nat} {op : Op} {r : Res} : T t = .running op (.done r) →
      Step M code ⟨s, G, T⟩ (.ret t r) ⟨s, G, update T t (.finished op r)⟩
  | settled {s G T} {t : Nat} {op : Op} : T t = .unwinding op (.done ()) →
      Step M code ⟨s, G, T⟩ .tau ⟨s, G, update T t (.aborted op)⟩

/-- No operation has been called. -/
def Config.start (M : Semantics Act Resp) (Op Res : Type) (s : M.Shared) : Config M Op Res :=
  ⟨s, fun _ => [], fun _ => .ready⟩

/-- A finite execution from `s` with its labels in time order. -/
inductive Run (M : Semantics Act Resp) (code : Op → Program Act Resp Res) (s : M.Shared) :
    List (Label Op Res) → Config M Op Res → Prop where
  | start : Run M code s [] (Config.start M Op Res s)
  | step {h c l c'} : Run M code s h c → Step M code c l c' → Run M code s (h ++ [l]) c'

/-- No operation is between its call and its end. -/
def Config.Quiescent {M : Semantics Act Resp} (c : Config M Op Res) : Prop :=
  ∀ t, match c.task t with
    | .running _ _ | .unwinding _ _ => False
    | _ => True

/-- The state can be observed between operations. -/
def Reachable (M : Semantics Act Resp) (code : Op → Program Act Resp Res) (s₀ s : M.Shared) :
    Prop :=
  ∃ h c, Run M code s₀ h c ∧ c.Quiescent ∧ c.shared = s

/-- The guards of a single task with no other task running. -/
def solo {Guard : Type} (gs : List Guard) : Nat → List Guard := update (fun _ => []) 0 gs

/-- Uninterrupted execution of one program while nothing else runs. -/
inductive Exec (M : Semantics Act Resp) {α : Type} :
    Program Act Resp α → M.Shared → List M.Guard → α → M.Shared → List M.Guard → Prop where
  | done {x s gs} : Exec M (.done x) s gs x s gs
  | step {a k s gs r s' gs' x s'' gs''} : M.exec (solo gs) 0 a s r s' gs' →
      Exec M (k r) s' gs' x s'' gs'' → Exec M (.step a k) s gs x s'' gs''

@[simp] theorem solo_self {Guard : Type} (gs : List Guard) : solo gs 0 = gs := by
  simp [solo]

@[simp] theorem update_solo {Guard : Type} (gs gs' : List Guard) :
    update (solo gs) 0 gs' = solo gs' := by
  simp [solo]

end Concurrent
