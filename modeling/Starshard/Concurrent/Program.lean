import Mathlib.Algebra.GroupWithZero.Nat
import Mathlib.Logic.Function.Basic

/-! Sequential code over atomic actions. A program is a tree: each node performs
one action and continues with whatever the shared state answered. Nothing here
fixes the actions, so the same trees serve every machine built on them. -/
namespace Concurrent

inductive Program (Act : Type) (Resp : Act → Type) (α : Type) : Type where
  | done : α → Program Act Resp α
  | step : (a : Act) → (Resp a → Program Act Resp α) → Program Act Resp α

namespace Program

variable {Act : Type} {Resp : Act → Type} {α β γ : Type}

protected def bind : Program Act Resp α → (α → Program Act Resp β) → Program Act Resp β
  | .done x, f => f x
  | .step a k, f => .step a fun r => (k r).bind f

instance : Monad (Program Act Resp) where
  pure := .done
  bind := Program.bind

/-- One action as a program. -/
def perform (a : Act) : Program Act Resp (Resp a) := .step a .done

@[simp] theorem pure_eq (x : α) : (pure x : Program Act Resp α) = .done x := rfl

@[simp] theorem done_bind (x : α) (f : α → Program Act Resp β) :
    (Program.done x >>= f) = f x := rfl

@[simp] theorem step_bind (a : Act) (k : Resp a → Program Act Resp α)
    (f : α → Program Act Resp β) :
    (Program.step a k >>= f) = .step a fun r => k r >>= f := rfl

@[simp] theorem perform_bind (a : Act) (f : Resp a → Program Act Resp β) :
    (perform a >>= f) = .step a f := rfl

theorem bind_done (p : Program Act Resp α) : (p >>= Program.done) = p := by
  induction p with
  | done x => rfl
  | step a k ih =>
    rw [step_bind]
    congr 1
    funext r
    exact ih r

theorem bind_assoc (p : Program Act Resp α) (f : α → Program Act Resp β)
    (g : β → Program Act Resp γ) : ((p >>= f) >>= g) = p >>= fun x => f x >>= g := by
  induction p with
  | done x => rfl
  | step a k ih =>
    simp only [step_bind]
    congr 1
    funext r
    exact ih r

instance : LawfulMonad (Program Act Resp) :=
  LawfulMonad.mk' _ bind_done (fun _ _ => rfl) bind_assoc

end Program
end Concurrent
