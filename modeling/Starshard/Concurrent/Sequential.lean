import Starshard.Concurrent.Machine

/-! Uninterrupted executions of composed programs. -/
namespace Concurrent

variable {Act : Type} {Resp : Act → Type} {M : Semantics Act Resp} {α β : Type}
  {p : Program Act Resp α} {f : α → Program Act Resp β} {s s' s'' : M.Shared}
  {gs gs' gs'' : List M.Guard}

theorem Exec.done_inv {x y : α} (h : Exec M (.done x) s gs y s' gs') :
    y = x ∧ s' = s ∧ gs' = gs := by
  cases h
  exact ⟨rfl, rfl, rfl⟩

theorem Exec.step_inv {a : Act} {k : Resp a → Program Act Resp α} {x : α}
    (h : Exec M (.step a k) s gs x s'' gs'') :
    ∃ r s' gs', M.exec (solo gs) 0 a s r s' gs' ∧ Exec M (k r) s' gs' x s'' gs'' := by
  cases h with
  | step he h => exact ⟨_, _, _, he, h⟩

theorem Exec.bind {x : α} {y : β} (h : Exec M p s gs x s' gs')
    (h' : Exec M (f x) s' gs' y s'' gs'') : Exec M (p >>= f) s gs y s'' gs'' := by
  induction h with
  | done => exact h'
  | step he _ ih => exact .step he (ih h')

theorem Exec.of_bind {y : β} (h : Exec M (p >>= f) s gs y s'' gs'') :
    ∃ x s' gs', Exec M p s gs x s' gs' ∧ Exec M (f x) s' gs' y s'' gs'' := by
  induction p generalizing s gs with
  | done x => exact ⟨x, s, gs, .done, h⟩
  | step a k ih =>
    obtain ⟨r, s₁, gs₁, he, h⟩ := h.step_inv
    obtain ⟨x, s', gs', h₁, h₂⟩ := ih r h
    exact ⟨x, s', gs', .step he h₁, h₂⟩

section Perform

open Function (update)

variable {Op Res : Type} {code : Op → Program Act Resp Res} {s₀ : M.Shared}
  {h : List (Label Op Res)} {c : Config M Op Res} {t : Nat} {op : Op}

/-- What an action does while nothing else runs does not depend on the number of its task. -/
def Semantics.Anonymous (M : Semantics Act Resp) : Prop :=
  ∀ {gs t a s r s' gs'}, M.exec (solo gs) 0 a s r s' gs' →
    M.exec (update (fun _ => []) t gs) t a s r s' gs'

theorem Run.act_alone (hM : M.Anonymous) {p : Program Act Resp Res} {r : Res}
    {T : Nat → Task Act Resp Op Res} (he : Exec M p s gs r s' gs')
    (hr : Run M code s₀ h ⟨s, update (fun _ => []) t gs, update T t (.running op p)⟩) :
    ∃ n, Run M code s₀ (h ++ List.replicate n .tau)
      ⟨s', update (fun _ => []) t gs', update T t (.running op (.done r))⟩ := by
  induction he generalizing h with
  | done => exact ⟨0, by simpa using hr⟩
  | @step a k s gs r s' gs' x s'' gs'' hexec _ ih =>
    have hstep := hr.step (.act (Function.update_self ..) (hM hexec))
    rw [Function.update_idem, Function.update_idem] at hstep
    obtain ⟨n, hrun⟩ := ih hstep
    rw [List.append_assoc, List.singleton_append, ← List.replicate_succ] at hrun
    exact ⟨n + 1, hrun⟩

/-- Where no call is in progress, one more call may run alone and return. -/
theorem Run.perform (hM : M.Anonymous) (hr : Run M code s₀ h c) (ht : c.task t = .ready)
    (hg : c.guards = fun _ => []) {r : Res} (he : Exec M (code op) c.shared [] r s' []) :
    ∃ n, Run M code s₀ (h ++ .call t op :: List.replicate n .tau ++ [.ret t r])
      ⟨s', fun _ => [], update c.task t (.finished op r)⟩ := by
  have hnil : update (fun _ => []) t [] = c.guards := by rw [hg, Function.update_eq_self_iff]
  have hcall : Run M code s₀ (h ++ [.call t op])
      ⟨c.shared, update (fun _ => []) t [], update c.task t (.running op (code op))⟩ :=
    hnil ▸ hr.step (.call ht)
  obtain ⟨n, hrun⟩ := Run.act_alone hM he hcall
  have hret := hrun.step (.ret (Function.update_self ..))
  rw [Function.update_idem, Function.update_eq_self] at hret
  exact ⟨n, by simpa using hret⟩

end Perform
end Concurrent
