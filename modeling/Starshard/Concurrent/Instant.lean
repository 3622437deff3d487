import Starshard.Concurrent.Soundness

/-! Instants. Code that reads several parts of the shared state passes a view at which all it
read is current; in every interleaving, some state between its call and its return is then
the one it answers from. -/
namespace Concurrent.Protocol

open Function (update)

variable {Act : Type} {Resp : Act → Type} {Op Res Ev A α β : Type} {M : Semantics Act Resp}
  {P : Protocol M Ev A}

/-- Correctness of code that passes a view satisfying `Ψ` of the value it then returns. -/
def Via (P : Protocol M Ev A) (Ψ : α → P.View → Prop) :
    Program Act Resp α → P.View → (α → P.View → Prop) → Prop
  | .done x, v, Φ => Ψ x v ∧ Φ x v
  | .step a k, v, Φ => (∃ x, Ψ x v ∧ P.Wp (.step a k) v fun y v' => y = x ∧ Φ y v') ∨
      P.Cuts a v ∧ P.Rule a v fun r v' => Via P Ψ (k r) v' Φ

section Rules

variable {Ψ : α → P.View → Prop} {Φ : α → P.View → Prop} {p : Program Act Resp α} {v : P.View}

theorem Via.here {x : α} (hΨ : Ψ x v) (h : P.Wp p v fun y v' => y = x ∧ Φ y v') :
    P.Via Ψ p v Φ := by
  cases p with
  | done y =>
    obtain ⟨rfl, hΦ⟩ := h
    exact ⟨hΨ, hΦ⟩
  | step a k => exact .inl ⟨x, hΨ, h⟩

theorem Via.wp (h : P.Via Ψ p v Φ) : P.Wp p v Φ := by
  induction p generalizing v with
  | done x => exact h.2
  | step a k ih =>
    rcases h with ⟨x, -, h⟩ | h
    · exact h.mono fun _ _ hy => hy.2
    · exact ⟨h.1, h.2.mono fun r _ hr => ih r hr⟩

theorem Via.of_wp (h : P.Wp p v Φ) (hΨ : ∀ x v, Φ x v → Ψ x v) : P.Via Ψ p v Φ := by
  induction p generalizing v with
  | done x => exact ⟨hΨ _ _ h, h⟩
  | step a k ih => exact .inr ⟨h.1, h.2.mono fun r _ hr => ih r hr⟩

theorem Via.mono {Ψ' Φ' : α → P.View → Prop} (h : P.Via Ψ p v Φ) (hΨ : ∀ x v, Ψ x v → Ψ' x v)
    (hΦ : ∀ x v, Φ x v → Φ' x v) : P.Via Ψ' p v Φ' := by
  induction p generalizing v with
  | done x => exact ⟨hΨ _ _ h.1, hΦ _ _ h.2⟩
  | step a k ih =>
    rcases h with ⟨x, hx, h⟩ | h
    · exact .inl ⟨x, hΨ _ _ hx, h.mono fun _ _ hy => ⟨hy.1, hΦ _ _ hy.2⟩⟩
    · exact .inr ⟨h.1, h.2.mono fun r _ hr => ih r hr⟩

/-- The view is passed after `p`. -/
theorem Via.after {q : Program Act Resp β} {f : β → Program Act Resp α}
    (h : P.Wp q v fun x v' => P.Via Ψ (f x) v' Φ) : P.Via Ψ (q >>= f) v Φ := by
  induction q generalizing v with
  | done x => exact h
  | step a k ih => exact .inr ⟨h.1, h.2.mono fun r _ hr => ih r hr⟩

/-- The view is passed in `q`, and what follows is determined by what `q` returns. -/
theorem Via.bind {q : Program Act Resp β} {f : β → Program Act Resp α} {r : β → α}
    (h : P.Via (fun x => Ψ (r x)) q v fun x v' =>
      P.Wp (f x) v' fun y v'' => y = r x ∧ Φ y v'') : P.Via Ψ (q >>= f) v Φ := by
  induction q generalizing v with
  | done x => exact .here h.1 h.2
  | step a k ih =>
    rcases h with ⟨x, hx, h⟩ | h
    · refine .here (x := r x) hx (Wp.bind (h.mono fun y v' hy => ?_))
      obtain ⟨rfl, hy⟩ := hy
      exact hy
    · exact .inr ⟨h.1, h.2.mono fun r _ hr => ih r hr⟩

end Rules

/-- Between the call of task `t` and its return of `r` there was a state that the task saw
from a view satisfying `Ψ`. -/
def Instant (P : Protocol M Ev A) (code : Op → Program Act Resp Res) (s₀ : M.Shared)
    (Ψ : Op → Res → P.View → Prop) (h : List (Label Op Res)) (t : Nat) (op : Op) (r : Res) :
    Prop :=
  ∃ h₁ h₂ c v g, h = h₁ ++ h₂ ∧ Run M code s₀ h₁ c ∧ .call t op ∈ h₁ ∧ (∀ r, .ret t r ∉ h₁) ∧
    P.Holds t v c.shared c.guards g ∧ Ψ op r v

/-- Every operation passes a view satisfying `Ψ` before it returns. -/
def Passes (P : Protocol M Ev A) (code : Op → Program Act Resp Res) (spec : Op → P.Spec)
    (accept : Op → List Ev → Res → Prop) (Ψ : Op → Res → P.View → Prop) : Prop :=
  ∀ op, P.meets (spec op) [] ∧ ∀ v, P.initial v → P.spec v = spec op →
    P.Via (Ψ op) (code op) v (P.Returns accept op)

variable {code : Op → Program Act Resp Res} {accept : Op → List Ev → Res → Prop}
  {spec : Op → P.Spec} {Ψ : Op → Res → P.View → Prop} {s₀ : M.Shared} {init : A}
  {h : List (Label Op Res)} {g : P.Ghost} {lin : List (Nat × Ev)} {t : Nat} {op : Op} {r : Res}

theorem Instant.snoc (l : Label Op Res) (hi : P.Instant code s₀ Ψ h t op r) :
    P.Instant code s₀ Ψ (h ++ [l]) t op r := by
  obtain ⟨h₁, h₂, c, v, g, rfl, hi⟩ := hi
  exact ⟨h₁, h₂ ++ [l], c, v, g, List.append_assoc .., hi⟩

/-- The view of an operation lies ahead, or it was passed during `h`. -/
def Underway (P : Protocol M Ev A) (code : Op → Program Act Resp Res) (s₀ : M.Shared)
    (accept : Op → List Ev → Res → Prop) (Ψ : Op → Res → P.View → Prop)
    (h : List (Label Op Res)) (t : Nat) (op : Op) (p : Program Act Resp Res) (v : P.View) :
    Prop :=
  P.Via (Ψ op) p v (P.Returns accept op) ∨
    ∃ r, P.Instant code s₀ Ψ h t op r ∧ P.Wp p v fun y v' => y = r ∧ P.Returns accept op y v'

/-- The view of an operation lies ahead of the next step, or it was passed during `h`. -/
def Pending (P : Protocol M Ev A) (code : Op → Program Act Resp Res) (s₀ : M.Shared)
    (accept : Op → List Ev → Res → Prop) (Ψ : Op → Res → P.View → Prop)
    (h : List (Label Op Res)) (t : Nat) (op : Op) (p : Program Act Resp Res) (v : P.View) :
    Prop :=
  (∃ a k, p = .step a k ∧ P.Cuts a v ∧
    P.Rule a v fun r v' => P.Via (Ψ op) (k r) v' (P.Returns accept op)) ∨
  ∃ r, P.Instant code s₀ Ψ h t op r ∧ P.Wp p v fun y v' => y = r ∧ P.Returns accept op y v'

theorem Passes.sustained (hcode : P.Passes code spec accept Ψ) (l : Label Op Res) :
    P.Sustained code spec accept (P.Pending code s₀ accept Ψ h)
      (P.Underway code s₀ accept Ψ (h ++ [l])) where
  call t op := ⟨(hcode op).1, fun v hi hsp => .inl ((hcode op).2 v hi hsp)⟩
  act t op a k v hw := by
    rcases hw with ⟨_, _, ⟨⟩, hcut, hrule⟩ | ⟨r, hi, hw⟩
    · exact ⟨hcut, hrule.mono fun r v' hr => .inl hr⟩
    · exact ⟨hw.1, hw.2.mono fun _ v' hr => .inr ⟨r, hi.snoc l, hr⟩⟩
  ret t op r v hw := by
    rcases hw with ⟨_, _, ⟨⟩, -⟩ | ⟨_, -, -, hw⟩
    exact hw
  keep t op p v hw := by
    rcases hw with ⟨a, k, rfl, hcut, hrule⟩ | ⟨r, hi, hw⟩
    · exact .inl (.inr ⟨hcut, hrule⟩)
    · exact .inr ⟨r, hi.snoc l, hw⟩

/-- A task that is at its view has passed it in the present state. -/
theorem Followed.pending (hP : ¬ P.alone) {c : Config M Op Res} (hr : Run M code s₀ h c)
    (hx : P.Followed spec accept (P.Underway code s₀ accept Ψ h) init h c g lin) :
    P.Followed spec accept (P.Pending code s₀ accept Ψ h) init h c g lin := by
  refine hx.renew hP fun t op p v hT hv _ hw => ?_
  have hnow : ∀ r, Ψ op r v → P.Instant code s₀ Ψ h t op r := fun r hΨ => by
    refine ⟨h, [], c, v, g, (List.append_nil h).symm, hr, (hx.called t op).mpr (by rw [hT]; rfl),
      fun r hret => ?_, hv, hΨ⟩
    obtain ⟨op', hop'⟩ := hx.returned t r hret
    rw [hT] at hop'
    cases hop'
  rcases hw with hw | hw
  · cases p with
    | done r => exact .inr ⟨r, hnow r hw.1, rfl, hw.2⟩
    | step a k =>
      rcases hw with ⟨r, hΨ, hw⟩ | hw
      · exact .inr ⟨r, hnow r hΨ, hw⟩
      · exact .inl ⟨a, k, rfl, hw⟩
  · exact .inr hw

/-- In every interleaving, each call that returned has an instant between its call and its
return at which the state was what it answers from. -/
theorem Passes.run (hP : ¬ P.alone) (hcode : P.Passes code spec accept Ψ)
    (hs : P.inv s₀ (fun _ => []) g) {c : Config M Op Res} (hr : Run M code s₀ h c) :
    (∃ g' lin', P.Followed spec accept (P.Pending code s₀ accept Ψ h) (P.state g) h c g' lin') ∧
      ∀ t r, .ret t r ∈ h → ∃ op, .call t op ∈ h ∧ P.Instant code s₀ Ψ h t op r := by
  induction hr with
  | start => exact ⟨⟨g, [], Followed.pending hP .start (.start hs)⟩, by simp⟩
  | @step h c l c' hr hstep ih =>
    obtain ⟨⟨g', lin', hx⟩, hret⟩ := ih
    obtain ⟨g'', lin'', hx'⟩ := hx.step hP (hcode.sustained l) hstep
    refine ⟨⟨g'', lin'', hx'.pending hP (hr.step hstep)⟩, fun t r hmem => ?_⟩
    rcases List.mem_append.mp hmem with hmem | hmem
    · obtain ⟨op, hcall, hi⟩ := hret t r hmem
      exact ⟨op, List.mem_append_left _ hcall, hi.snoc l⟩
    · obtain rfl := List.mem_singleton.mp hmem
      cases hstep with
      | @ret s G T _ op _ hrun =>
        have ht := hx.task t
        simp only [hrun, TaskOk] at ht
        obtain ⟨v, -, -, -, -, ⟨_, _, ⟨⟩, -⟩ | ⟨_, hi, rfl, -⟩⟩ := ht
        refine ⟨op, List.mem_append_left _ ((hx.called t op).mpr ?_), hi.snoc _⟩
        simp [hrun, Task.op?]

end Concurrent.Protocol
