import Starshard.Concurrent.History

/-! A program logic for guarded tasks.

A protocol says what every task keeps true (`inv`, together with ghost state)
and what a task may believe while it owns its guards (`cons` of a view). A rule
for an action is a statement about that action alone: it re-establishes the
invariant, keeps the beliefs of all other tasks, and turns the acting task's
view into a new one. Verified programs are then sound under every interleaving,
and, for a protocol whose task is alone, they also run to completion. -/
namespace Concurrent

open Function (update)

variable {Act : Type} {Resp : Act → Type} {Op Res Ev A : Type}

structure Protocol (M : Semantics Act Resp) (Ev A : Type) where
  /-- What an event does to the abstract state. -/
  step : Ev → A → A → Prop
  View : Type
  Ghost : Type
  /-- What an operation is meant to contribute. -/
  Spec : Type
  state : Ghost → A
  guards : View → List M.Guard
  /-- The events the operation contributed so far. -/
  events : View → List Ev
  spec : View → Spec
  meets : Spec → List Ev → Prop
  inv : M.Shared → (Nat → List M.Guard) → Ghost → Prop
  cons : View → M.Shared → Ghost → Prop
  cons_meets : ∀ v s g, cons v s g → meets (spec v) (events v)
  /-- The view of an operation that was cut; it need not meet its specification. -/
  relax : View → View
  relax_guards : ∀ v, guards (relax v) = guards v
  relax_events : ∀ v, events (relax v) = events v
  relax_cons : ∀ v s g, cons v s g → cons (relax v) s g
  initial : View → Prop
  initial_guards : ∀ v, initial v → guards v = []
  initial_events : ∀ v, initial v → events v = []
  initial_cons : ∀ s G g sp, inv s G g → meets sp [] →
    ∃ v, initial v ∧ spec v = sp ∧ cons v s g
  /-- No other task owns a guard or takes a step. -/
  alone : Prop

namespace Protocol

variable {M : Semantics Act Resp} (P : Protocol M Ev A)

structure Holds (t : Nat) (v : P.View) (s : M.Shared) (G : Nat → List M.Guard)
    (g : P.Ghost) : Prop where
  guards : G t = P.guards v
  inv : P.inv s G g
  cons : P.cons v s g
  alone : P.alone → ∀ u, u ≠ t → G u = []

/-- Task `t` moves from view `v` in state `s` to view `v'` in state `s'`. -/
structure Moves (t : Nat) (G : Nat → List M.Guard) (s : M.Shared) (g : P.Ghost) (v : P.View)
    (s' : M.Shared) (gs : List M.Guard) (g' : P.Ghost) (v' : P.View) : Prop where
  guards : P.guards v' = gs
  spec : P.spec v' = P.spec v
  inv : P.inv s' (update G t gs) g'
  cons : P.cons v' s' g'
  others : ¬ P.alone → ∀ u, u ≠ t → ∀ w, P.guards w = G u → P.cons w s g → P.cons w s' g'
  effect : ∃ es, P.events v' = P.events v ++ es ∧ Replay P.step (P.state g) es (P.state g')

variable {P}

theorem Moves.holds {t G s g v s' gs g' v'} (h : P.Holds t v s G g)
    (m : P.Moves t G s g v s' gs g' v') : P.Holds t v' s' (update G t gs) g' where
  guards := by simpa using m.guards.symm
  inv := m.inv
  cons := m.cons
  alone a u hu := by simpa [hu] using h.alone a u hu

theorem Moves.trans {t G s g v s₁ gs₁ g₁ v₁ s₂ gs₂ g₂ v₂}
    (m₁ : P.Moves t G s g v s₁ gs₁ g₁ v₁)
    (m₂ : P.Moves t (update G t gs₁) s₁ g₁ v₁ s₂ gs₂ g₂ v₂) :
    P.Moves t G s g v s₂ gs₂ g₂ v₂ where
  guards := m₂.guards
  spec := m₂.spec.trans m₁.spec
  inv := by simpa using m₂.inv
  cons := m₂.cons
  others ha u hu w hw hc :=
    m₂.others ha u hu w (by simpa [hu] using hw) (m₁.others ha u hu w hw hc)
  effect := by
    obtain ⟨es₁, he₁, hr₁⟩ := m₁.effect
    obtain ⟨es₂, he₂, hr₂⟩ := m₂.effect
    exact ⟨es₁ ++ es₂, by rw [he₂, he₁, List.append_assoc], hr₁.append hr₂⟩

variable (P)

/-- Performing `a` from view `v` never gets stuck and leads to a view satisfying `Φ`. -/
def Rule (a : Act) (v : P.View) (Φ : Resp a → P.View → Prop) : Prop :=
  ∀ t s G g, P.Holds t v s G g →
    ((M.blocks a ∧ ¬ P.alone) ∨ ∃ r s' gs, M.exec G t a s r s' gs) ∧
    ∀ r s' gs, M.exec G t a s r s' gs → ∃ g' v', P.Moves t G s g v s' gs g' v' ∧ Φ r v'

/-- Partial and total correctness of code that is never cut. -/
def Unwinds {α : Type} : Program Act Resp α → P.View → (α → P.View → Prop) → Prop
  | .done x, v, Φ => Φ x v
  | .step a k, v, Φ => P.Rule a v fun r v' => Unwinds (k r) v' Φ

/-- The task releases everything it owns. -/
def Released {α : Type} (_ : α) (v : P.View) : Prop := P.guards v = []

/-- The operation may be cut inside `a`. -/
def Cuts (a : Act) (v : P.View) : Prop :=
  ∀ t s G g, P.Holds t v s G g → ∀ s', M.cut a s s' →
    ∃ g' v', P.Moves t G s g v s' (P.guards v) g' v' ∧
      P.Unwinds (M.unwind (P.guards v)) (P.relax v') P.Released

/-- Correctness of code that can be cut at any of its actions. -/
def Wp {α : Type} : Program Act Resp α → P.View → (α → P.View → Prop) → Prop
  | .done x, v, Φ => Φ x v
  | .step a k, v, Φ => P.Cuts a v ∧ P.Rule a v fun r v' => Wp (k r) v' Φ

/-- Every operation releases its guards and contributes what explains its result. -/
def Verified (code : Op → Program Act Resp Res) (spec : Op → P.Spec)
    (accept : Op → List Ev → Res → Prop) : Prop :=
  ∀ op, P.meets (spec op) [] ∧ ∀ v, P.initial v → P.spec v = spec op →
    P.Wp (code op) v fun r v' => P.guards v' = [] ∧ accept op (P.events v') r

variable {P} {α β : Type}

theorem Rule.mono {a : Act} {v : P.View} {Φ Ψ : Resp a → P.View → Prop}
    (h : P.Rule a v Φ) (hΦ : ∀ r v', Φ r v' → Ψ r v') : P.Rule a v Ψ := by
  intro t s G g hv
  refine ⟨(h t s G g hv).1, fun r s' gs he => ?_⟩
  obtain ⟨g', v', m, hr⟩ := (h t s G g hv).2 r s' gs he
  exact ⟨g', v', m, hΦ _ _ hr⟩

theorem Unwinds.mono {p : Program Act Resp α} {v : P.View} {Φ Ψ : α → P.View → Prop}
    (h : P.Unwinds p v Φ) (hΦ : ∀ x v', Φ x v' → Ψ x v') : P.Unwinds p v Ψ := by
  induction p generalizing v with
  | done x => exact hΦ _ _ h
  | step a k ih => exact Rule.mono h fun r _ hr => ih r hr

theorem Unwinds.bind {p : Program Act Resp α} {f : α → Program Act Resp β} {v : P.View}
    {Φ : β → P.View → Prop} (h : P.Unwinds p v fun x v' => P.Unwinds (f x) v' Φ) :
    P.Unwinds (p >>= f) v Φ := by
  induction p generalizing v with
  | done x => exact h
  | step a k ih => exact Rule.mono h fun r _ hr => ih r hr

theorem Wp.mono {p : Program Act Resp α} {v : P.View} {Φ Ψ : α → P.View → Prop}
    (h : P.Wp p v Φ) (hΦ : ∀ x v', Φ x v' → Ψ x v') : P.Wp p v Ψ := by
  induction p generalizing v with
  | done x => exact hΦ _ _ h
  | step a k ih => exact ⟨h.1, h.2.mono fun r _ hr => ih r hr⟩

theorem Wp.bind {p : Program Act Resp α} {f : α → Program Act Resp β} {v : P.View}
    {Φ : β → P.View → Prop} (h : P.Wp p v fun x v' => P.Wp (f x) v' Φ) :
    P.Wp (p >>= f) v Φ := by
  induction p generalizing v with
  | done x => exact h
  | step a k ih => exact ⟨h.1, h.2.mono fun r _ hr => ih r hr⟩

theorem Wp.unwinds {p : Program Act Resp α} {v : P.View} {Φ : α → P.View → Prop}
    (h : P.Wp p v Φ) : P.Unwinds p v Φ := by
  induction p generalizing v with
  | done x => exact h
  | step a k ih => exact h.2.mono fun r _ hr => ih r hr

theorem Wp.foldlM {γ : Type} {f : β → γ → Program Act Resp β} {I : List γ → β → P.View → Prop}
    {xs : List γ} (hstep : ∀ pre x post b v, xs = pre ++ x :: post → I pre b v →
      P.Wp (f b x) v fun b' v' => I (pre ++ [x]) b' v') {b : β} {v : P.View} (h : I [] b v) :
    P.Wp (xs.foldlM f b) v fun b' v' => I xs b' v' := by
  suffices ∀ (post pre : List γ) b v, xs = pre ++ post → I pre b v →
      P.Wp (post.foldlM f b) v fun b' v' => I xs b' v' from this xs [] b v rfl h
  intro post
  induction post with
  | nil =>
    intro pre b v hxs h
    rw [hxs, List.append_nil]
    exact h
  | cons x post ih =>
    intro pre b v hxs h
    rw [List.foldlM_cons]
    exact Wp.bind ((hstep pre x post b v hxs h).mono fun b' v' h' =>
      ih (pre ++ [x]) b' v' (by simp [hxs]) h')

theorem Wp.mapM {γ δ : Type} {f : γ → Program Act Resp δ}
    {I : List γ → List δ → P.View → Prop} {xs : List γ}
    (hstep : ∀ pre x post ys v, xs = pre ++ x :: post → I pre ys v →
      P.Wp (f x) v fun y v' => I (pre ++ [x]) (ys ++ [y]) v') {v : P.View} (h : I [] [] v) :
    P.Wp (xs.mapM f) v fun ys v' => I xs ys v' := by
  suffices ∀ (post pre : List γ) ys v, xs = pre ++ post → I pre ys v →
      P.Wp (post.mapM f) v fun ys' v' => I xs (ys ++ ys') v' from this xs [] [] v rfl h
  intro post
  induction post with
  | nil =>
    intro pre ys v hxs h
    rw [hxs, List.append_nil, List.mapM_nil]
    show I pre (ys ++ []) v
    rwa [List.append_nil]
  | cons x post ih =>
    intro pre ys v hxs h
    rw [List.mapM_cons]
    refine Wp.bind ((hstep pre x post ys v hxs h).mono fun y v' h' => Wp.bind ?_)
    refine (ih (pre ++ [x]) (ys ++ [y]) v' (by simp [hxs]) h').mono fun ys' v'' h'' => ?_
    show I xs (ys ++ y :: ys') v''
    rwa [List.append_assoc] at h''

/-- The ghost state and the view may be brought up to date before an action. -/
def Shift (v : P.View) (Ψ : P.View → Prop) : Prop :=
  ∀ t s G g, P.Holds t v s G g →
    ∃ g' v', P.Moves t G s g v s (P.guards v) g' v' ∧ Ψ v'

theorem Shift.trans {v : P.View} {Ψ : P.View → Prop}
    (h : P.Shift v fun v' => P.Shift v' Ψ) : P.Shift v Ψ := by
  intro t s G g hv
  obtain ⟨g₁, v₁, m₁, hs⟩ := h t s G g hv
  have hG : update G t (P.guards v) = G := by rw [← hv.guards, Function.update_eq_self]
  have hv₁ : P.Holds t v₁ s G g₁ := by simpa [hG] using m₁.holds hv
  obtain ⟨g₂, v₂, m₂, hΨ⟩ := hs t s G g₁ hv₁
  refine ⟨g₂, v₂, m₁.trans ?_, hΨ⟩
  rw [hG]
  simpa [m₁.guards] using m₂

theorem Shift.rule {a : Act} {v : P.View} {Φ : Resp a → P.View → Prop}
    (h : P.Shift v fun v' => P.Rule a v' Φ) : P.Rule a v Φ := by
  intro t s G g hv
  obtain ⟨g₁, v₁, m₁, hr⟩ := h t s G g hv
  have hG : update G t (P.guards v) = G := by rw [← hv.guards, Function.update_eq_self]
  have hv₁ : P.Holds t v₁ s G g₁ := by simpa [hG] using m₁.holds hv
  refine ⟨(hr t s G g₁ hv₁).1, fun r s' gs he => ?_⟩
  obtain ⟨g₂, v₂, m₂, hΦ⟩ := (hr t s G g₁ hv₁).2 r s' gs he
  exact ⟨g₂, v₂, m₁.trans (by rwa [hG]), hΦ⟩

theorem Shift.cuts {a : Act} {v : P.View} (h : P.Shift v fun v' => P.Cuts a v') :
    P.Cuts a v := by
  intro t s G g hv s' hc
  obtain ⟨g₁, v₁, m₁, hr⟩ := h t s G g hv
  have hG : update G t (P.guards v) = G := by rw [← hv.guards, Function.update_eq_self]
  have hv₁ : P.Holds t v₁ s G g₁ := by simpa [hG] using m₁.holds hv
  obtain ⟨g₂, v₂, m₂, hu⟩ := hr t s G g₁ hv₁ s' hc
  refine ⟨g₂, v₂, m₁.trans ?_, ?_⟩
  · rw [hG]
    simpa [m₁.guards] using m₂
  · simpa [m₁.guards] using hu

theorem Shift.wp {a : Act} {k : Resp a → Program Act Resp α} {v : P.View}
    {Φ : α → P.View → Prop} (h : P.Shift v fun v' => P.Wp (.step a k) v' Φ) :
    P.Wp (.step a k) v Φ := by
  constructor
  · apply Shift.cuts
    intro t s G g hv
    obtain ⟨g', v', m, hw⟩ := h t s G g hv
    exact ⟨g', v', m, hw.1⟩
  · apply Shift.rule
    intro t s G g hv
    obtain ⟨g', v', m, hw⟩ := h t s G g hv
    exact ⟨g', v', m, hw.2⟩

theorem Shift.unwinds {a : Act} {k : Resp a → Program Act Resp α} {v : P.View}
    {Φ : α → P.View → Prop} (h : P.Shift v fun v' => P.Unwinds (.step a k) v' Φ) :
    P.Unwinds (.step a k) v Φ := Shift.rule h

end Protocol
end Concurrent
