import Starshard.Concurrent.Program

/-! Disciplines. A discipline gives each action a rule: what must hold of a view
before the action, and which views may come after it. A program is disciplined
when every path through it obeys the rules. -/
namespace Concurrent

structure Discipline (Act : Type) (Resp : Act → Type) (View : Type) where
  admits : View → Act → Prop
  answers : View → (a : Act) → Resp a → View → Prop

namespace Discipline

variable {Act : Type} {Resp : Act → Type} {View α β γ : Type} (D : Discipline Act Resp View)

/-- Every path from view `v` obeys the rules and ends in `Φ`. -/
def Obeys : Program Act Resp α → View → (α → View → Prop) → Prop
  | .done x, v, Φ => Φ x v
  | .step a k, v, Φ => D.admits v a ∧ ∀ r v', D.answers v a r v' → Obeys (k r) v' Φ

variable {D} {v : View}

namespace Obeys

theorem mono {p : Program Act Resp α} {Φ Ψ : α → View → Prop} (h : D.Obeys p v Φ)
    (hΦ : ∀ x v', Φ x v' → Ψ x v') : D.Obeys p v Ψ := by
  induction p generalizing v with
  | done x => exact hΦ _ _ h
  | step a k ih => exact ⟨h.1, fun r v' hr => ih r (h.2 r v' hr)⟩

theorem bind {p : Program Act Resp α} {f : α → Program Act Resp β} {Φ : β → View → Prop}
    (h : D.Obeys p v fun x v' => D.Obeys (f x) v' Φ) : D.Obeys (p >>= f) v Φ := by
  induction p generalizing v with
  | done x => exact h
  | step a k ih => exact ⟨h.1, fun r v' hr => ih r (h.2 r v' hr)⟩

theorem seq {p : Program Act Resp α} {f : α → Program Act Resp β} {Ψ : α → View → Prop}
    {Φ : β → View → Prop} (h : D.Obeys p v Ψ)
    (hf : ∀ x v', Ψ x v' → D.Obeys (f x) v' Φ) : D.Obeys (p >>= f) v Φ := bind (h.mono hf)

theorem foldlM {f : β → γ → Program Act Resp β} {I : β → View → Prop} {xs : List γ}
    (hstep : ∀ b x v, x ∈ xs → I b v → D.Obeys (f b x) v I) {b : β} (h : I b v) :
    D.Obeys (xs.foldlM f b) v I := by
  induction xs generalizing b v with
  | nil => exact h
  | cons x xs ih =>
    rw [List.foldlM_cons]
    exact seq (hstep b x v (List.mem_cons_self ..) h) fun b' v' h' =>
      ih (fun b x v hx => hstep b x v (List.mem_cons_of_mem _ hx)) h'

theorem mapM {f : γ → Program Act Resp β} {I : View → Prop} {xs : List γ}
    (hstep : ∀ x v, x ∈ xs → I v → D.Obeys (f x) v fun _ => I) (h : I v) :
    D.Obeys (xs.mapM f) v fun _ => I := by
  induction xs generalizing v with
  | nil =>
    rw [List.mapM_nil]
    exact h
  | cons x xs ih =>
    rw [List.mapM_cons]
    exact seq (hstep x v (List.mem_cons_self ..) h) fun y v' h' =>
      seq (ih (fun x v hx => hstep x v (List.mem_cons_of_mem _ hx)) h') fun ys v'' h'' => h''

end Obeys

variable (D)

/-- The program may run anywhere and leaves the view as it is. -/
def Neutral (p : Program Act Resp α) : Prop :=
  ∀ v (Φ : α → View → Prop), (∀ x, Φ x v) → D.Obeys p v Φ

variable {D}

namespace Neutral

theorem done (x : α) : D.Neutral (.done x) := fun _ _ h => h x

theorem obeys {p : Program Act Resp α} {Φ : α → View → Prop} (h : D.Neutral p)
    (hΦ : ∀ x, Φ x v) : D.Obeys p v Φ := h v Φ hΦ

theorem seq {p : Program Act Resp α} {f : α → Program Act Resp β} {Φ : β → View → Prop}
    (h : D.Neutral p) (hf : ∀ x, D.Obeys (f x) v Φ) : D.Obeys (p >>= f) v Φ :=
  Obeys.bind (h v _ hf)

theorem bind {p : Program Act Resp α} {f : α → Program Act Resp β} (h : D.Neutral p)
    (hf : ∀ x, D.Neutral (f x)) : D.Neutral (p >>= f) := fun v Φ hΦ =>
  h.seq fun x => hf x v Φ hΦ

theorem foldlM {f : β → γ → Program Act Resp β} (h : ∀ b x, D.Neutral (f b x)) (xs : List γ)
    (b : β) : D.Neutral (xs.foldlM f b) := by
  induction xs generalizing b with
  | nil => exact done b
  | cons x xs ih =>
    rw [List.foldlM_cons]
    exact (h b x).bind ih

theorem mapM {f : γ → Program Act Resp β} (h : ∀ x, D.Neutral (f x)) (xs : List γ) :
    D.Neutral (xs.mapM f) := by
  induction xs with
  | nil =>
    rw [List.mapM_nil]
    exact done []
  | cons x xs ih =>
    rw [List.mapM_cons]
    exact (h x).bind fun y => ih.bind fun ys => done _

theorem ite {c : Prop} [Decidable c] {p q : Program Act Resp α} (hp : D.Neutral p)
    (hq : D.Neutral q) : D.Neutral (if c then p else q) := by
  split
  · exact hp
  · exact hq

end Neutral
end Discipline
end Concurrent
