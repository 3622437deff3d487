import Starshard.Concurrent.Machine

/-! Histories and linearizations.

An operation contributes a list of atomic events to the linearization. Most
operations contribute one; an operation that is documented as a sequence of
atomic parts contributes one event a part. `accept` says which lists of events
explain which result, `step` what an event does to the abstract state. -/
namespace Concurrent

variable {Act : Type} {Resp : Act → Type} {Op Res Ev A : Type}

/-- `Replay step a es b`: performing the events in order leads from `a` to `b`. -/
inductive Replay (step : Ev → A → A → Prop) : A → List Ev → A → Prop where
  | nil {a} : Replay step a [] a
  | cons {a b c e es} : step e a b → Replay step b es c → Replay step a (e :: es) c

namespace Replay

variable {step : Ev → A → A → Prop}

theorem append {a b c : A} {es fs : List Ev} (h : Replay step a es b)
    (h' : Replay step b fs c) : Replay step a (es ++ fs) c := by
  induction h with
  | nil => exact h'
  | cons he _ ih => exact .cons he (ih h')

theorem single {a b : A} {e : Ev} (h : step e a b) : Replay step a [e] b := .cons h .nil

theorem nil_eq {a b : A} (h : Replay step a [] b) : b = a := by cases h; rfl

theorem of_append {a c : A} {es fs : List Ev} (h : Replay step a (es ++ fs) c) :
    ∃ b, Replay step a es b ∧ Replay step b fs c := by
  induction es generalizing a with
  | nil => exact ⟨a, .nil, h⟩
  | cons e es ih =>
    cases h with
    | cons he h =>
      obtain ⟨b, h₁, h₂⟩ := ih h
      exact ⟨b, .cons he h₁, h₂⟩

end Replay

/-- The events task `t` contributed, in order. -/
def eventsOf (t : Nat) (lin : List (Nat × Ev)) : List Ev :=
  (lin.filter (·.1 == t)).map Prod.snd

@[simp] theorem eventsOf_nil (t : Nat) : eventsOf t ([] : List (Nat × Ev)) = [] := rfl

theorem eventsOf_append (t : Nat) (l₁ l₂ : List (Nat × Ev)) :
    eventsOf t (l₁ ++ l₂) = eventsOf t l₁ ++ eventsOf t l₂ := by
  simp [eventsOf]

@[simp] theorem eventsOf_own (t : Nat) (es : List Ev) :
    eventsOf t (es.map (Prod.mk t)) = es := by
  induction es with
  | nil => rfl
  | cons e es ih => simpa [eventsOf] using ih

theorem eventsOf_other {t u : Nat} (h : u ≠ t) (es : List Ev) :
    eventsOf u (es.map (Prod.mk t)) = [] := by
  induction es with
  | nil => rfl
  | cons e es ih => simp [eventsOf, Ne.symm h]

/-- Task `t` returned before task `u` was called. -/
def Precedes (h : List (Label Op Res)) (t u : Nat) : Prop :=
  ∃ h₁ h₂ h₃ r op, h = h₁ ++ .ret t r :: h₂ ++ .call u op :: h₃

/-- `lin` explains the history `h` sequentially, from `init` to `final`. Calls that
did not return contributed what `may` allows. -/
structure Linearization (step : Ev → A → A → Prop) (accept : Op → List Ev → Res → Prop)
    (may : Op → List Ev → Prop) (init final : A) (h : List (Label Op Res))
    (lin : List (Nat × Ev)) : Prop where
  legal : Replay step init (lin.map Prod.snd) final
  called : ∀ x ∈ lin, ∃ op, .call x.1 op ∈ h
  accepted : ∀ t op r, .call t op ∈ h → .ret t r ∈ h → accept op (eventsOf t lin) r
  pending : ∀ t op, .call t op ∈ h → may op (eventsOf t lin)
  /-- Every event of an operation that had returned precedes every event of an
  operation called later. -/
  realtime : ∀ t u, Precedes h t u → ∀ l₁ e l₂, lin = l₁ ++ (u, e) :: l₂ →
    ∀ e', (t, e') ∉ l₂

end Concurrent
