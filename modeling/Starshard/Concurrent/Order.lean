import Starshard.Concurrent.Soundness
import Starshard.Concurrent.Totals

/-! Calls in one sequential order. A call that returned before another was called stays
before it, and calls without an effect find a place between the others. -/
namespace Concurrent

open Function (update)

variable {Act Op Res : Type} {Resp : Act → Type} {M : Semantics Act Resp}
  {code : Op → Program Act Resp Res}

def Label.returned? : Label Op Res → Option Nat
  | .ret t _ => some t
  | _ => none

theorem mem_returned {h : List (Label Op Res)} {t : Nat} :
    t ∈ h.filterMap Label.returned? ↔ ∃ r, .ret t r ∈ h := by
  rw [List.mem_filterMap]
  constructor
  · rintro ⟨l, hl, ht⟩
    cases l with
    | ret u r =>
      cases ht
      exact ⟨r, hl⟩
    | _ => cases ht
  · rintro ⟨r, hr⟩
    exact ⟨_, hr, rfl⟩

namespace Run

variable {s : M.Shared} {h : List (Label Op Res)} {c : Config M Op Res} {t u v : Nat}

/-- A task that has not ended did not return. -/
theorem not_returned (hr : Run M code s h c) (ht : ∀ op r, c.task t ≠ .finished op r) (r : Res) :
    .ret t r ∉ h := by
  induction hr with
  | start => simp
  | @step h c l c' _ hs ih =>
    have hkeep : ∀ {w : Nat} {x : Task Act Resp Op Res}, c'.task = update c.task w x →
        (∀ op r, c.task w ≠ .finished op r) → .ret t r ∉ h := by
      intro w x heq hw
      refine ih fun op r hf => ?_
      by_cases htw : t = w
      · subst htw
        exact hw op r hf
      · refine ht op r ?_
        rw [heq, Function.update_of_ne htw]
        exact hf
    cases hs with
    | call hw => simpa using hkeep rfl (by simp [hw])
    | act hw _ => simpa using hkeep rfl (by simp [hw])
    | cut hw _ => simpa using hkeep rfl (by simp [hw])
    | unwind hw _ => simpa using hkeep rfl (by simp [hw])
    | settled hw => simpa using hkeep rfl (by simp [hw])
    | @ret s G T w op r' hw =>
      have htw : t ≠ w := by
        rintro rfl
        exact ht op r' (Function.update_self ..)
      simpa [htw] using hkeep rfl (by simp [hw])

theorem call_of_ret (hr : Run M code s h c) {r : Res} (ht : .ret t r ∈ h) : c.task t ≠ .ready :=
  fun hready => hr.not_returned (by simp [hready]) r ht

theorem precedes_irrefl (hr : Run M code s h c) (t : Nat) : ¬ Precedes h t t := by
  induction hr with
  | start => simp
  | step hr hs ih =>
    intro hp
    obtain hp | ⟨⟨r, hret⟩, op, rfl⟩ := precedes_snoc hp
    · exact ih hp
    · cases hs with
      | call ht => exact hr.call_of_ret hret ht

theorem precedes_trans (hr : Run M code s h c) (htu : Precedes h t u) (huv : Precedes h u v) :
    Precedes h t v := by
  induction hr with
  | start => simp at htu
  | @step h c l c' hr hs ih =>
    have hready : ∀ {op}, l = .call u op → c.task u = .ready := by
      rintro op rfl
      cases hs with
      | call ht => exact ht
    obtain huv | ⟨⟨r, hret⟩, op, hl⟩ := precedes_snoc huv
    · obtain htu | ⟨-, op, hl⟩ := precedes_snoc htu
      · obtain ⟨h₁, h₂, h₃, r, op, rfl⟩ := ih htu huv
        exact ⟨h₁, h₂, h₃ ++ [l], r, op, by simp⟩
      · obtain ⟨h₁, h₂, h₃, r, op', rfl⟩ := huv
        exact absurd (hready hl) (hr.call_of_ret (r := r) (by simp))
    · obtain htu | ⟨-, op', hl'⟩ := precedes_snoc htu
      · obtain ⟨h₁, h₂, h₃, r', op', rfl⟩ := htu
        exact ⟨h₁, h₂ ++ .call u op' :: h₃, [], r', op, by simp [hl]⟩
      · exact absurd (hready hl') (hr.call_of_ret hret)

end Run

section Filling

variable {α A : Type} {R : α → α → Prop} {step : α → A → A → Prop}

/-- An element finds a place in a list that no element contradicts. -/
theorem exists_insertion (hirr : ∀ a, ¬ R a a) (htrans : ∀ a b c, R a b → R b c → R a c) (x : α)
    {l : List α} (hl : l.Pairwise fun a b => ¬ R b a) :
    ∃ l₁ l₂, l = l₁ ++ l₂ ∧ (l₁ ++ x :: l₂).Pairwise fun a b => ¬ R b a := by
  induction l with
  | nil => exact ⟨[], [], rfl, by simp⟩
  | cons a l ih =>
    obtain ⟨ha, hl'⟩ := List.pairwise_cons.mp hl
    by_cases hx : R x a
    · refine ⟨[], a :: l, rfl, List.pairwise_cons.mpr ⟨fun b hb hbx => ?_, hl⟩⟩
      have hba : R b a := htrans b x a hbx hx
      cases hb with
      | head => exact hirr a hba
      | tail _ hb => exact ha b hb hba
    · obtain ⟨l₁, l₂, rfl, hp⟩ := ih hl'
      refine ⟨a :: l₁, l₂, rfl, List.pairwise_cons.mpr ⟨fun b hb => ?_, hp⟩⟩
      rcases List.mem_append.mp hb with hb | hb
      · exact ha b (List.mem_append_left _ hb)
      · cases hb with
        | head => exact hx
        | tail _ hb => exact ha b (List.mem_append_right _ hb)

theorem Replay.insert {x : α} (hx : ∀ a, step x a a) {l₁ l₂ : List α} {a b : A}
    (h : Replay step a (l₁ ++ l₂) b) : Replay step a (l₁ ++ x :: l₂) b := by
  obtain ⟨c, h₁, h₂⟩ := h.of_append
  exact h₁.append (.cons (hx c) h₂)

/-- Steps without an effect fit into an order of the others. -/
theorem exists_filling (hirr : ∀ a, ¬ R a a) (htrans : ∀ a b c, R a b → R b c → R a c)
    {xs l : List α} (hxs : ∀ x ∈ xs, ∀ a, step x a a) (hl : l.Pairwise fun a b => ¬ R b a)
    {a b : A} (h : Replay step a l b) :
    ∃ l', l'.Perm (xs ++ l) ∧ (l'.Pairwise fun a b => ¬ R b a) ∧ Replay step a l' b := by
  induction xs with
  | nil => exact ⟨l, .refl _, hl, h⟩
  | cons x xs ih =>
    obtain ⟨l', hperm, hl', h'⟩ := ih fun y hy => hxs y (by simp [hy])
    obtain ⟨l₁, l₂, rfl, hp⟩ := exists_insertion hirr htrans x hl'
    exact ⟨l₁ ++ x :: l₂, List.perm_middle.trans (hperm.cons x), hp, h'.insert (hxs x (by simp))⟩

end Filling
end Concurrent
