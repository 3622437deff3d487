import Mathlib.Algebra.GroupWithZero.Nat
import Mathlib.Data.List.Nodup
import Mathlib.Logic.Function.Basic

/-! Things that each lie in one of many lists: what adding new ones and moving some
from one list to another preserve. -/
namespace Starshard.Places

variable {P α : Type}

/-- Nothing lies twice in one place or in two places. -/
structure Apart (held : P → List α) : Prop where
  nodup : ∀ p, (held p).Nodup
  sole : ∀ p q a, a ∈ held p → a ∈ held q → p = q

variable [DecidableEq P] {held : P → List α}

theorem Apart.perm (ap : Apart held) {p : P} {xs : List α} (h : xs.Perm (held p)) :
    Apart (Function.update held p xs) := by
  have hm : ∀ q a, a ∈ Function.update held p xs q → a ∈ held q := by
    intro q a ha
    by_cases hq : q = p
    · subst hq
      rw [Function.update_self] at ha
      exact h.mem_iff.mp ha
    · rwa [Function.update_of_ne hq] at ha
  constructor
  · intro q
    by_cases hq : q = p
    · subst hq
      rw [Function.update_self]
      exact h.nodup_iff.mpr (ap.nodup q)
    · rw [Function.update_of_ne hq]
      exact ap.nodup q
  · intro q r a hq hr
    exact ap.sole q r a (hm q a hq) (hm r a hr)

/-- New things come to one place. -/
theorem Apart.add (ap : Apart held) {p : P} {xs : List α} (hx : xs.Nodup)
    (hf : ∀ a ∈ xs, ∀ q, a ∉ held q) : Apart (Function.update held p (held p ++ xs)) := by
  have hm : ∀ q a, a ∈ Function.update held p (held p ++ xs) q → a ∈ held q ∨ a ∈ xs ∧ q = p := by
    intro q a ha
    by_cases hq : q = p
    · subst hq
      rw [Function.update_self] at ha
      exact (List.mem_append.mp ha).imp id fun h => ⟨h, rfl⟩
    · rw [Function.update_of_ne hq] at ha
      exact .inl ha
  constructor
  · intro q
    by_cases hq : q = p
    · subst hq
      rw [Function.update_self]
      exact List.nodup_append.mpr
        ⟨ap.nodup q, hx, fun a ha b hb hab => hf b hb q (hab ▸ ha)⟩
    · rw [Function.update_of_ne hq]
      exact ap.nodup q
  · intro q r a hq hr
    cases hm q a hq with
    | inl hq =>
      cases hm r a hr with
      | inl hr => exact ap.sole q r a hq hr
      | inr hr => exact absurd hq (hf a hr.1 q)
    | inr hq =>
      cases hm r a hr with
      | inl hr => exact absurd hr (hf a hq.1 r)
      | inr hr => exact hq.2.trans hr.2.symm

theorem Apart.shrink (ap : Apart held) {p : P} {rest xs : List α} (h : (held p).Perm (xs ++ rest)) :
    Apart (Function.update held p rest) ∧ xs.Nodup ∧
      ∀ a ∈ xs, ∀ q, a ∉ Function.update held p rest q := by
  have hn : (xs ++ rest).Nodup := h.nodup_iff.mp (ap.nodup p)
  have hm : ∀ q a, a ∈ Function.update held p rest q → a ∈ held q := by
    intro q a ha
    by_cases hq : q = p
    · subst hq
      rw [Function.update_self] at ha
      exact h.mem_iff.mpr (List.mem_append_right xs ha)
    · rwa [Function.update_of_ne hq] at ha
  refine ⟨⟨?_, ?_⟩, hn.of_append_left, ?_⟩
  · intro q
    by_cases hq : q = p
    · subst hq
      rw [Function.update_self]
      exact hn.of_append_right
    · rw [Function.update_of_ne hq]
      exact ap.nodup q
  · intro q r a hq hr
    exact ap.sole q r a (hm q a hq) (hm r a hr)
  · intro a ha q hq
    have hp : a ∈ held p := h.mem_iff.mpr (List.mem_append_left rest ha)
    have he : q = p := ap.sole q p a (hm q a hq) hp
    subst he
    rw [Function.update_self] at hq
    exact (List.nodup_append.mp hn).2.2 a ha a hq rfl

theorem Apart.move (ap : Apart held) {p q : P} {rest xs : List α} (hpq : p ≠ q)
    (h : (held p).Perm (xs ++ rest)) :
    Apart (Function.update (Function.update held p rest) q (held q ++ xs)) := by
  obtain ⟨ap', hx, hf⟩ := ap.shrink h
  have hadd := ap'.add (p := q) hx hf
  rwa [Function.update_of_ne hpq.symm] at hadd

end Starshard.Places
