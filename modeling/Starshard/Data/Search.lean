import Mathlib.Algebra.GroupWithZero.Nat
import Mathlib.Data.List.Perm.Basic

/-! Searching a list with a test that may fail, and removing what was found without
keeping the order. -/
namespace Data

variable {α β ε : Type}

section Position

/-- The first element that passes a test, with its position. -/
def position (test : Nat → α → Except ε Bool) (xs : List α) : Except ε (Option (α × Nat)) :=
  xs.zipIdx.findM? fun x => test x.2 x.1

theorem findM?_some {test : α → Except ε Bool} {xs : List α} {x : α}
    (h : xs.findM? test = .ok (some x)) : x ∈ xs ∧ test x = .ok true := by
  induction xs with
  | nil => cases h
  | cons y ys ih =>
    unfold List.findM? at h
    cases hy : test y with
    | error e =>
      rw [hy] at h
      cases h
    | ok b =>
      rw [hy] at h
      cases b with
      | true =>
        cases h
        exact ⟨List.mem_cons_self, hy⟩
      | false =>
        have := ih h
        exact ⟨List.mem_cons_of_mem _ this.1, this.2⟩

theorem findM?_none {test : α → Except ε Bool} {xs : List α} (h : xs.findM? test = .ok none) :
    ∀ x ∈ xs, test x = .ok false := by
  induction xs with
  | nil => exact fun x hx => absurd hx List.not_mem_nil
  | cons y ys ih =>
    unfold List.findM? at h
    cases hy : test y with
    | error e =>
      rw [hy] at h
      cases h
    | ok b =>
      rw [hy] at h
      cases b with
      | true => cases h
      | false =>
        intro x hx
        rcases List.mem_cons.mp hx with rfl | hx
        · exact hy
        · exact ih h x hx

theorem findM?_error {test : α → Except ε Bool} {xs : List α} {c : ε}
    (h : xs.findM? test = .error c) : ∃ x ∈ xs, test x = .error c := by
  induction xs with
  | nil => cases h
  | cons y ys ih =>
    unfold List.findM? at h
    cases hy : test y with
    | error e =>
      rw [hy] at h
      cases h
      exact ⟨y, List.mem_cons_self, hy⟩
    | ok b =>
      rw [hy] at h
      cases b with
      | true => cases h
      | false =>
        obtain ⟨x, hx, hc⟩ := ih h
        exact ⟨x, List.mem_cons_of_mem _ hx, hc⟩

variable {test : Nat → α → Except ε Bool} {xs : List α}

theorem position_error {c : ε} (h : position test xs = .error c) :
    ∃ n x, test n x = .error c := by
  obtain ⟨x, _, hx⟩ := findM?_error h
  exact ⟨x.2, x.1, hx⟩

theorem position_some {x : α} {n : Nat} (h : position test xs = .ok (some (x, n))) :
    xs[n]? = some x :=
  List.mem_zipIdx_iff_getElem?.mp (findM?_some h).1

theorem position_none (h : position test xs = .ok none) {x : α} (hx : x ∈ xs) :
    ∃ n, test n x = .ok false := by
  obtain ⟨n, hn⟩ := List.mem_iff_getElem?.mp hx
  exact ⟨n, findM?_none h (x, n) (List.mem_zipIdx_iff_getElem?.mpr hn)⟩

end Position

section SwapRemove

/-- `Vec::swap_remove`: the last element takes the place of element `n`. -/
def swapRemove (xs : List α) (n : Nat) : List α :=
  match xs.getLast? with
  | none => xs
  | some last => (xs.set n last).dropLast

variable {xs : List α} {n : Nat} {x : α}

theorem set_perm (h : xs[n]? = some x) (y : α) : (x :: xs.set n y).Perm (y :: xs) := by
  obtain ⟨hn, hx⟩ := List.getElem?_eq_some_iff.mp h
  have hsplit : xs = xs.take n ++ x :: xs.drop (n + 1) := by
    rw [← hx, List.getElem_cons_drop, List.take_append_drop]
  have hset : xs.set n y = xs.take n ++ y :: xs.drop (n + 1) :=
    List.set_eq_take_append_cons_drop.trans (if_pos hn)
  calc (x :: xs.set n y).Perm (x :: y :: (xs.take n ++ xs.drop (n + 1))) := by
        rw [hset]
        exact List.perm_middle.cons x
    _ |>.Perm (y :: x :: (xs.take n ++ xs.drop (n + 1))) := .swap ..
    _ |>.Perm (y :: xs) := by
        conv_rhs => rw [hsplit]
        exact List.perm_middle.symm.cons y

theorem swapRemove_perm (h : xs[n]? = some x) : (x :: swapRemove xs n).Perm xs := by
  rcases List.eq_nil_or_concat xs with rfl | ⟨init, last, rfl⟩
  · cases h
  · rw [List.concat_eq_append] at h ⊢
    have hlast : swapRemove (init ++ [last]) n = ((init ++ [last]).set n last).dropLast := by
      unfold swapRemove
      rw [List.getLast?_concat]
    rw [hlast]
    by_cases hn : n < init.length
    · rw [List.set_append_left _ _ hn, List.dropLast_concat]
      rw [List.getElem?_append_left hn] at h
      exact (set_perm h last).trans (List.perm_append_singleton last init).symm
    · have hle : init.length ≤ n := Nat.le_of_not_lt hn
      rw [List.getElem?_append_right hle] at h
      have hx : x = last := List.mem_singleton.mp (List.mem_of_getElem? h)
      have hzero : n - init.length = 0 := by
        have := (List.getElem?_eq_some_iff.mp h).1
        rw [List.length_singleton] at this
        exact Nat.lt_one_iff.mp this
      rw [List.set_append_right _ _ hle, hzero, hx]
      change (last :: (init ++ [last]).dropLast).Perm _
      rw [List.dropLast_concat]
      exact (List.perm_append_singleton last init).symm

end SwapRemove
end Data
