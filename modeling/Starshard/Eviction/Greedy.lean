import Mathlib.Algebra.GroupWithZero.Nat
import Mathlib.Data.List.Nodup

/-! Walking down a ranking and choosing each element while some limit is exceeded. -/
namespace Greedy

variable {σ τ α : Type}

/-- `exceeds` says whether an element is chosen; `drop` accounts for its removal. -/
def choose (exceeds : σ → α → Bool) (drop : σ → α → σ) : σ → List α → List α
  | _, [] => []
  | s, a :: l =>
    if exceeds s a then a :: choose exceeds drop (drop s a) l else choose exceeds drop s l

variable {exceeds : σ → α → Bool} {drop : σ → α → σ}

theorem choose_cons (s : σ) (a : α) (l : List α) :
    choose exceeds drop s (a :: l) =
      if exceeds s a then a :: choose exceeds drop (drop s a) l else choose exceeds drop s l := rfl

theorem choose_sublist (s : σ) (l : List α) : (choose exceeds drop s l).Sublist l := by
  induction l generalizing s with
  | nil => exact .slnil
  | cons a l ih =>
    unfold choose
    split
    · exact (ih _).cons_cons a
    · exact (ih s).cons a

theorem choose_eq_nil {s : σ} {l : List α} (h : ∀ a ∈ l, exceeds s a = false) :
    choose exceeds drop s l = [] := by
  induction l with
  | nil => rfl
  | cons a l ih =>
    unfold choose
    rw [h a List.mem_cons_self]
    exact ih fun b hb => h b (List.mem_cons_of_mem _ hb)

theorem choose_congr {exceeds' : τ → α → Bool} {drop' : τ → α → τ} (R : σ → τ → Prop)
    {l : List α} (he : ∀ s t, R s t → ∀ a ∈ l, exceeds s a = exceeds' t a)
    (hd : ∀ s t, R s t → ∀ a ∈ l, exceeds s a = true → R (drop s a) (drop' t a)) {s : σ} {t : τ}
    (h : R s t) : choose exceeds drop s l = choose exceeds' drop' t l := by
  induction l generalizing s t with
  | nil => rfl
  | cons a l ih =>
    have ih := @ih (fun s t h b hb => he s t h b (List.mem_cons_of_mem _ hb))
      (fun s t h b hb => hd s t h b (List.mem_cons_of_mem _ hb))
    unfold choose
    rw [← he s t h a List.mem_cons_self]
    split
    · next hc => rw [ih (hd s t h a List.mem_cons_self hc)]
    · exact ih h

theorem choose_eq_nil_of_false {exceeds : σ → Bool} {s : σ} (h : exceeds s = false) (l : List α) :
    choose (fun s _ => exceeds s) drop s l = [] :=
  choose_eq_nil fun _ _ => h

theorem choose_append (s : σ) (l l' : List α) :
    choose exceeds drop s (l ++ l') = choose exceeds drop s l ++
      choose exceeds drop ((choose exceeds drop s l).foldl drop s) l' := by
  induction l generalizing s with
  | nil => rfl
  | cons a l ih =>
    rw [List.cons_append, choose_cons, choose_cons]
    by_cases he : exceeds s a = true
    · rw [if_pos he, if_pos he, ih]
      rfl
    · rw [if_neg he, if_neg he, ih]

/-- Decisions that do not depend on the element choose a shortest prefix. -/
theorem choose_shortest (exceeds : σ → Bool) (s : σ) (l : List α) :
    ∃ n, n ≤ l.length ∧ choose (fun s _ => exceeds s) drop s l = l.take n ∧
      (n < l.length → exceeds ((l.take n).foldl drop s) = false) ∧
      ∀ m, m < n → exceeds ((l.take m).foldl drop s) = true := by
  induction l generalizing s with
  | nil => exact ⟨0, Nat.le_refl 0, rfl, fun h => absurd h (Nat.lt_irrefl 0), nofun⟩
  | cons a l ih =>
    cases he : exceeds s with
    | false =>
      refine ⟨0, Nat.zero_le _, ?_, fun _ => he, nofun⟩
      refine (choose_eq_nil_of_false he _).trans ?_
      rfl
    | true =>
      obtain ⟨n, hn, hc, hlast, hfirst⟩ := ih (drop s a)
      refine ⟨n + 1, Nat.succ_le_succ hn, ?_, fun h => hlast (Nat.lt_of_succ_lt_succ h), ?_⟩
      · unfold choose
        rw [he, if_pos rfl, hc]
        rfl
      · intro m hm
        cases m with
        | zero => exact he
        | succ m => exact hfirst m (Nat.lt_of_succ_lt_succ hm)

theorem choose_take (limit n : Nat) (l : List α) :
    choose (fun n _ => decide (limit < n)) (fun n _ => n - 1) n l = l.take (n - limit) := by
  induction l generalizing n with
  | nil => simp [choose]
  | cons a l ih =>
    unfold choose
    by_cases h : limit < n
    · rw [decide_eq_true h, if_pos rfl, ih]
      obtain ⟨d, hd⟩ : ∃ d, n - limit = d + 1 := ⟨n - limit - 1, by omega⟩
      rw [hd, List.take_succ_cons]
      congr 2
      omega
    · rw [decide_eq_false h, if_neg Bool.false_ne_true, ih]
      simp [Nat.sub_eq_zero_of_le (Nat.not_lt.mp h)]

section Groups

variable {group : α → Nat} {limit : Nat}

/-- A counter for each group: an element counts in its group only. -/
def exceedsGroup (group : α → Nat) (limit : Nat) (counts : Nat → Nat) (a : α) : Bool :=
  decide (limit < counts (group a))

def dropGroup (group : α → Nat) (counts : Nat → Nat) (a : α) : Nat → Nat :=
  Function.update counts (group a) (counts (group a) - 1)

/-- The groups do not interfere: of each the first elements go. -/
theorem filter_chooseGroup (counts : Nat → Nat) (l : List α) (i : Nat) :
    (choose (exceedsGroup group limit) (dropGroup group) counts l).filter
      (fun a => decide (group a = i)) =
      (l.filter fun a => decide (group a = i)).take (counts i - limit) := by
  rw [← choose_take]
  induction l generalizing counts with
  | nil => rfl
  | cons a l ih =>
    by_cases hi : group a = i
    · subst hi
      by_cases hc : limit < counts (group a)
      · simp only [choose, exceedsGroup, hc, decide_true, if_true, List.filter_cons, ih]
        simp [dropGroup]
      · simp only [choose, exceedsGroup, hc, decide_false, List.filter_cons, decide_true, if_true,
          Bool.false_eq_true, if_false]
        exact ih counts
    · have hl : (a :: l).filter (fun b => decide (group b = i)) =
          l.filter fun b => decide (group b = i) := by
        simp [hi]
      rw [hl]
      by_cases hc : limit < counts (group a)
      · simp only [choose, exceedsGroup, hc, decide_true, if_true, List.filter_cons, hi, decide_false,
          Bool.false_eq_true, if_false]
        rw [ih]
        simp [dropGroup, Function.update_of_ne (Ne.symm hi)]
      · simp only [choose, exceedsGroup, hc, decide_false, Bool.false_eq_true, if_false]
        exact ih counts

end Groups

end Greedy
