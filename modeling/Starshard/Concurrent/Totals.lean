import Mathlib.Algebra.BigOperators.Group.List.Basic
import Starshard.Concurrent.History

/-! Totals over all tasks of a linearization, from the totals of each task. -/
namespace Concurrent

theorem Run.finished {Act Op Res : Type} {Resp : Act → Type} {M : Semantics Act Resp}
    {code : Op → Program Act Resp Res} {s : M.Shared} {h : List (Label Op Res)}
    {c : Config M Op Res} (hr : Run M code s h c) {t : Nat} {op : Op} {r : Res}
    (ht : c.task t = .finished op r) : .ret t r ∈ h := by
  induction hr with
  | start => cases ht
  | @step h c l c' _ hs ih =>
    have hkeep : ∀ {u : Nat} {x : Task Act Resp Op Res}, c'.task = Function.update c.task u x →
        (∀ op r, x ≠ .finished op r) → .ret t r ∈ h ++ [l] := fun {u x} heq hx => by
      rw [heq] at ht
      by_cases hu : t = u
      · subst hu
        rw [Function.update_self] at ht
        exact absurd ht (hx op r)
      · rw [Function.update_of_ne hu] at ht
        exact List.mem_append_left _ (ih ht)
    cases hs with
    | call => exact hkeep rfl nofun
    | act => exact hkeep rfl nofun
    | cut => exact hkeep rfl nofun
    | unwind => exact hkeep rfl nofun
    | settled => exact hkeep rfl nofun
    | @ret s G T u op' r' hu =>
      by_cases htu : t = u
      · subst htu
        have ht : Function.update T t (.finished op' r') t = .finished op r := ht
        rw [Function.update_self] at ht
        cases ht
        simp
      · have ht : Function.update T u (.finished op' r') t = .finished op r := ht
        rw [Function.update_of_ne htu] at ht
        exact List.mem_append_left _ (ih ht)

variable {Ev : Type}

theorem mem_eventsOf {t : Nat} {lin : List (Nat × Ev)} {e : Ev} :
    e ∈ eventsOf t lin ↔ (t, e) ∈ lin := by
  simp [eventsOf]

theorem eventsOf_without (t u : Nat) (lin : List (Nat × Ev)) :
    eventsOf u (lin.filter fun x => x.1 ≠ t) = if u = t then [] else eventsOf u lin := by
  rw [eventsOf, List.filter_filter]
  split
  · next h =>
    subst h
    rw [List.map_eq_nil_iff, List.filter_eq_nil_iff]
    intro x _
    simp
  · next h =>
    refine congrArg (List.map Prod.snd) (List.filter_congr fun x _ => ?_)
    by_cases hx : x.1 = u
    · simp [hx, h]
    · simp [hx]

theorem perm_eventsOf (t : Nat) (lin : List (Nat × Ev)) :
    (lin.map Prod.snd).Perm
      (eventsOf t lin ++ (lin.filter fun x => x.1 ≠ t).map Prod.snd) := by
  rw [eventsOf, ← List.map_append]
  refine List.Perm.map _ (.trans (List.filter_append_perm (fun x => x.1 == t) lin).symm ?_)
  refine .of_eq (congrArg _ (List.filter_congr fun x _ => ?_))
  by_cases hx : x.1 = t <;> simp [hx]

/-- What is equal for the events of each task is equal for all events. -/
theorem sum_eq_of_tasks {N : Type} [AddCommMonoid N] {f g : Ev → N} {lin : List (Nat × Ev)}
    (h : ∀ t, ((eventsOf t lin).map f).sum = ((eventsOf t lin).map g).sum) :
    ((lin.map Prod.snd).map f).sum = ((lin.map Prod.snd).map g).sum := by
  induction hn : lin.length using Nat.strongRecOn generalizing lin with
  | ind n ih =>
    cases lin with
    | nil => rfl
    | cons x lin =>
      let rest := (x :: lin).filter fun y => y.1 ≠ x.1
      have hlt : rest.length < n := by
        rw [← hn]
        exact List.length_filter_lt_length_iff_exists.mpr ⟨x, List.mem_cons_self, by simp⟩
      have hrest := ih rest.length hlt (fun t => by
        rw [eventsOf_without]
        split
        · rfl
        · exact h t) rfl
      have hsplit : ∀ w : Ev → N, (((x :: lin).map Prod.snd).map w).sum =
          ((eventsOf x.1 (x :: lin)).map w).sum + ((rest.map Prod.snd).map w).sum := fun w => by
        rw [((perm_eventsOf x.1 (x :: lin)).map w).sum_eq, List.map_append, List.sum_append]
      rw [hsplit f, hsplit g, h x.1, hrest]

theorem sum_over_tasks {N : Type} [AddCommMonoid N] {w : Ev → N} {ts : List Nat} (hts : ts.Nodup)
    {lin : List (Nat × Ev)} (hrest : ∀ t, t ∉ ts → ((eventsOf t lin).map w).sum = 0) :
    ((lin.map Prod.snd).map w).sum = (ts.map fun t => ((eventsOf t lin).map w).sum).sum := by
  induction ts generalizing lin with
  | nil =>
    have hzero : ∀ es : List Ev, (es.map fun _ => (0 : N)).sum = 0 := fun es => by
      induction es with
      | nil => rfl
      | cons e es ih => rw [List.map_cons, List.sum_cons, ih, add_zero]
    refine (sum_eq_of_tasks (g := fun _ => (0 : N)) fun t => ?_).trans (hzero _)
    rw [hrest t (by simp), hzero]
  | cons t ts ih =>
    obtain ⟨hnew, hts⟩ := List.nodup_cons.mp hts
    have hothers := @ih hts (lin.filter fun x => x.1 ≠ t) fun u hu => by
      rw [eventsOf_without]
      split
      · rfl
      · next hut => exact hrest u fun h => (List.mem_cons.mp h).elim hut hu
    rw [((perm_eventsOf t lin).map w).sum_eq, List.map_append, List.sum_append, hothers,
      List.map_cons, List.sum_cons]
    refine congrArg _ (congrArg List.sum (List.map_congr_left fun u hu => ?_))
    have hut : u ≠ t := fun h => hnew (h ▸ hu)
    rw [eventsOf_without, if_neg hut]

end Concurrent
