import Mathlib.Data.List.Induction
import Mathlib.Data.List.Perm.Basic
import Starshard.Data.Assoc

/-! Lists whose elements are sorted into classes, read class by class. -/
namespace Data

variable {α β : Type} [DecidableEq β]

/-- The elements class by class; within a class in the order of the list. -/
def grouped (f : α → β) (classes : List β) (xs : List α) : List α :=
  classes.flatMap fun c => xs.filter fun x => f x = c

variable {f : α → β} {classes : List β} {xs : List α}

theorem mem_grouped {x : α} : x ∈ grouped f classes xs ↔ x ∈ xs ∧ f x ∈ classes := by
  unfold grouped
  rw [List.mem_flatMap]
  constructor
  · intro ⟨c, hc, hx⟩
    obtain ⟨hx, hf⟩ := List.mem_filter.mp hx
    exact ⟨hx, of_decide_eq_true hf ▸ hc⟩
  · intro ⟨hx, hc⟩
    exact ⟨f x, hc, List.mem_filter.mpr ⟨hx, decide_eq_true rfl⟩⟩

theorem grouped_cons {c : β} (hc : c ∉ classes) (xs : List α) :
    grouped f (c :: classes) xs =
      xs.filter (fun x => f x = c) ++ grouped f classes (xs.filter fun x => ¬ f x = c) := by
  unfold grouped
  rw [List.flatMap_cons]
  congr 1
  refine List.flatMap_congr fun d hd => ?_
  rw [List.filter_filter]
  refine List.filter_congr fun x _ => ?_
  by_cases hx : f x = d
  · have hne : d ≠ c := fun he => hc (he ▸ hd)
    simp [hx, hne]
  · simp [hx]

theorem grouped_perm (hn : classes.Nodup) (xs : List α) (hf : ∀ x ∈ xs, f x ∈ classes) :
    (grouped f classes xs).Perm xs := by
  induction classes generalizing xs with
  | nil =>
    rw [List.eq_nil_iff_forall_not_mem.mpr fun x hx => absurd (hf x hx) List.not_mem_nil]
    exact .refl _
  | cons c classes ih =>
    obtain ⟨hc, hn⟩ := List.nodup_cons.mp hn
    rw [grouped_cons hc]
    have hrest := ih hn (xs.filter fun x => ¬ f x = c) fun x hx => by
      obtain ⟨hx, hne⟩ := List.mem_filter.mp hx
      exact (List.mem_cons.mp (hf x hx)).resolve_left (by simpa using hne)
    refine (List.Perm.append_left _ hrest).trans ?_
    simpa using List.filter_append_perm (fun x => f x = c) xs

theorem filter_grouped (hn : classes.Nodup) (hf : ∀ x ∈ xs, f x ∈ classes) {p : α → Bool} {c : β}
    (hp : ∀ x, p x = true → f x = c) : (grouped f classes xs).filter p = xs.filter p := by
  have hclass (d : β) : (xs.filter fun x => f x = d).filter p =
      if d = c then xs.filter p else [] := by
    rw [List.filter_filter]
    split
    · next hd =>
      refine List.filter_congr fun x _ => ?_
      cases hx : p x with
      | false => simp
      | true => simp [hd, hp x hx]
    · next hd =>
      refine List.filter_eq_nil_iff.mpr fun x _ => ?_
      simp only [Bool.and_eq_true, decide_eq_true_eq, not_and]
      exact fun hx hfx => hd (hfx.symm.trans (hp x hx))
  unfold grouped
  rw [List.filter_flatMap, List.flatMap_congr fun d _ => hclass d]
  by_cases hc : c ∈ classes
  · clear hf
    induction classes with
    | nil => cases hc
    | cons d classes ih =>
      obtain ⟨hd, hn⟩ := List.nodup_cons.mp hn
      rw [List.flatMap_cons]
      by_cases hdc : d = c
      · have hrest : classes.flatMap (fun d => if d = c then xs.filter p else []) = [] :=
          List.flatMap_eq_nil_iff.mpr fun e he => if_neg fun hec => by
            subst hec
            exact hd (hdc ▸ he)
        rw [if_pos hdc, hrest, List.append_nil]
      · rw [if_neg hdc, List.nil_append]
        exact ih hn ((List.mem_cons.mp hc).resolve_left (Ne.symm hdc))
  · have hnone : xs.filter p = [] := List.filter_eq_nil_iff.mpr fun x hx hpx =>
      hc (hp x hpx ▸ hf x hx)
    rw [hnone]
    simp

theorem flatMap_update {is : List β} (hn : is.Nodup) {i : β} (hi : i ∈ is) (f : β → List α)
    (xs : List α) :
    (is.flatMap (Function.update f i xs)).Perm (xs ++ (is.erase i).flatMap f) := by
  have hrest : (is.erase i).flatMap (Function.update f i xs) = (is.erase i).flatMap f :=
    List.flatMap_congr fun j hj => Function.update_of_ne ((hn.mem_erase_iff.mp hj).1) ..
  have := (List.perm_cons_erase hi).flatMap_right (Function.update f i xs)
  rwa [List.flatMap_cons, Function.update_self, hrest] at this

/-- The list names the classes in their order. -/
def Follows (f : α → β) (classes : List β) (xs : List α) : Prop :=
  xs.Pairwise fun a b => classes.idxOf (f a) ≤ classes.idxOf (f b)

theorem follows_grouped (hn : classes.Nodup) (xs : List α) :
    Follows f classes (grouped f classes xs) := by
  unfold Follows grouped
  rw [List.pairwise_flatMap]
  refine ⟨fun c _ => ?_, ?_⟩
  · refine List.Pairwise.imp_of_mem (R := fun _ _ => True) (fun ha hb _ => ?_)
      (List.pairwise_of_forall fun _ _ => trivial)
    rw [of_decide_eq_true (List.mem_filter.mp ha).2, of_decide_eq_true (List.mem_filter.mp hb).2]
  · refine List.pairwise_iff_getElem.mpr fun i j hi hj hij x hx y hy => ?_
    rw [of_decide_eq_true (List.mem_filter.mp hx).2, of_decide_eq_true (List.mem_filter.mp hy).2,
      hn.idxOf_getElem i hi, hn.idxOf_getElem j hj]
    exact Nat.le_of_lt hij

/-- Grouping changes nothing exactly if the classes are named in their order. -/
theorem grouped_eq_iff (hn : classes.Nodup) (hf : ∀ x ∈ xs, f x ∈ classes) :
    grouped f classes xs = xs ↔ Follows f classes xs := by
  constructor
  · intro h
    rw [← h]
    exact follows_grouped hn xs
  · intro h
    induction classes generalizing xs with
    | nil =>
      rw [List.eq_nil_iff_forall_not_mem.mpr fun x hx => absurd (hf x hx) List.not_mem_nil]
      rfl
    | cons c classes ih =>
      obtain ⟨hc, hn⟩ := List.nodup_cons.mp hn
      have hsplit : xs.filter (fun x => f x = c) ++ xs.filter (fun x => ¬ f x = c) = xs := by
        clear ih hf
        induction xs with
        | nil => rfl
        | cons x xs ih =>
          obtain ⟨hx, hxs⟩ := List.pairwise_cons.mp h
          by_cases hxc : f x = c
          · simpa [hxc] using ih hxs
          · have hnone : ∀ y ∈ x :: xs, ¬ f y = c := by
              intro y hy hyc
              rcases List.mem_cons.mp hy with rfl | hy
              · exact hxc hyc
              · have := hx y hy
                rw [hyc, List.idxOf_cons_self, List.idxOf_cons_ne _ (Ne.symm hxc)] at this
                omega
            rw [List.filter_eq_nil_iff.mpr (by simpa using hnone),
              List.filter_eq_self.mpr (by simpa using hnone), List.nil_append]
      have hrest : ∀ x ∈ xs.filter fun x => ¬ f x = c, f x ∈ classes := fun x hx => by
        obtain ⟨hx, hne⟩ := List.mem_filter.mp hx
        exact (List.mem_cons.mp (hf x hx)).resolve_left (by simpa using hne)
      have hfollows : Follows f classes (xs.filter fun x => ¬ f x = c) := by
        refine List.Pairwise.imp_of_mem (fun ha hb hab => ?_) (h.sublist List.filter_sublist)
        have hca := of_decide_eq_true (List.mem_filter.mp ha).2
        have hcb := of_decide_eq_true (List.mem_filter.mp hb).2
        rw [List.idxOf_cons_ne _ (Ne.symm hca), List.idxOf_cons_ne _ (Ne.symm hcb)] at hab
        exact Nat.le_of_succ_le_succ hab
      rw [grouped_cons hc, ih hn hrest hfollows, hsplit]

section Bucketize

/-- `entry(f(x)).or_default().push(x)` for each element. -/
def bucketize (f : α → β) (xs : List α) : Assoc β (List α) :=
  xs.foldl (fun m x => m.insert (f x) ((m.lookup (f x)).getD [] ++ [x])) ∅

theorem lookup_bucketize (f : α → β) (xs : List α) (c : β) :
    (bucketize f xs).lookup c =
      if xs.filter (fun x => f x = c) = [] then none else some (xs.filter fun x => f x = c) := by
  induction xs using List.reverseRecOn with
  | nil => simp [bucketize]
  | append_singleton xs x ih =>
    have hstep : bucketize f (xs ++ [x]) =
        (bucketize f xs).insert (f x) (((bucketize f xs).lookup (f x)).getD [] ++ [x]) := by
      unfold bucketize
      rw [List.foldl_append]
      rfl
    rw [hstep, List.filter_append, List.filter_singleton]
    by_cases hx : f x = c
    · subst hx
      rw [AList.lookup_insert, ih]
      by_cases he : xs.filter (fun y => f y = f x) = [] <;> simp [he]
    · rw [AList.lookup_insert_ne (Ne.symm hx), ih]
      simp [hx]

theorem bucket_eq (f : α → β) (xs : List α) (c : β) :
    ((bucketize f xs).lookup c).getD [] = xs.filter fun x => f x = c := by
  rw [lookup_bucketize]
  by_cases h : xs.filter (fun x => f x = c) = [] <;> simp [h]

theorem mem_keys_bucketize {c : β} : c ∈ (bucketize f xs).keys ↔ ∃ x ∈ xs, f x = c := by
  rw [← AList.mem_keys, ← AList.lookup_isSome, lookup_bucketize]
  by_cases h : xs.filter (fun x => f x = c) = []
  · rw [if_pos h]
    simpa using h
  · obtain ⟨x, hx⟩ := List.exists_mem_of_ne_nil _ h
    obtain ⟨hx, hc⟩ := List.mem_filter.mp hx
    simpa [h] using ⟨x, hx, of_decide_eq_true hc⟩

end Bucketize

end Data
