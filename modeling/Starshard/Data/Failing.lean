import Mathlib.Algebra.GroupWithZero.Nat
import Mathlib.Data.List.Basic

/-! Programs over a mutable state that may fail. A failure keeps what was written before it. -/
namespace Data

/-- A program over the state `σ` that fails with `ε`. -/
abbrev Failing (ε σ α : Type) := ExceptT ε (StateM σ) α

namespace Failing

variable {ε σ α β γ : Type}

theorem run_bind (x : Failing ε σ α) (f : α → Failing ε σ β) (s : σ) :
    ExceptT.run (x >>= f) s = match ExceptT.run x s with
      | (.ok a, s') => ExceptT.run (f a) s'
      | (.error e, s') => (.error e, s') := by
  rw [ExceptT.run_bind]
  change StateT.bind x.run _ s = _
  unfold StateT.bind
  rcases x.run s with ⟨r, s'⟩
  cases r <;> rfl

theorem run_bind_ok {x : Failing ε σ α} {f : α → Failing ε σ β} {s s' : σ} {a : α}
    (h : ExceptT.run x s = (.ok a, s')) : ExceptT.run (x >>= f) s = ExceptT.run (f a) s' := by
  rw [run_bind, h]

theorem run_bind_error {x : Failing ε σ α} {f : α → Failing ε σ β} {s s' : σ} {e : ε}
    (h : ExceptT.run x s = (.error e, s')) : ExceptT.run (x >>= f) s = (.error e, s') := by
  rw [run_bind, h]

/-- The rule of a loop whose steps keep `inv` and, when they fail, leave `bad`: the
invariant speaks of the elements read so far, the accumulator and the state. -/
theorem run_foldlM {f : γ → α → Failing ε σ γ} {inv : List α → γ → σ → Prop}
    {bad : ε → σ → Prop} {all : List α}
    (hstep : ∀ pre a post acc s, all = pre ++ a :: post → inv pre acc s →
      (∃ acc' s', ExceptT.run (f acc a) s = (.ok acc', s') ∧ inv (pre ++ [a]) acc' s') ∨
        ∃ e s', ExceptT.run (f acc a) s = (.error e, s') ∧ bad e s')
    {acc : γ} {s : σ} (h : inv [] acc s) :
    (∃ acc' s', ExceptT.run (all.foldlM f acc) s = (.ok acc', s') ∧ inv all acc' s') ∨
      ∃ e s', ExceptT.run (all.foldlM f acc) s = (.error e, s') ∧ bad e s' := by
  suffices ∀ (post pre : List α) (acc : γ) (s : σ), all = pre ++ post → inv pre acc s →
      (∃ acc' s', ExceptT.run (post.foldlM f acc) s = (.ok acc', s') ∧ inv all acc' s') ∨
        ∃ e s', ExceptT.run (post.foldlM f acc) s = (.error e, s') ∧ bad e s' from
    this all [] acc s rfl h
  intro post
  induction post with
  | nil =>
    intro pre acc s hall hinv
    rw [List.append_nil] at hall
    subst hall
    exact .inl ⟨acc, s, rfl, hinv⟩
  | cons a post ih =>
    intro pre acc s hall hinv
    rw [List.foldlM_cons]
    rcases hstep pre a post acc s hall hinv with ⟨acc', s', hrun, hinv'⟩ | ⟨e, s', hrun, hbad⟩
    · rw [run_bind_ok hrun]
      exact ih (pre ++ [a]) acc' s' (by rw [hall, List.append_assoc]; rfl) hinv'
    · rw [run_bind_error hrun]
      exact .inr ⟨e, s', rfl, hbad⟩

theorem index_of_zipIdx {xs : List α} {pre post : List (α × Nat)} {a : α × Nat}
    (h : xs.zipIdx = pre ++ a :: post) : a.2 = pre.length := by
  have ha : xs.zipIdx[pre.length]? = some a := by simp [h]
  rw [List.getElem?_zipIdx, Option.map_eq_some_iff] at ha
  obtain ⟨x, _, rfl⟩ := ha
  exact Nat.zero_add _

theorem run_foldlM_zipIdx {f : γ → α × Nat → Failing ε σ γ} {inv : List α → γ → σ → Prop}
    {bad : ε → σ → Prop} {all : List α}
    (hstep : ∀ pre a post acc s, all = pre ++ a :: post → inv pre acc s →
      (∃ acc' s', ExceptT.run (f acc (a, pre.length)) s = (.ok acc', s') ∧
        inv (pre ++ [a]) acc' s') ∨
        ∃ e s', ExceptT.run (f acc (a, pre.length)) s = (.error e, s') ∧ bad e s')
    {acc : γ} {s : σ} (h : inv [] acc s) :
    (∃ acc' s', ExceptT.run (all.zipIdx.foldlM f acc) s = (.ok acc', s') ∧ inv all acc' s') ∨
      ∃ e s', ExceptT.run (all.zipIdx.foldlM f acc) s = (.error e, s') ∧ bad e s' := by
  let numbered : List (α × Nat) → γ → σ → Prop := fun pre => inv (pre.map Prod.fst)
  have hnumbered : ∀ pre a post acc s, all.zipIdx = pre ++ a :: post → numbered pre acc s →
      (∃ acc' s', ExceptT.run (f acc a) s = (.ok acc', s') ∧ numbered (pre ++ [a]) acc' s') ∨
        ∃ e s', ExceptT.run (f acc a) s = (.error e, s') ∧ bad e s' := by
    intro pre a post acc s hall hinv
    have hsplit : all = pre.map Prod.fst ++ a.1 :: post.map Prod.fst := by
      rw [← List.zipIdx_map_fst 0 all, hall, List.map_append, List.map_cons]
    have ha : a = (a.1, (pre.map Prod.fst).length) := by
      rw [List.length_map, ← index_of_zipIdx hall]
    have := hstep _ _ _ acc s hsplit hinv
    rw [← ha] at this
    unfold numbered
    rwa [List.map_append, List.map_singleton]
  have hrun := run_foldlM hnumbered h
  unfold numbered at hrun
  rwa [List.zipIdx_map_fst] at hrun

/-- However `x` ends from `s`: `ok` of a value and the state, `bad` of a failure and the state. -/
def Ends (ok : α → σ → Prop) (bad : ε → σ → Prop) (x : Failing ε σ α) (s : σ) : Prop :=
  match ExceptT.run x s with
  | (.ok a, s') => ok a s'
  | (.error e, s') => bad e s'

section Ends

variable {ok : α → σ → Prop} {ok' : β → σ → Prop} {bad : ε → σ → Prop} {x : Failing ε σ α} {s : σ}

theorem Ends.bind {f : α → Failing ε σ β} (h : Ends ok bad x s)
    (hf : ∀ a s', ok a s' → Ends ok' bad (f a) s') : Ends ok' bad (x >>= f) s := by
  unfold Ends at h ⊢
  rw [run_bind]
  rcases hx : ExceptT.run x s with ⟨r, s'⟩
  rw [hx] at h
  cases r with
  | ok a => exact hf a s' h
  | error e => exact h

theorem Ends.get_bind {f : σ → Failing ε σ β} (h : Ends ok' bad (f s) s) :
    Ends ok' bad (get >>= f) s := by
  have hget : Ends (fun a s' => a = s ∧ s' = s) bad (get : Failing ε σ σ) s := ⟨rfl, rfl⟩
  exact hget.bind fun _ _ ⟨ha, hs⟩ => by rwa [ha, hs]

theorem Ends.mono {ok₂ : α → σ → Prop} {bad₂ : ε → σ → Prop} (h : Ends ok bad x s)
    (hok : ∀ a s', ok a s' → ok₂ a s') (hbad : ∀ e s', bad e s' → bad₂ e s') :
    Ends ok₂ bad₂ x s := by
  unfold Ends at h ⊢
  rcases hx : ExceptT.run x s with ⟨r, s'⟩
  rw [hx] at h
  cases r with
  | ok a => exact hok a s' h
  | error e => exact hbad e s' h

theorem Ends.forM {f : α → Failing ε σ PUnit} {inv : σ → Prop} {xs : List α}
    (hstep : ∀ a ∈ xs, ∀ s, inv s → Ends (fun _ => inv) bad (f a) s) (h : inv s) :
    Ends (fun _ => inv) bad (xs.forM f) s := by
  induction xs generalizing s with
  | nil => exact h
  | cons a xs ih =>
    change Ends _ bad (f a >>= fun _ => xs.forM f) s
    exact (hstep a List.mem_cons_self s h).bind fun _ s' h' =>
      ih (fun b hb => hstep b (List.mem_cons_of_mem _ hb)) h'

end Ends

end Failing
end Data
