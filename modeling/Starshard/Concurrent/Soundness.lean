import Starshard.Concurrent.Logic

/-! What verified code guarantees: histories of arbitrary interleavings have a
linearization, and one task running alone always returns. -/
namespace Concurrent

open Function (update)

variable {Act : Type} {Resp : Act → Type} {Op Res Ev A : Type}

/-- The operation a task was called with. -/
def Task.op? : Task Act Resp Op Res → Option Op
  | .ready => none
  | .running op _ | .unwinding op _ | .finished op _ | .aborted op => some op

def Task.Ended : Task Act Resp Op Res → Prop
  | .unwinding _ _ | .aborted _ => True
  | _ => False

@[simp] theorem precedes_nil (t u : Nat) : ¬ Precedes ([] : List (Label Op Res)) t u := by
  rintro ⟨h₁, h₂, h₃, r, op, h⟩
  simp at h

theorem precedes_snoc {h : List (Label Op Res)} {l : Label Op Res} {t u : Nat}
    (hp : Precedes (h ++ [l]) t u) :
    Precedes h t u ∨ ((∃ r, .ret t r ∈ h) ∧ ∃ op, l = .call u op) := by
  obtain ⟨h₁, h₂, h₃, r, op, he⟩ := hp
  rcases List.eq_nil_or_concat h₃ with rfl | ⟨h₃', l', hconcat⟩
  · have hl := List.append_inj' (he.trans (by simp :
      h₁ ++ .ret t r :: h₂ ++ [.call u op] = (h₁ ++ .ret t r :: h₂) ++ [.call u op])) rfl
    obtain ⟨rfl, hl⟩ := hl
    exact .inr ⟨⟨r, by simp⟩, op, by simpa using hl⟩
  · rw [List.concat_eq_append] at hconcat
    subst hconcat
    have hl := List.append_inj' (he.trans (by simp :
      h₁ ++ .ret t r :: h₂ ++ .call u op :: (h₃' ++ [l']) =
        (h₁ ++ .ret t r :: h₂ ++ .call u op :: h₃') ++ [l'])) rfl
    exact .inl ⟨h₁, h₂, h₃', r, op, hl.1⟩

namespace Protocol

variable {M : Semantics Act Resp} {P : Protocol M Ev A}
variable {code : Op → Program Act Resp Res} {accept : Op → List Ev → Res → Prop}
  {spec : Op → P.Spec}

/-- The operation `op` may return `r` from a view. -/
def Returns (P : Protocol M Ev A) (accept : Op → List Ev → Res → Prop) (op : Op) (r : Res)
    (v : P.View) : Prop := P.guards v = [] ∧ accept op (P.events v) r

/-- What is known about a task when it contributed the events `es`; while its operation runs,
`W` holds of the rest of the program. -/
def TaskOk (P : Protocol M Ev A) (spec : Op → P.Spec) (accept : Op → List Ev → Res → Prop)
    (W : Op → Program Act Resp Res → P.View → Prop)
    (gs : List M.Guard) (s : M.Shared) (g : P.Ghost) (es : List Ev) :
    Task Act Resp Op Res → Prop
  | .ready => gs = [] ∧ es = []
  | .running op p => ∃ v, P.guards v = gs ∧ P.cons v s g ∧ P.events v = es ∧
      P.spec v = spec op ∧ W op p v
  | .unwinding _ p => ∃ v, P.guards v = gs ∧ P.cons v s g ∧ P.events v = es ∧
      P.Unwinds p v P.Released
  | .finished op r => gs = [] ∧ accept op es r ∧ P.meets (spec op) es
  | .aborted _ => gs = []

/-- A configuration that a run reaches with the events `lin`, where `W` holds of the programs
that are running. -/
structure Followed (P : Protocol M Ev A) (spec : Op → P.Spec)
    (accept : Op → List Ev → Res → Prop) (W : Nat → Op → Program Act Resp Res → P.View → Prop)
    (init : A) (h : List (Label Op Res)) (c : Config M Op Res) (g : P.Ghost)
    (lin : List (Nat × Ev)) : Prop where
  inv : P.inv c.shared c.guards g
  legal : Replay P.step init (lin.map Prod.snd) (P.state g)
  task : ∀ t, P.TaskOk spec accept (W t) (c.guards t) c.shared g (eventsOf t lin) (c.task t)
  called : ∀ t op, .call t op ∈ h ↔ (c.task t).op? = some op
  returned : ∀ t r, .ret t r ∈ h → ∃ op, c.task t = .finished op r
  ended : ∀ t, (c.task t).Ended → .cut t ∈ h
  realtime : ∀ t u, Precedes h t u → ∀ l₁ e l₂, lin = l₁ ++ (u, e) :: l₂ →
    ∀ e', (t, e') ∉ l₂

theorem eventsOf_eq_nil {t : Nat} {lin : List (Nat × Ev)} (h : eventsOf t lin = []) (e : Ev) :
    (t, e) ∉ lin := by
  intro he
  have : e ∈ eventsOf t lin := by
    simp only [eventsOf, List.mem_map, List.mem_filter, beq_iff_eq]
    exact ⟨(t, e), ⟨he, rfl⟩, rfl⟩
  simp [h] at this

variable {init : A} {h : List (Label Op Res)} {g : P.Ghost} {lin : List (Nat × Ev)}
  {W W' : Nat → Op → Program Act Resp Res → P.View → Prop}

theorem TaskOk.keep {W : Op → Program Act Resp Res → P.View → Prop} {gs : List M.Guard}
    {s s' : M.Shared} {g' : P.Ghost} {es : List Ev}
    {τ : Task Act Resp Op Res} (hτ : P.TaskOk spec accept W gs s g es τ)
    (hc : ∀ w, P.guards w = gs → P.cons w s g → P.cons w s' g') :
    P.TaskOk spec accept W gs s' g' es τ := by
  cases τ with
  | ready => exact hτ
  | running op p =>
    obtain ⟨v, hg, hv, he, hsp, hp⟩ := hτ
    exact ⟨v, hg, hc v hg hv, he, hsp, hp⟩
  | unwinding op p =>
    obtain ⟨v, hg, hv, he, hp⟩ := hτ
    exact ⟨v, hg, hc v hg hv, he, hp⟩
  | finished op r => exact hτ
  | aborted op => exact hτ

/-- A step of task `t` that neither calls nor returns. -/
theorem Followed.move {s : M.Shared} {G : Nat → List M.Guard} {T : Nat → Task Act Resp Op Res}
    (hP : ¬ P.alone) (hx : P.Followed spec accept W init h ⟨s, G, T⟩ g lin) {t : Nat} {v : P.View}
    {s' : M.Shared} {gs : List M.Guard} {g' : P.Ghost} {v' : P.View}
    (hv : P.events v = eventsOf t lin) (m : P.Moves t G s g v s' gs g' v')
    {τ : Task Act Resp Op Res} (hop : τ.op? = (T t).op?) (hT : (T t).op?.isSome)
    (hfin : ∀ op r, T t ≠ .finished op r) (l : Label Op Res)
    (hcall : ∀ u op, l ≠ .call u op) (hret : ∀ u r, l ≠ .ret u r)
    (hend : τ.Ended → (T t).Ended ∨ l = .cut t)
    (hτ : ∀ es, P.events v' = es → P.TaskOk spec accept (W t) gs s' g' es τ) :
    ∃ lin', P.Followed spec accept W init (h ++ [l]) ⟨s', update G t gs, update T t τ⟩ g'
      lin' := by
  obtain ⟨es, hes, hrep⟩ := m.effect
  refine ⟨lin ++ es.map (Prod.mk t), ⟨m.inv, ?_, ?_, ?_, ?_, ?_, ?_⟩⟩
  · simpa [Function.comp_def] using hx.legal.append hrep
  · intro u
    by_cases hu : u = t
    · subst hu
      simpa using hτ _ (by rw [hes, hv, eventsOf_append, eventsOf_own])
    · simpa [hu, eventsOf_append, eventsOf_other hu] using
        (hx.task u).keep (m.others hP u hu)
  · intro u op
    have hl : Label.call u op ≠ l := Ne.symm (hcall u op)
    by_cases hu : u = t
    · subst hu
      simp [hl, hx.called, hop]
    · simp [hl, hx.called, hu]
  · intro u r hr
    have hl : Label.ret u r ≠ l := Ne.symm (hret u r)
    obtain ⟨o, ho⟩ := hx.returned u r (by simpa [hl] using hr)
    have hu : u ≠ t := by
      rintro rfl
      exact hfin o r ho
    exact ⟨o, by simpa [hu] using ho⟩
  · intro u hu
    by_cases hut : u = t
    · subst hut
      rcases hend (by simpa using hu) with hx' | rfl
      · exact List.mem_append_left _ (hx.ended u hx')
      · simp
    · exact List.mem_append_left _ (hx.ended u (by simpa [hut] using hu))
  · intro a u hp l₁ e l₂ he e' hmem
    have hp : Precedes h a u := by
      rcases precedes_snoc hp with hp | ⟨_, op, hl⟩
      · exact hp
      · exact absurd hl (hcall u op)
    have hat : a ≠ t := by
      rintro rfl
      obtain ⟨h₁, h₂, h₃, r, op, hh⟩ := hp
      obtain ⟨op', hop'⟩ := hx.returned a r (by simp [hh])
      exact hfin op' r hop'
    rcases List.append_eq_append_iff.mp he with ⟨w, rfl, hw⟩ | ⟨w, hw, h2⟩
    · have hmem' : (a, e') ∈ es.map (Prod.mk t) := by rw [hw]; simp [hmem]
      simp at hmem'
      exact hat hmem'.2.symm
    · cases w with
      | nil =>
        have hmem' : (a, e') ∈ es.map (Prod.mk t) := by
          rw [← List.nil_append (es.map _), ← h2]
          simp [hmem]
        simp at hmem'
        exact hat hmem'.2.symm
      | cons x w =>
        simp only [List.cons_append, List.cons.injEq] at h2
        obtain ⟨rfl, rfl⟩ := h2
        rcases List.mem_append.mp hmem with hmem | hmem
        · exact hx.realtime a u hp l₁ e w hw e' hmem
        · simp at hmem
          exact hat hmem.2.symm

theorem Followed.start {s₀ : M.Shared} (hs : P.inv s₀ (fun _ => []) g) :
    P.Followed spec accept W (P.state g) [] (Config.start M Op Res s₀) g [] where
  inv := hs
  legal := .nil
  task t := ⟨rfl, rfl⟩
  called t op := by simp [Config.start, Task.op?]
  returned t r hr := by simp at hr
  ended t ht := ht.elim
  realtime t u hp := absurd hp (precedes_nil t u)

theorem Followed.holds (hP : ¬ P.alone) {c : Config M Op Res}
    (hx : P.Followed spec accept W init h c g lin) {t : Nat} {v : P.View}
    (hg : P.guards v = c.guards t) (hv : P.cons v c.shared g) :
    P.Holds t v c.shared c.guards g where
  guards := hg.symm
  inv := hx.inv
  cons := hv
  alone ha := absurd ha hP

/-- What is known of the programs may be brought up to date for the tasks that run them. -/
theorem Followed.renew (hP : ¬ P.alone) {c : Config M Op Res}
    (hx : P.Followed spec accept W init h c g lin)
    (hW : ∀ t op p v, c.task t = .running op p → P.Holds t v c.shared c.guards g →
      P.spec v = spec op → W t op p v → W' t op p v) :
    P.Followed spec accept W' init h c g lin where
  inv := hx.inv
  legal := hx.legal
  task t := by
    have ht := hx.task t
    cases hT : c.task t with
    | running op p =>
      simp only [hT, TaskOk] at ht
      obtain ⟨v, hg, hv, he, hsp, hw⟩ := ht
      exact ⟨v, hg, hv, he, hsp, hW t op p v hT (hx.holds hP hg hv) hsp hw⟩
    | _ =>
      rw [hT] at ht
      exact ht
  called := hx.called
  returned := hx.returned
  ended := hx.ended
  realtime := hx.realtime

/-- The steps of an operation lead from what `W` says of its program to what `W'` says. -/
structure Sustained (P : Protocol M Ev A) (code : Op → Program Act Resp Res) (spec : Op → P.Spec)
    (accept : Op → List Ev → Res → Prop)
    (W W' : Nat → Op → Program Act Resp Res → P.View → Prop) : Prop where
  call : ∀ t op, P.meets (spec op) [] ∧ ∀ v, P.initial v → P.spec v = spec op →
    W' t op (code op) v
  act : ∀ t op a k v, W t op (.step a k) v →
    P.Cuts a v ∧ P.Rule a v fun r v' => W' t op (k r) v'
  ret : ∀ t op r v, W t op (.done r) v → P.Returns accept op r v
  keep : ∀ t op p v, W t op p v → W' t op p v

theorem Followed.step (hP : ¬ P.alone) (hW : P.Sustained code spec accept W W')
    {c c' : Config M Op Res} {l : Label Op Res} (hc : P.Followed spec accept W init h c g lin)
    (hs : Step M code c l c') :
    ∃ g' lin', P.Followed spec accept W' init (h ++ [l]) c' g' lin' := by
  have hx : P.Followed spec accept W' init h c g lin :=
    hc.renew hP fun t op p v _ _ _ => hW.keep t op p v
  cases hs with
  | @call s G T t op hready =>
    have ht := hx.task t
    simp only [hready, TaskOk] at ht
    obtain ⟨v, hi, hsp, hv⟩ := P.initial_cons s G g (spec op) hx.inv (hW.call t op).1
    refine ⟨g, lin, ⟨hx.inv, hx.legal, fun u => ?_, fun u op' => ?_, fun u r hr => ?_,
      fun u hu => ?_, ?_⟩⟩
    · by_cases hu : u = t
      · subst hu
        simpa [TaskOk, ht.1, ht.2] using
          ⟨v, P.initial_guards v hi, hv, P.initial_events v hi, hsp, (hW.call u op).2 v hi hsp⟩
      · simpa [hu] using hx.task u
    · by_cases hu : u = t
      · subst hu
        have := (hx.called u op').not.mpr (by simp [hready, Task.op?])
        simp [this, Task.op?, eq_comm]
      · simp [hu, hx.called]
    · obtain ⟨op', hop'⟩ := hx.returned u r (by simpa using hr)
      have hu : u ≠ t := by
        rintro rfl
        simp [hready] at hop'
      exact ⟨op', by simpa [hu] using hop'⟩
    · have hut : u ≠ t := by
        rintro rfl
        simp [Task.Ended] at hu
      exact List.mem_append_left _ (hx.ended u (by simpa [hut] using hu))
    · intro a u hp l₁ e l₂ he e' hmem
      rcases precedes_snoc hp with hp | ⟨_, op', hl⟩
      · exact hx.realtime a u hp l₁ e l₂ he e' hmem
      · obtain ⟨rfl, rfl⟩ : t = u ∧ op = op' := by simpa using hl
        exact eventsOf_eq_nil ht.2 e (by simp [he])
  | @act s G T t op a k r s' gs hrun hexec =>
    have ht := hc.task t
    simp only [hrun, TaskOk] at ht
    obtain ⟨v, hg, hv, he, hsp, hw⟩ := ht
    obtain ⟨g', v', m, hk⟩ := ((hW.act _ _ _ _ _ hw).2 t s G g (hx.holds hP hg hv)).2 r s' gs hexec
    obtain ⟨lin', hx'⟩ := hx.move hP he m (τ := .running op (k r)) (by simp [hrun, Task.op?])
      (by simp [hrun, Task.op?]) (by simp [hrun]) .tau (by simp) (by simp) False.elim
      fun es hes => ⟨v', m.guards, m.cons, hes, m.spec.trans hsp, hk⟩
    exact ⟨g', lin', hx'⟩
  | @cut s G T t op a k s' hrun hcut =>
    have ht := hc.task t
    simp only [hrun, TaskOk] at ht
    obtain ⟨v, hg, hv, he, hsp, hw⟩ := ht
    obtain ⟨g', v', m, hk⟩ := (hW.act _ _ _ _ _ hw).1 t s G g (hx.holds hP hg hv) s' hcut
    obtain ⟨lin', hx'⟩ := hx.move hP he m (τ := .unwinding op (M.unwind (G t)))
      (by simp [hrun, Task.op?]) (by simp [hrun, Task.op?]) (by simp [hrun]) (.cut t)
      (by simp) (by simp) (fun _ => .inr rfl) fun es hes =>
        ⟨P.relax v', (P.relax_guards v').trans m.guards, P.relax_cons _ _ _ m.cons,
          (P.relax_events v').trans hes, by
            have hg : P.guards v = G t := hg
            rw [← hg]; exact hk⟩
    have hG : update G t (P.guards v) = G := by
      have hg : P.guards v = G t := hg
      rw [hg, Function.update_eq_self]
    rw [hG] at hx'
    exact ⟨g', lin', hx'⟩
  | @unwind s G T t op a k r s' gs hrun hexec =>
    have ht := hx.task t
    simp only [hrun, TaskOk] at ht
    obtain ⟨v, hg, hv, he, hw⟩ := ht
    obtain ⟨g', v', m, hk⟩ := (hw t s G g (hx.holds hP hg hv)).2 r s' gs hexec
    obtain ⟨lin', hx'⟩ := hx.move hP he m (τ := .unwinding op (k r))
      (by simp [hrun, Task.op?]) (by simp [hrun, Task.op?]) (by simp [hrun]) .tau
      (by simp) (by simp) (fun _ => .inl (by simp [hrun, Task.Ended]))
      fun es hes => ⟨v', m.guards, m.cons, hes, hk⟩
    exact ⟨g', lin', hx'⟩
  | @ret s G T t op r hrun =>
    have ht := hc.task t
    simp only [hrun, TaskOk] at ht
    obtain ⟨v, hg, hv, he, hsp, hw⟩ := ht
    refine ⟨g, lin, ⟨hx.inv, hx.legal, fun u => ?_, fun u op' => ?_, fun u r' hr => ?_,
      fun u hu => ?_, ?_⟩⟩
    · by_cases hu : u = t
      · subst hu
        have hw' : P.Returns accept op r v := hW.ret _ _ _ _ hw
        have hm : P.meets (spec op) (P.events v) := hsp ▸ P.cons_meets _ _ _ hv
        simpa [TaskOk, ← he, ← hg] using ⟨hw'.1, hw'.2, hm⟩
      · simpa [hu] using hx.task u
    · by_cases hu : u = t
      · subst hu
        simp [hx.called, hrun, Task.op?]
      · simp [hu, hx.called]
    · by_cases hu : u = t
      · subst hu
        refine ⟨op, ?_⟩
        have : Label.ret u r' ∉ h := by
          intro hmem
          obtain ⟨op', hop'⟩ := hx.returned u r' hmem
          simp [hrun] at hop'
        have hr' : r' = r := by simpa [this] using hr
        simp [hr']
      · obtain ⟨op', hop'⟩ := hx.returned u r' (by simpa [hu] using hr)
        exact ⟨op', by simpa [hu] using hop'⟩
    · have hut : u ≠ t := by
        rintro rfl
        simp [Task.Ended] at hu
      exact List.mem_append_left _ (hx.ended u (by simpa [hut] using hu))
    · intro a u hp
      rcases precedes_snoc hp with hp | ⟨_, op', hl⟩
      · exact hx.realtime a u hp
      · simp at hl
  | @settled s G T t op hrun =>
    have ht := hx.task t
    simp only [hrun, TaskOk] at ht
    obtain ⟨v, hg, hv, he, hw⟩ := ht
    refine ⟨g, lin, ⟨hx.inv, hx.legal, fun u => ?_, fun u op' => ?_, fun u r' hr => ?_,
      fun u hu => ?_, ?_⟩⟩
    · by_cases hu : u = t
      · subst hu
        have hw' : P.guards v = [] := hw
        simpa [TaskOk, ← hg] using hw'
      · simpa [hu] using hx.task u
    · by_cases hu : u = t
      · subst hu
        simp [hx.called, hrun, Task.op?]
      · simp [hu, hx.called]
    · obtain ⟨op', hop'⟩ := hx.returned u r' (by simpa using hr)
      have hu : u ≠ t := by
        rintro rfl
        simp [hrun] at hop'
      exact ⟨op', by simpa [hu] using hop'⟩
    · by_cases hut : u = t
      · subst hut
        exact List.mem_append_left _ (hx.ended u (by simp [hrun, Task.Ended]))
      · exact List.mem_append_left _ (hx.ended u (by simpa [hut] using hu))
    · intro a u hp
      rcases precedes_snoc hp with hp | ⟨_, op', hl⟩
      · exact hx.realtime a u hp
      · simp at hl

/-- A configuration that a run of verified code reaches. -/
abbrev Explained (P : Protocol M Ev A) (spec : Op → P.Spec) (accept : Op → List Ev → Res → Prop)
    (init : A) (h : List (Label Op Res)) (c : Config M Op Res) (g : P.Ghost)
    (lin : List (Nat × Ev)) : Prop :=
  P.Followed spec accept (fun _ op p v => P.Wp p v (P.Returns accept op)) init h c g lin

theorem Verified.sustained (hcode : P.Verified code spec accept) :
    P.Sustained code spec accept (fun _ op p v => P.Wp p v (P.Returns accept op))
      fun _ op p v => P.Wp p v (P.Returns accept op) where
  call _ op := hcode op
  act _ _ _ _ _ hw := hw
  ret _ _ _ _ hw := hw
  keep _ _ _ _ hw := hw

/-- Every interleaving keeps the invariant and explains its history. -/
theorem Verified.run (hP : ¬ P.alone) (hcode : P.Verified code spec accept) {s₀ : M.Shared}
    (hs : P.inv s₀ (fun _ => []) g) {c : Config M Op Res} (hr : Run M code s₀ h c) :
    ∃ g' lin', P.Explained spec accept (P.state g) h c g' lin' := by
  induction hr with
  | start => exact ⟨g, [], .start hs⟩
  | step _ hstep ih =>
    obtain ⟨g', lin', hx⟩ := ih
    exact hx.step hP hcode.sustained hstep

theorem Followed.accepted {c : Config M Op Res} (hx : P.Followed spec accept W init h c g lin)
    {t : Nat} {op : Op} {r : Res} (hc : .call t op ∈ h) (hr : .ret t r ∈ h) :
    accept op (eventsOf t lin) r := by
  obtain ⟨op', hop'⟩ := hx.returned t r hr
  have ho := (hx.called t op).mp hc
  have ht := hx.task t
  simp only [hop', TaskOk, Task.op?, Option.some.injEq] at ht ho
  exact ho ▸ ht.2.1

/-- A run without panics is linearized. -/
theorem Followed.linearization {c : Config M Op Res}
    (hx : P.Followed spec accept W init h c g lin) (hcut : ∀ t, .cut t ∉ h) :
    Linearization P.step accept (fun op => P.meets (spec op)) init (P.state g) h lin where
  legal := hx.legal
  called x hmem := by
    have ht := hx.task x.1
    cases hT : c.task x.1 with
    | ready =>
      simp only [hT, TaskOk] at ht
      exact absurd hmem (eventsOf_eq_nil ht.2 x.2)
    | running op p => exact ⟨op, (hx.called _ _).mpr (by simp [hT, Task.op?])⟩
    | unwinding op p => exact ⟨op, (hx.called _ _).mpr (by simp [hT, Task.op?])⟩
    | finished op r => exact ⟨op, (hx.called _ _).mpr (by simp [hT, Task.op?])⟩
    | aborted op => exact ⟨op, (hx.called _ _).mpr (by simp [hT, Task.op?])⟩
  accepted _ _ _ hc hr := hx.accepted hc hr
  pending t op hc := by
    have ho := (hx.called t op).mp hc
    have ht := hx.task t
    have hend : ¬ (c.task t).Ended := fun he => hcut t (hx.ended t he)
    cases hT : c.task t with
    | ready => simp [hT, Task.op?] at ho
    | running op' p =>
      simp only [hT, TaskOk, Task.op?, Option.some.injEq] at ht ho
      obtain ⟨v, _, hv, he, hsp, _⟩ := ht
      have hm := P.cons_meets _ _ _ hv
      rwa [hsp, ho, he] at hm
    | unwinding op' p => simp [hT, Task.Ended] at hend
    | finished op' r =>
      simp only [hT, TaskOk, Task.op?, Option.some.injEq] at ht ho
      exact ho ▸ ht.2.2
    | aborted op' => simp [hT, Task.Ended] at hend
  realtime := hx.realtime

theorem Followed.guards_nil {c : Config M Op Res}
    (hx : P.Followed spec accept W init h c g lin)
    (hq : c.Quiescent) : c.guards = fun _ => [] := by
  funext t
  have ht := hx.task t
  have hq := hq t
  cases hT : c.task t with
  | ready => simp only [hT, TaskOk] at ht; exact ht.1
  | running op p => simp [hT] at hq
  | unwinding op p => simp [hT] at hq
  | finished op r => simp only [hT, TaskOk] at ht; exact ht.1
  | aborted op => simpa only [hT, TaskOk] using ht

/-- No running operation is ever stuck, except where it waits for other tasks. -/
theorem Explained.enabled (hP : ¬ P.alone) {c : Config M Op Res}
    (hx : P.Explained spec accept init h c g lin) {t : Nat} {op : Op} {a : Act}
    {k : Resp a → Program Act Resp Res} (hrun : c.task t = .running op (.step a k)) :
    M.blocks a ∨ ∃ r s' gs, M.exec c.guards t a c.shared r s' gs := by
  have ht := hx.task t
  simp only [hrun, TaskOk] at ht
  obtain ⟨v, hg, hv, _, _, hw⟩ := ht
  exact (hw.2 t c.shared c.guards g (hx.holds hP hg hv)).1.imp And.left id

theorem Explained.enabled_unwinding (hP : ¬ P.alone) {c : Config M Op Res}
    (hx : P.Explained spec accept init h c g lin) {t : Nat} {op : Op} {a : Act}
    {k : Resp a → Program Act Resp Unit} (hrun : c.task t = .unwinding op (.step a k)) :
    M.blocks a ∨ ∃ r s' gs, M.exec c.guards t a c.shared r s' gs := by
  have ht := hx.task t
  simp only [hrun, TaskOk] at ht
  obtain ⟨v, hg, hv, _, hw⟩ := ht
  exact (hw t c.shared c.guards g (hx.holds hP hg hv)).1.imp And.left id

variable {α : Type}

/-- A task alone with the state: every execution that ends does so in the postcondition. -/
theorem Wp.exec {p : Program Act Resp α} {v : P.View} {Φ : α → P.View → Prop}
    (hw : P.Wp p v Φ) {s s' : M.Shared} {gs gs' : List M.Guard} {x : α}
    (he : Exec M p s gs x s' gs') (hv : P.Holds 0 v s (solo gs) g) :
    ∃ g' v', P.Holds 0 v' s' (solo gs') g' ∧ Φ x v' ∧
      ∃ es, P.events v' = P.events v ++ es ∧ Replay P.step (P.state g) es (P.state g') := by
  induction he generalizing v g with
  | done => exact ⟨g, v, hv, hw, [], by simp, .nil⟩
  | step hexec _ ih =>
    obtain ⟨g₁, v₁, m, hk⟩ := (hw.2 _ _ _ _ hv).2 _ _ _ hexec
    have hv₁ := m.holds hv
    rw [update_solo] at hv₁
    obtain ⟨g', v', hv', hΦ, es, hes, hr⟩ := ih hk hv₁
    obtain ⟨es₁, hes₁, hr₁⟩ := m.effect
    exact ⟨g', v', hv', hΦ, es₁ ++ es, by rw [hes, hes₁, List.append_assoc], hr₁.append hr⟩

theorem Wp.exec_total (hP : P.alone) {p : Program Act Resp α} {v : P.View}
    {Φ : α → P.View → Prop} (hw : P.Wp p v Φ) {s : M.Shared} {gs : List M.Guard}
    (hv : P.Holds 0 v s (solo gs) g) : ∃ x s' gs', Exec M p s gs x s' gs' := by
  induction p generalizing v s gs g with
  | done x => exact ⟨x, s, gs, .done⟩
  | step a k ih =>
    obtain ⟨hen, hsound⟩ := hw.2 _ _ _ _ hv
    obtain ⟨r, s₁, gs₁, hexec⟩ := hen.resolve_left fun h => h.2 hP
    obtain ⟨g₁, v₁, m, hk⟩ := hsound r s₁ gs₁ hexec
    have hv₁ := m.holds hv
    rw [update_solo] at hv₁
    obtain ⟨x, s', gs', he⟩ := ih r hk hv₁
    exact ⟨x, s', gs', .step hexec he⟩

end Protocol
end Concurrent
