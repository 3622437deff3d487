import Starshard.Proof.Session

/-! Points between locked sections, where everything is committed. -/
namespace Starshard

open Data Concurrent
open Function (update)

variable {K V : Type} [DecidableEq K] {env : Env K V} {L : Lifecycle K V} {alone : Prop}
  {v v' v'' : View K V L.State} {α : Type} {Φ : α → View K V L.State → Prop}

/-- Everything is committed; the caller knows of the events `ds`, and counted `cs`.
Nothing was published unless one of the events changed an entry. -/
structure Calm (env : Env K V) (sp : List (Event K V) → Prop) (gs : Guards K V)
    (ds : List (Event K V)) (cs : List Metric) (v : View K V L.State) : Prop where
  clean : Clean env.hash v.gs v.toWorld
  stack : Stack v.gs
  guards : v.gs = gs
  spec : v.spec = sp
  visible : visible v.evs = ds
  counted : counted v.evs = cs
  quiet : .publish ∈ v.evs → ∃ e ∈ ds, e.changes

/-- What an action that keeps the locks leaves to rely on. -/
def Keeps (env : Env K V) (gs : Guards K V) (v v' : View K V L.State) : Prop :=
  Agree env.hash gs v.toWorld v'.toWorld

namespace Calm

variable {sp : List (Event K V) → Prop} {gs gs' : Guards K V} {ds : List (Event K V)}
  {cs cs' : List Metric}

theorem settled (h : Calm env sp gs ds cs v) : Settled env.hash v := h.clean.settled h.stack

theorem closed (h : Calm env sp gs ds cs v) : Closed gs := h.guards ▸ h.stack.closed

theorem wellFormed (h : Calm env sp gs ds cs v) (hr : Owns gs .routing) :
    v.st.WellFormed env.hash := h.clean.wellFormed (h.guards ▸ hr)

theorem aside (h : Calm env sp gs ds cs v) (ha : Aside env v gs' cs' v')
    (hl : SameLocks gs gs') (hc : Closed gs') : Calm env sp gs' ds (cs ++ cs') v' where
  clean := by
    have hl' : ∀ l m, Guard.lock l m ∈ v'.gs → Guard.lock l m ∈ v.gs := by
      rw [ha.guards, h.guards]
      exact fun l m => (hl l m).mp
    have hclean := h.clean.mono hl'
    refine ⟨fun hr => ha.core.tables.wellFormed (hclean.wellFormed hr), fun hx => ?_,
      fun id hid => ?_, fun k hk => ?_⟩
    · rw [ha.core.totalLen, ha.core.tables.live, ha.acc]
      exact hclean.total hx
    · rw [ha.acc, ha.core.heap]
      exact hclean.acc id hid
    · rw [ha.abs, ha.core.tables.contents]
      refine hclean.contents k ?_
      unfold Reads at hk ⊢
      rwa [ha.core.tables.home] at hk
  stack := ha.settled.stack (ha.guards ▸ hc)
  guards := ha.guards
  spec := ha.spec.trans h.spec
  visible := ha.visible.trans h.visible
  counted := by rw [ha.counted, h.counted]
  quiet hp := h.quiet (ha.published hp)

theorem aside_same (h : Calm env sp gs ds cs v) (ha : Aside env v v.gs cs' v') :
    Calm env sp gs ds (cs ++ cs') v' :=
  h.aside (h.guards ▸ ha) (.refl _) h.closed

theorem of_edit {v₀ : View K V L.State} (h₀ : Calm env sp gs ds cs v₀) {P : K → Prop}
    (hp : Pinned gs) (h : Edit env v₀ gs (v₀.st.contents env.hash) P cs' false v) :
    Calm env sp gs ds (cs ++ cs') v where
  clean := by
    have hpv : Pinned v.gs := h.guards.symm ▸ hp
    have hc : Closed v.gs := h.guards.symm ▸ h₀.closed
    refine ⟨h.settled.wellFormed, fun hx => absurd hx (h.settled.single hpv), fun id hid => ?_,
      fun k hk => ?_⟩
    · exact h.settled.acc hpv id (hid.resolve_left (h.settled.single hpv)) (hc id)
    · rw [h.abs, h.contents]
      refine h₀.clean.contents k ?_
      rw [h.guards, ← h₀.guards] at hk
      unfold Reads at hk ⊢
      rwa [h.home] at hk
  stack := h.settled.stack (h.guards.symm ▸ h₀.closed)
  guards := h.guards
  spec := h.spec.trans h₀.spec
  visible := h.visible.trans h₀.visible
  counted := by rw [h.counted, h₀.counted]
  quiet hp := h₀.quiet ((h.quiet rfl).1 hp)

end Calm

section Locks

variable {sp : List (Event K V) → Prop} {gs : Guards K V} {ds : List (Event K V)}
  {cs : List Metric} {l : LockId} {m : Mode} {f : Unit → Prog K V α}

omit [DecidableEq K] in
theorem Stack.lock (h : Stack gs) (hin : l.inner → Owns gs .routing)
    (hfree : ∀ x ∈ gs, ¬ x.excludes l m) (hroute : l = .routing → ∀ l', l'.inner → ¬ Owns gs l') :
    Stack (.lock l m :: gs) where
  ordered := ⟨hroute, h.closed, h.ordered⟩
  closed := h.closed
  inner l' hl' ho := by
    rcases (owns_lock _ _ _ _).mp ho with rfl | ho
    · exact (owns_lock _ _ _ _).mpr (.inr (hin hl'))
    · exact (owns_lock _ _ _ _).mpr (.inr (h.inner l' hl' ho))
  single hp hx := by
    rcases (pinned_lock _ _ _).mp hp with ⟨rfl, rfl⟩ | hp'
    · rcases (exclusive_lock _ _ _).mp hx with ⟨-, h⟩ | hx'
      · cases h
      · exact hfree _ hx' (by simp [Guard.excludes])
    · rcases (exclusive_lock _ _ _).mp hx with ⟨rfl, rfl⟩ | hx'
      · exact hfree _ hp' (by simp [Guard.excludes])
      · exact h.single hp' hx'

theorem wp_lock_calm (h : Calm env sp gs ds cs v) (hin : l.inner → Owns gs .routing)
    (hfree : ∀ x ∈ gs, ¬ x.excludes l m) (hroute : l = .routing → ∀ l', l'.inner → ¬ Owns gs l')
    (hroot : ∀ id, l = .shard id → Pinned gs → id ∈ v.st.live)
    (hΦ : ∀ v', Calm env sp (.lock l m :: gs) ds cs v' → Keeps env gs v v' →
      (alone → v'.toWorld = v.toWorld) → (protocol env L alone).Wp (f ()) v' Φ) :
    (protocol env L alone).Wp (act (.lock l m) >>= f) v Φ := by
  obtain ⟨hc, hs, rfl, hsp, hv, hcs, hq⟩ := h
  refine wp_lock hc hs hin hfree hroot fun w hw hcw hal => hΦ _ ?_ hw hal
  exact ⟨hcw, hs.lock hin hfree hroute, rfl, hsp, hv, hcs, hq⟩

omit [DecidableEq K] in
theorem Ordered.without (h : Ordered gs) (hc : Closed gs) (l : LockId) :
    Ordered (without gs l) ∧ Closed (without gs l) := by
  have hclosed : ∀ gs : Guards K V, Closed gs → Closed (Starshard.without gs l) := by
    intro gs hc id
    rw [Guard.opened, List.findSome?_eq_none_iff]
    intro x hx
    exact List.findSome?_eq_none_iff.mp (hc id) x (mem_of_mem_erase hx)
  refine ⟨?_, hclosed gs hc⟩
  induction gs with
  | nil => trivial
  | cons x gs ih =>
    have hcg : Closed gs := fun id => List.findSome?_eq_none_iff.mpr fun y hy =>
      List.findSome?_eq_none_iff.mp (hc id) y (List.mem_cons_of_mem _ hy)
    rw [Starshard.without, List.eraseP_cons]
    cases x with
    | lock l' m' =>
      by_cases hl : l' = l
      · simp only [Guard.holds, hl, decide_true, cond_true]
        exact h.2.2
      · simp only [Guard.holds, hl, decide_false, cond_false]
        refine ⟨fun hr l'' hl'' ho => h.1 hr l'' hl'' ?_, hclosed gs hcg, ih h.2.2 hcg⟩
        obtain ⟨n, hn⟩ := ho
        exact ⟨n, mem_of_mem_erase hn⟩
    | mutation id n c =>
      have := hc id
      rw [Guard.opened_mutation, if_pos rfl] at this
      cases this
    | _ => exact ih h hcg

omit [DecidableEq K] in
theorem Stack.without (h : Stack gs) (hr : l = .routing → ∀ l', l'.inner → ¬ Owns gs l') :
    Stack (without gs l) where
  ordered := (h.ordered.without h.closed l).1
  closed := (h.ordered.without h.closed l).2
  inner l' hl' := fun ⟨n, hn⟩ => by
    have ho : Owns gs l' := ⟨n, mem_of_mem_erase hn⟩
    obtain ⟨n', hn'⟩ := h.inner l' hl' ho
    exact ⟨n', (mem_erase_lock fun hl => hr hl.symm l' hl' ho).mpr hn'⟩
  single hp hx := h.single (mem_of_mem_erase hp) (mem_of_mem_erase hx)

theorem wp_unlock_calm (h : Calm env sp gs ds cs v)
    (hr : l = .routing → ∀ l', l'.inner → ¬ Owns gs l')
    (hΦ : ∀ v', Calm env sp (without gs l) ds cs v' → v'.toWorld = v.toWorld →
      v'.known = v.known → (protocol env L alone).Wp (f ()) v' Φ) :
    (protocol env L alone).Wp (act (.unlock l) >>= f) v Φ := by
  obtain ⟨hc, hs, rfl, hsp, hv, hcs, hq⟩ := h
  refine wp_quiet rfl (rule_unlock_clean hc (fun hl l' hl' => fun ⟨n, hn⟩ =>
    hr hl l' hl' ⟨n, mem_of_mem_erase hn⟩) (hΦ _ ?_ rfl rfl))
  exact ⟨hc.mono fun _ _ => mem_of_mem_erase, hs.without hr, rfl, hsp, hv, hcs, hq⟩

end Locks

section Asides

variable {sp : List (Event K V) → Prop} {gs : Guards K V} {ds : List (Event K V)}
  {cs : List Metric}

omit [DecidableEq K] in
theorem Closed.plain {x : Guard K V} (hx : x.isPlain) : Closed (x :: gs) ↔ Closed gs := by
  simp only [Closed, Guard.opened_plain hx]

namespace Calm

theorem wp_call (h : Calm env sp gs ds cs v) {c : LifeCall K V} {f : c.Reply → Prog K V α}
    (hΦ : ∀ r v', Calm env sp gs ds cs v' → State.SameCore v.st v'.st →
      (protocol env L alone).Wp (f r) v' Φ) :
    (protocol env L alone).Wp (act (.life c) >>= f) v Φ := by
  refine Starshard.wp_call h.settled fun r v' ha => hΦ r v' ?_ ha.core
  simpa using h.aside_same ha

theorem wp_count (h : Calm env sp gs ds cs v) {m : Metric} {f : Unit → Prog K V α}
    (hΦ : ∀ v', Calm env sp gs ds (cs ++ [m]) v' → State.SameCore v.st v'.st →
      (protocol env L alone).Wp (f ()) v' Φ) :
    (protocol env L alone).Wp (act (.count m) >>= f) v Φ :=
  Starshard.wp_count h.settled fun v' ha => hΦ v' (h.aside_same ha) ha.core

theorem push {x : Guard K V} {v' : View K V L.State} (h : Calm env sp gs ds cs v)
    (hx : x.isPlain) (ha : Aside env v (x :: v.gs) [] v') : Calm env sp (x :: gs) ds cs v' := by
  have := h.aside (h.guards ▸ ha) (.cons (Guard.local_of_plain hx)) ((Closed.plain hx).mpr h.closed)
  simpa using this

theorem pop {x : Guard K V} {v' : View K V L.State} (h : Calm env sp (x :: gs) ds cs v)
    (hx : x.isPlain) (ha : Aside env v gs [] v') : Calm env sp gs ds cs v' := by
  have hl : SameLocks (x :: gs) gs := fun l m => by
    rw [List.mem_cons, or_iff_right]
    rintro rfl
    cases hx
  simpa using h.aside ha hl ((Closed.plain hx).mp h.closed)

theorem wp_push (h : Calm env sp gs ds cs v) {x : Guard K V} (hx : x.isPlain)
    {f : Unit → Prog K V α} (hΦ : ∀ v', Calm env sp (x :: gs) ds cs v' →
      State.SameCore v.st v'.st → (protocol env L alone).Wp (f ()) v' Φ) :
    (protocol env L alone).Wp (act (.push x) >>= f) v Φ :=
  Starshard.wp_push h.settled hx fun v' ha => hΦ v' (h.push hx ha) ha.core

theorem wp_pop {x : Guard K V} (h : Calm env sp (x :: gs) ds cs v) (hx : x.isPlain)
    {f : Unit → Prog K V α} (hΦ : ∀ v', Calm env sp gs ds cs v' → State.SameCore v.st v'.st →
      (protocol env L alone).Wp (f ()) v' Φ) :
    (protocol env L alone).Wp (act .pop >>= f) v Φ :=
  Starshard.wp_pop h.settled hx h.guards fun v' ha => hΦ v' (h.pop hx ha) ha.core

theorem wp_mutation (h : Calm env sp gs ds cs v) :
    (protocol env L alone).Wp LifecycleState.mutation v fun _ v' =>
      Calm env sp (.ticket :: gs) ds cs v' ∧ State.SameCore v.st v'.st :=
  (Starshard.wp_mutation h.settled).mono fun _ _ ha => ⟨h.push rfl ha, ha.core⟩

theorem wp_finish (h : Calm env sp (.ticket :: gs) ds cs v) :
    (protocol env L alone).Wp LifecycleState.finish v fun _ v' =>
      Calm env sp gs ds cs v' ∧ State.SameCore v.st v'.st :=
  (Starshard.wp_finish h.settled h.guards).mono fun _ _ ha => ⟨h.pop rfl ha, ha.core⟩

theorem wp_recordRead (h : Calm env sp gs ds cs v) (k : K) (hit : Bool) :
    (protocol env L alone).Wp (LifecycleState.recordRead (V := V) k hit) v fun _ v' =>
      Calm env sp gs ds (cs ++ readCounts hit) v' ∧ State.SameCore v.st v'.st :=
  (Starshard.wp_recordRead h.settled k hit).mono fun _ _ ha => ⟨h.aside_same ha, ha.core⟩

theorem wp_trackedRead {R : Type} (h : Calm env sp gs ds cs v) (k : K) (value : Option V)
    (read : V → R) : (protocol env L alone).Wp (Sync.trackedRead k value read) v fun r v' =>
      r = value.map read ∧ Calm env sp gs ds (cs ++ readCounts value.isSome) v' ∧
        State.SameCore v.st v'.st := by
  refine Protocol.Wp.bind ((h.wp_recordRead k value.isSome).mono fun _ v₁ ⟨h₁, hs⟩ => ?_)
  exact wp_user h₁.settled ⟨rfl, h₁, hs⟩

end Calm
end Asides

end Starshard
