import Starshard.Proof.Directory

/-! Points at which a call may end early, and why dropping its guards is enough.

An open mutation accounts for its shard when it is dropped; everything else is
accounted for already. Contents that were changed but not committed may be torn,
for they have been published, or will be when the mutation is dropped. -/
namespace Starshard

open Data Concurrent
open Function (update)

section Guards

variable {K V : Type} {gs : Guards K V}

/-- No mutation is open. -/
def Closed (gs : Guards K V) : Prop := ∀ id, Guard.opened gs id = none

/-- An order in which the guards can be dropped. -/
def Ordered : Guards K V → Prop
  | [] => True
  | .lock l _ :: gs =>
      (l = .routing → ∀ l', l'.inner → ¬ Owns gs l') ∧ Closed gs ∧ Ordered gs
  | .mutation id _ _ :: gs => OwnsExcl gs (.shard id) ∧ Pinned gs ∧ Closed gs ∧ Ordered gs
  | _ :: gs => Ordered gs

namespace Guard

/-- The guard is neither a lock nor an open mutation. -/
def isPlain : Guard K V → Bool
  | .lock _ _ | .mutation _ _ _ => false
  | _ => true

theorem local_of_plain {x : Guard K V} (h : x.isPlain) : x.isLocal := by
  cases x <;> first | rfl | cases h

theorem opened_plain {x : Guard K V} (h : x.isPlain) (id : Nat) :
    opened (x :: gs) id = opened gs id := by
  cases x <;> first | rfl | cases h

@[simp] theorem opened_lock (l : LockId) (m : Mode) (id : Nat) :
    opened (.lock l m :: gs) id = opened gs id := rfl

@[simp] theorem opened_nil (id : Nat) : opened ([] : Guards K V) id = none := rfl

theorem opened_mutation (id n : Nat) (c : Bool) (id' : Nat) :
    opened (.mutation id n c :: gs) id' = if id = id' then some (n, c) else opened gs id' := by
  simp only [opened, List.findSome?_cons, opened?]
  by_cases h : id = id' <;> simp [h]

end Guard

@[simp] theorem Guard.opened_map_mark (id id' : Nat) : opened (gs.map (mark id)) id' =
    (opened gs id').map fun m => (m.1, m.2 || decide (id' = id)) := by
  induction gs with
  | nil => rfl
  | cons x gs ih =>
    cases x with
    | mutation j n c =>
      rw [List.map_cons, mark, opened_mutation, opened_mutation, ih]
      by_cases hj : j = id'
      · subst hj
        simp
      · simp [hj]
    | _ => exact ih

theorem Guard.isLocal_mark (id : Nat) (x : Guard K V) (h : x.isLocal) : (x.mark id).isLocal := by
  cases x <;> exact h

theorem SameLocks.mark (id : Nat) : SameLocks gs (gs.map (Guard.mark id)) :=
  .map (Guard.isLocal_mark id) fun _ _ => rfl

theorem Closed.mark (h : Closed gs) (id : Nat) : Closed (gs.map (Guard.mark id)) := fun id' => by
  rw [Guard.opened_map_mark, h id']
  rfl

theorem Closed.map_mark (h : Closed gs) (id : Nat) : gs.map (Guard.mark id) = gs := by
  induction gs with
  | nil => rfl
  | cons x gs ih =>
    cases x with
    | mutation j n c =>
      have := h j
      rw [Guard.opened_mutation, if_pos rfl] at this
      cases this
    | _ => exact congrArg _ (ih h)

theorem Ordered.mark (h : Ordered gs) (id : Nat) : Ordered (gs.map (Guard.mark id)) := by
  induction gs with
  | nil => trivial
  | cons x gs ih =>
    cases x with
    | lock l m =>
      exact ⟨fun hl l' hl' ho => h.1 hl l' hl' (((SameLocks.mark id).owns _).mp ho),
        h.2.1.mark id, ih h.2.2⟩
    | mutation j n c =>
      exact ⟨((SameLocks.mark id).ownsExcl _).mpr h.1, (SameLocks.mark id).pinned.mpr h.2.1,
        h.2.2.1.mark id, ih h.2.2.2⟩
    | _ => exact ih h

theorem Ordered.plain {x : Guard K V} (hx : x.isPlain) : Ordered (x :: gs) ↔ Ordered gs := by
  cases x <;> first | exact Iff.rfl | cases hx

/-- A mutation is open only while its shard is locked. -/
theorem Ordered.opened (h : Ordered gs) {id : Nat} {m : Nat × Bool}
    (hm : Guard.opened gs id = some m) : OwnsExcl gs (.shard id) ∧ Pinned gs := by
  induction gs with
  | nil => cases hm
  | cons x gs ih =>
    have hlift : OwnsExcl gs (.shard id) ∧ Pinned gs →
        OwnsExcl (x :: gs) (.shard id) ∧ Pinned (x :: gs) := fun ⟨h₁, h₂⟩ =>
      ⟨List.mem_cons_of_mem _ h₁, List.mem_cons_of_mem _ h₂⟩
    cases x with
    | lock l m' => exact hlift (ih h.2.2 hm)
    | mutation id' n c =>
      rw [Guard.opened_mutation] at hm
      split at hm
      · next heq => exact hlift (heq ▸ ⟨h.1, h.2.1⟩)
      · exact hlift (ih h.2.2.2 hm)
    | _ => exact hlift (ih h hm)

end Guards

variable {K V : Type} [DecidableEq K]

section Settled

variable {E : Type}

/-- The call may end here. -/
structure Settled (hash : K → Nat) (v : View K V E) : Prop where
  ordered : Ordered v.gs
  inner : ∀ l, l.inner → Owns v.gs l → Owns v.gs .routing
  single : Pinned v.gs → ¬ Exclusive v.gs
  wellFormed : Owns v.gs .routing → v.st.WellFormed hash
  total : Exclusive v.gs →
    v.st.totalLen = (v.st.live.map fun id => (v.st.heap id).size).sum
  data : Exclusive v.gs → (∀ k, v.abs k = v.st.contents hash k) ∨ v.fresh
  acc : Pinned v.gs → ∀ id, Owns v.gs (.shard id) → Guard.opened v.gs id = none →
    v.acc id = (v.st.heap id).size
  mutation : ∀ id m, Guard.opened v.gs id = some m →
    v.acc id = m.1 ∧ ∃ i : Nat, v.st.shards[i]? = some (some id)
  keys : Pinned v.gs → ∀ k, Reads hash v.gs v.st k → v.abs k = v.st.contents hash k ∨
    (Writes hash v.gs v.st k ∧ (v.fresh ∨ ∃ id m, v.st.home hash k = some id ∧
      Guard.opened v.gs id = some m ∧ (m.2 ∨ (v.st.heap id).size ≠ m.1)))

/-- Locks and plain guards that leave the map locks in order. -/
structure Stack (gs : Guards K V) : Prop where
  ordered : Ordered gs
  closed : Closed gs
  inner : ∀ l, l.inner → Owns gs l → Owns gs .routing
  single : Pinned gs → ¬ Exclusive gs

variable {hash : K → Nat} {v v' : View K V E}

omit [DecidableEq K] in
theorem Stack.tail {l : LockId} {m : Mode} {gs : Guards K V} (h : Stack (.lock l m :: gs)) :
    Stack gs where
  ordered := h.ordered.2.2
  closed := h.ordered.2.1
  inner l' hl' := fun ⟨n, hn⟩ => by
    have hr := h.inner l' hl' ⟨n, List.mem_cons_of_mem _ hn⟩
    refine ((owns_lock _ _ _ _).mp hr).resolve_left fun hl => ?_
    exact h.ordered.1 hl.symm l' hl' ⟨n, hn⟩
  single hp hx := h.single (List.mem_cons_of_mem _ hp) (List.mem_cons_of_mem _ hx)

theorem Clean.mono {gs gs' : Guards K V} {w : World K V E} (h : Clean hash gs w)
    (hg : ∀ l m, Guard.lock l m ∈ gs' → Guard.lock l m ∈ gs) : Clean hash gs' w where
  wellFormed := fun ⟨m, hm⟩ => h.wellFormed ⟨m, hg _ _ hm⟩
  total hx := h.total (hg _ _ hx)
  acc id hid := h.acc id (hid.imp (hg _ _) fun ⟨m, hm⟩ => ⟨m, hg _ _ hm⟩)
  contents k hk := h.contents k (hk.mono hg)

theorem Clean.settled (hc : Clean hash v.gs v.toWorld) (hs : Stack v.gs) : Settled hash v where
  ordered := hs.ordered
  inner := hs.inner
  single := hs.single
  wellFormed := hc.wellFormed
  total hx := by
    rw [hc.total hx]
    congr 1
    exact List.map_congr_left fun id _ => hc.acc id (.inl hx)
  data hx := .inl fun k => hc.contents k (.inl hx)
  acc _ id ho _ := hc.acc id (.inr ho)
  mutation id m hm := by
    rw [hs.closed id] at hm
    cases hm
  keys _ k hk := .inl (hc.contents k hk)

theorem Settled.stack (h : Settled hash v) (hc : Closed v.gs) : Stack v.gs :=
  ⟨h.ordered, hc, h.inner, h.single⟩

theorem Settled.frame (h : Settled hash v) (hs : State.SameTables v.st v'.st)
    (htot : Exclusive v.gs → v'.st.totalLen = v.st.totalLen) (hg : v'.gs = v.gs)
    (habs : v'.abs = v.abs) (hacc : v'.acc = v.acc) (hf : v.fresh → v'.fresh) :
    Settled hash v' where
  ordered := hg ▸ h.ordered
  inner := hg ▸ h.inner
  single := hg ▸ h.single
  wellFormed hr := hs.wellFormed (h.wellFormed (hg ▸ hr))
  total hx := by
    rw [hg] at hx
    rw [htot hx, h.total hx, hs.live, hs.heap]
  data hx := by
    rw [hg] at hx
    refine (h.data hx).imp (fun h k => ?_) hf
    rw [habs, hs.contents]
    exact h k
  acc hp id ho hm := by
    rw [hg] at hp ho hm
    rw [hacc, hs.heap]
    exact h.acc hp id ho hm
  mutation id m hm := by
    rw [hg] at hm
    rw [hacc, hs.shards]
    exact h.mutation id m hm
  keys hp k hk := by
    rw [hg] at hp hk
    have hk : Reads hash v.gs v.st k := by
      unfold Reads at hk ⊢
      rwa [hs.home] at hk
    rw [habs, hs.contents, hs.home, hs.heap, hg]
    refine (h.keys hp k hk).imp_right fun ⟨hw, hd⟩ => ⟨?_, hd.imp_left hf⟩
    unfold Writes at hw ⊢
    rwa [hs.home]

theorem Settled.regard {gs : Guards K V} (h : Settled hash v) (hl : SameLocks v.gs gs)
    (ho : Ordered gs) (hm : ∀ id, Guard.opened gs id = Guard.opened v.gs id) :
    Settled hash { v with gs := gs } where
  ordered := ho
  inner l hi hl' := (hl.owns _).mpr (h.inner l hi ((hl.owns _).mp hl'))
  single hp hx := h.single (hl.pinned.mp hp) (hl.exclusive.mp hx)
  wellFormed hr := h.wellFormed ((hl.owns _).mp hr)
  total hx := h.total (hl.exclusive.mp hx)
  data hx := h.data (hl.exclusive.mp hx)
  acc hp id ho hn := h.acc (hl.pinned.mp hp) id ((hl.owns _).mp ho) (hm id ▸ hn)
  mutation id m hn := h.mutation id m (hm id ▸ hn)
  keys hp k hk := by
    refine (h.keys (hl.pinned.mp hp) k ((Reads.congr hl).mp hk)).imp_right fun ⟨hw, hd⟩ =>
      ⟨(Writes.congr hl).mpr hw, hd.imp_right ?_⟩
    rintro ⟨id, m, h₁, h₂, h₃⟩
    exact ⟨id, m, h₁, (hm id).trans h₂, h₃⟩

theorem Settled.mark (h : Settled hash v) (id : Nat) :
    Settled hash { v with gs := v.gs.map (Guard.mark id) } where
  ordered := h.ordered.mark id
  inner l hi ho := by
    have hl : SameLocks v.gs (v.gs.map (Guard.mark id)) := SameLocks.mark id
    exact (hl.owns _).mpr (h.inner l hi ((hl.owns _).mp ho))
  single hp hx := h.single ((SameLocks.mark id).pinned.mp hp) ((SameLocks.mark id).exclusive.mp hx)
  wellFormed hr := h.wellFormed (((SameLocks.mark id).owns _).mp hr)
  total hx := h.total ((SameLocks.mark id).exclusive.mp hx)
  data hx := h.data ((SameLocks.mark id).exclusive.mp hx)
  acc hp id' ho hn := by
    refine h.acc ((SameLocks.mark id).pinned.mp hp) id' (((SameLocks.mark id).owns _).mp ho) ?_
    rwa [Guard.opened_map_mark, Option.map_eq_none_iff] at hn
  mutation id' m hm := by
    rw [Guard.opened_map_mark, Option.map_eq_some_iff] at hm
    obtain ⟨m', hm', rfl⟩ := hm
    exact h.mutation id' m' hm'
  keys hp k hk := by
    have hl : SameLocks v.gs (v.gs.map (Guard.mark id)) := SameLocks.mark id
    refine (h.keys (hl.pinned.mp hp) k ((Reads.congr hl).mp hk)).imp_right fun ⟨hw, hd⟩ =>
      ⟨(Writes.congr hl).mpr hw, hd.imp_right ?_⟩
    rintro ⟨id', m, h₁, h₂, h₃⟩
    refine ⟨id', (m.1, m.2 || decide (id' = id)), h₁, ?_, h₃.imp_left fun h => by simp [h]⟩
    rw [Guard.opened_map_mark, h₂]
    rfl

theorem Settled.opened {id n : Nat} (h : Settled hash v) (hc : Closed v.gs)
    (ho : OwnsExcl v.gs (.shard id)) (hp : Pinned v.gs)
    (hi : ∃ i : Nat, v.st.shards[i]? = some (some id)) (hn : n = (v.st.heap id).size) :
    Settled hash { v with gs := .mutation id n false :: v.gs } where
  ordered := ⟨ho, hp, hc, h.ordered⟩
  inner l hl ho := by
    have hg : SameLocks v.gs (.mutation id n false :: v.gs) := SameLocks.cons rfl
    exact (hg.owns _).mpr (h.inner l hl ((hg.owns _).mp ho))
  single hp' hx := h.single hp (by simpa [Exclusive] using hx)
  wellFormed _ := h.wellFormed hp.owns
  total hx := h.total (by simpa [Exclusive] using hx)
  data hx := h.data (by simpa [Exclusive] using hx)
  acc _ id' ho' hm := by
    rw [Guard.opened_mutation] at hm
    have hne : id ≠ id' := by
      rintro rfl
      simp at hm
    refine h.acc hp id' ?_ (hc id')
    exact ((SameLocks.cons (g := .mutation id n false) rfl).owns _).mp ho'
  mutation id' m hm := by
    rw [Guard.opened_mutation] at hm
    split at hm
    · next heq =>
      cases hm
      subst heq
      exact ⟨(h.acc hp id ho.owns (hc id)).trans hn.symm, hi⟩
    · rw [hc id'] at hm
      cases hm
  keys _ k hk := by
    have hg : SameLocks v.gs (.mutation id n false :: v.gs) := SameLocks.cons rfl
    refine (h.keys hp k ((Reads.congr hg).mp hk)).imp_right fun hk =>
      ⟨(Writes.congr hg).mpr hk.1, .inl (hk.2.resolve_right ?_)⟩
    rintro ⟨id', m, -, hm, -⟩
    rw [hc id'] at hm
    cases hm

theorem Settled.push {x : Guard K V} (h : Settled hash v) (hx : x.isPlain) :
    Settled hash { v with gs := x :: v.gs } :=
  h.regard (.cons (Guard.local_of_plain hx)) ((Ordered.plain hx).mpr h.ordered) (Guard.opened_plain hx)

theorem Settled.pop {x : Guard K V} {gs : Guards K V} (h : Settled hash v) (hx : x.isPlain)
    (hgs : v.gs = x :: gs) : Settled hash { v with gs := gs } := by
  refine h.regard (fun l m => ?_) ((Ordered.plain hx).mp (hgs ▸ h.ordered)) fun id => ?_
  · rw [hgs]
    exact ((SameLocks.cons (Guard.local_of_plain hx)) l m).symm
  · rw [hgs, Guard.opened_plain hx]

end Settled

variable {env : Env K V} {L : Lifecycle K V} {alone : Prop} {v : View K V L.State}

/-- What was published without being committed is torn. -/
theorem Settled.tear (h : Settled env.hash v) (hc : Closed v.gs)
    (hspec : ∀ e : Event K V, v.spec (visible v.evs ++ [e])) {Ψ : View K V L.State → Prop}
    (hΨ : ∀ v', Clean env.hash v'.gs v'.toWorld → v'.gs = v.gs → v'.spec = v.spec → Ψ v') :
    (protocol env L alone).Shift v Ψ := by
  by_cases hx : Exclusive v.gs
  · refine Protocol.Shift.trans (shift_acc hx (fun id => (v.st.heap id).size) ?_)
    refine shift_emit (v := { v with acc := fun id => (v.st.heap id).size })
      (e := .torn fun _ => True) rfl (fun k _ => .inl hx)
      (c := v.st.contents env.hash) (fun k hk => absurd trivial hk) (fun k _ => ?_)
      (hspec _) fun abs habs => ?_
    · exact (h.data hx).imp (fun h => (h k).symm) fun h => ⟨.inl hx, h⟩
    · refine hΨ _ ⟨h.wellFormed, h.total, fun _ _ => rfl, fun k hk => habs k (.inl hx)⟩ rfl rfl
  · by_cases hp : Pinned v.gs
    · classical
      refine shift_emit (e := .torn fun k => Writes env.hash v.gs v.st k) rfl
        (fun k hk => Writes.reads hk)
        (c := fun k => if Reads env.hash v.gs v.st k then v.st.contents env.hash k else v.abs k)
        (fun k hk => ?_) (fun k hk => ?_) (hspec _) fun abs habs => ?_
      · have hk : ¬ Writes env.hash v.gs v.st k := hk
        by_cases hr : Reads env.hash v.gs v.st k
        · exact (if_pos hr).trans ((h.keys hp k hr).resolve_right fun h => hk h.1).symm
        · exact if_neg hr
      · rw [if_pos hk]
        refine (h.keys hp k hk).imp Eq.symm fun ⟨hw, hd⟩ => ⟨hw, hd.resolve_right ?_⟩
        rintro ⟨id, m, -, hm, -⟩
        rw [hc id] at hm
        cases hm
      · refine hΨ _ ⟨h.wellFormed, fun hx' => absurd hx' hx, fun id hid => ?_, fun k hk => ?_⟩
          rfl rfl
        · exact h.acc hp id (hid.resolve_left hx) (hc id)
        · show abs k = v.st.contents env.hash k
          rw [habs k hk, if_pos hk]
    · have hr : ¬ Owns v.gs .routing := fun hr => (owns_routing.mp hr).elim hp hx
      intro t s G g hv
      refine ⟨g, v, moves_refl hv, hΨ v ⟨fun h => absurd h hr, fun h => absurd h hx,
        fun id hid => ?_, fun k hk => absurd hk.routing hr⟩ rfl rfl⟩
      exact absurd (hid.elim Exclusive.owns (h.inner _ rfl)) hr

end Starshard
