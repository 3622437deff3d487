import Starshard.Proof.Contents
import Starshard.Proof.Single

/-! Editing the whole map under exclusive routing. Entries are dropped one by one;
the events that describe the result are committed before routing is released. -/
namespace Starshard

open Data Concurrent
open Function (update)

variable {K V : Type} [DecidableEq K] {env : Env K V} {L : Lifecycle K V} {alone : Prop}
  {v v' v₀ : View K V L.State} {α : Type} {Φ : α → View K V L.State → Prop}
  {sp : List (Event K V) → Prop} {gs gs' : Guards K V} {ds es : List (Event K V)}
  {cs cs' cs'' : List Metric} {c : Contents K V} {touched : Bool} {k : K} {id : Nat}

/-- A task that owns the whole map of `v₀` and left the contents `c`. -/
structure Whole (env : Env K V) (v₀ : View K V L.State) (gs : Guards K V) (c : Contents K V)
    (cs : List Metric) (touched : Bool) (v : View K V L.State) : Prop where
  stack : Stack gs
  exclusive : Exclusive gs
  guards : v.gs = gs
  wellFormed : v.st.WellFormed env.hash
  total : v.st.totalLen = (v.st.live.map fun id => (v.st.heap id).size).sum
  live : v.st.live = v₀.st.live
  abs : v.abs = v₀.abs
  spec : v.spec = v₀.spec
  contents : v.st.contents env.hash = c
  visible : visible v.evs = visible v₀.evs
  counted : counted v.evs = counted v₀.evs ++ cs
  quiet : touched = false → c = v₀.abs ∧ (Event.publish ∈ v.evs → Event.publish ∈ v₀.evs)
  fresh : touched → v.fresh

namespace Whole

theorem start (h : Calm env sp gs ds cs v) (hx : Exclusive gs) :
    Whole env v gs (v.st.contents env.hash) [] false v where
  stack := h.guards ▸ h.stack
  exclusive := hx
  guards := h.guards
  wellFormed := h.wellFormed hx.owns
  total := h.settled.total (h.guards ▸ hx)
  live := rfl
  abs := rfl
  spec := rfl
  contents := rfl
  visible := rfl
  counted := (List.append_nil _).symm
  quiet _ := ⟨funext fun k => (h.clean.contents k (.inl (h.guards ▸ hx))).symm, id⟩
  fresh := nofun

theorem owned (h : Whole env v₀ gs c cs touched v) : Exclusive v.gs := h.guards ▸ h.exclusive

theorem settled (h : Whole env v₀ gs c cs touched v) : Settled env.hash v := by
  have hx := h.owned
  have hs : Stack v.gs := h.guards ▸ h.stack
  have hp : ¬ Pinned v.gs := fun hp => hs.single hp hx
  refine ⟨hs.ordered, hs.inner, hs.single, fun _ => h.wellFormed, fun _ => h.total, fun _ => ?_,
    fun hp' => absurd hp' hp, fun id m hm => ?_, fun hp' => absurd hp' hp⟩
  · cases touched with
    | true => exact .inr (h.fresh rfl)
    | false =>
      refine .inl fun k => ?_
      rw [h.abs, ← (h.quiet rfl).1, h.contents]
  · rw [hs.closed id] at hm
    cases hm

theorem aside (h : Whole env v₀ gs c cs touched v) (ha : Aside env v gs' cs' v')
    (hl : SameLocks gs gs') (hc : Closed gs') : Whole env v₀ gs' c (cs ++ cs') touched v' where
  stack := ha.guards ▸ ha.settled.stack (ha.guards ▸ hc)
  exclusive := hl.exclusive.mpr h.exclusive
  guards := ha.guards
  wellFormed := ha.core.tables.wellFormed h.wellFormed
  total := by rw [ha.core.totalLen, ha.core.tables.live, ha.core.heap, h.total]
  live := ha.core.tables.live.trans h.live
  abs := ha.abs.trans h.abs
  spec := ha.spec.trans h.spec
  contents := by
    rw [← h.contents]
    exact funext fun k => ha.core.tables.contents k
  visible := ha.visible.trans h.visible
  counted := by rw [ha.counted, h.counted, List.append_assoc]
  quiet ht := ⟨(h.quiet ht).1, fun hp => (h.quiet ht).2 (ha.published hp)⟩
  fresh ht := by rw [ha.fresh]; exact h.fresh ht

theorem aside_same (h : Whole env v₀ gs c cs touched v) (ha : Aside env v v.gs cs' v') :
    Whole env v₀ gs c (cs ++ cs') touched v' :=
  h.aside (h.guards ▸ ha) (.refl _) h.stack.closed

theorem wp_lock (h : Whole env v₀ gs c cs touched v) {l : LockId} {m : Mode}
    (hl : l ≠ .routing) (hfree : ¬ Owns gs l) {f : Unit → Prog K V α}
    (hΦ : ∀ v', Whole env v₀ (.lock l m :: gs) c cs touched v' → v'.st = v.st →
      (protocol env L alone).Wp (f ()) v' Φ) :
    (protocol env L alone).Wp (act (.lock l m) >>= f) v Φ := by
  have hfree' : ∀ x ∈ gs, ¬ x.excludes l m := free_of_not_owns hfree
  refine wp_lock_exclusive h.settled h.owned (h.guards ▸ hfree') (hΦ _ ?_ rfl)
  exact { h with
    stack := h.stack.lock (fun _ => h.exclusive.owns) hfree' fun hr => absurd hr hl
    exclusive := List.mem_cons_of_mem _ h.exclusive
    guards := by rw [← h.guards] }

theorem wp_unlock (h : Whole env v₀ gs c cs touched v) {l : LockId}
    (hl : l ≠ .routing) {f : Unit → Prog K V α}
    (hΦ : ∀ v', Whole env v₀ (without gs l) c cs touched v' → v'.st = v.st →
      (protocol env L alone).Wp (f ()) v' Φ) :
    (protocol env L alone).Wp (act (.unlock l) >>= f) v Φ := by
  refine wp_quiet rfl (rule_unlock_exclusive h.owned hl (hΦ _ ?_ rfl))
  exact { h with
    stack := h.stack.without fun hr => absurd hr hl
    exclusive := (mem_erase_lock (Ne.symm hl)).mpr h.exclusive
    guards := by rw [← h.guards] }

theorem wp_remove (h : Whole env v₀ gs c cs touched v) (hid : id ∈ v.st.live) {x : V}
    (hx : (v.st.heap id).lookup k = some x) {g : Option V → Prog K V α}
    {f : Unit → Prog K V α} (hg : g (some x) = Sync.recordRemoval >>= f)
    (hΦ : ∀ v', Whole env v₀ gs (update c k none) cs true v' →
      v'.st = { v.st with
        heap := update v.st.heap id ((v.st.heap id).erase k)
        totalLen := v.st.totalLen - 1
        published := v.st.published + 1 } → (protocol env L alone).Wp (f ()) v' Φ) :
    (protocol env L alone).Wp (act (.take id k) >>= g) v Φ := by
  have hw := h.wellFormed
  have hpos : 0 < (v.st.heap id).size := Assoc.size_pos_of_lookup hx
  have hle : (v.st.heap id).size ≤ v.st.totalLen := by
    rw [h.total]
    exact sum_map_le hid fun id => (v.st.heap id).size
  refine wp_quiet rfl (rule_take_exclusive h.owned ?_)
  rw [hx, hg]
  have hone : 1 ≤ v.st.totalLen := by omega
  refine Protocol.Wp.bind (wp_quiet rfl (rule_subLen_exclusive (by exact h.owned)
    (by exact hone) (wp_last (wp_quiet rfl (rule_bump (.inl (by exact h.owned)) ?_)))))
  refine hΦ _ ?_ rfl
  have hshrink : ∀ k', ((v.st.heap id).erase k).lookup k' = none ∨
      ((v.st.heap id).erase k).lookup k' = (v.st.heap id).lookup k' := by
    intro k'
    by_cases hk : k' = k
    · subst hk
      exact .inl (AList.lookup_erase _ _)
    · exact .inr (AList.lookup_erase_ne hk)
  refine ⟨h.stack, h.exclusive, h.guards, ?_, ?_, h.live, h.abs, h.spec, ?_, ?_, ?_, nofun,
    fun _ => rfl⟩
  · have hsame := hw.shrink id hshrink
    exact State.SameTables.wellFormed (s := v.st.withHeap (update v.st.heap id
      ((v.st.heap id).erase k))) ⟨rfl, rfl, rfl, rfl, rfl, rfl, rfl⟩ hsame
  · have hsum := sum_map_update hw.nodup hid (fun id => (v.st.heap id).size)
      (Assoc.size ((v.st.heap id).erase k))
    have hsize : Assoc.size ((v.st.heap id).erase k) = (v.st.heap id).size - 1 := by
      rw [Assoc.size_erase, hx]
      rfl
    have hmap : (fun j => (update v.st.heap id ((v.st.heap id).erase k) j).size) =
        update (fun j => (v.st.heap j).size) id (Assoc.size ((v.st.heap id).erase k)) := by
      funext j
      by_cases hj : j = id
      · subst hj
        simp
      · simp [Function.update_of_ne hj]
    show v.st.totalLen - 1 =
      (v.st.live.map fun j => (update v.st.heap id ((v.st.heap id).erase k) j).size).sum
    rw [hmap, h.total]
    have hle' := h.total ▸ hle
    omega
  · rw [← h.contents]
    exact hw.contents_erase hid hx
  · show Starshard.visible (v.evs ++ [Event.publish]) = _
    rw [visible_append, h.visible, visible_publish, List.append_nil]
  · show Starshard.counted (v.evs ++ [Event.publish]) = _
    rw [counted_append, h.counted, counted_publish, List.append_nil]

theorem commit (h : Whole env v₀ gs c cs' touched v) (h₀ : Calm env sp gs' ds cs v₀)
    (hx₀ : Exclusive gs') (he : ∀ e ∈ es, e.isData)
    (heff : Event.effects es (v₀.st.contents env.hash) c)
    (hch : touched → ∃ e ∈ es, e.changes) (hsp : sp (ds ++ es)) {Ψ : View K V L.State → Prop}
    (hΨ : ∀ v', Calm env sp gs (ds ++ es) (cs ++ cs') v' → v'.st = v.st → Ψ v') :
    (protocol env L alone).Shift v Ψ := by
  have hx := h.owned
  have habs : v₀.abs = v₀.st.contents env.hash :=
    funext fun k => h₀.clean.contents k (.inl (h₀.guards ▸ hx₀))
  have hvis : Starshard.visible v.evs = ds := h.visible.trans h₀.visible
  refine Protocol.Shift.trans (shift_acc hx (fun id => (v.st.heap id).size) ?_)
  refine shift_emits (v := { v with acc := fun id => (v.st.heap id).size }) he
    (fun _ _ _ _ => .inl hx) (c := c) (by rw [h.abs, habs]; exact heff) (fun k _ => ?_)
    (by rw [hvis, h.spec, h₀.spec]; exact hsp) fun abs hread => hΨ _ ?_ rfl
  · cases touched with
    | true => exact .inr ⟨.inl hx, h.fresh rfl⟩
    | false => exact .inl (by rw [h.abs, (h.quiet rfl).1])
  · refine ⟨⟨fun _ => h.wellFormed, fun _ => h.total, fun _ _ => rfl, fun k _ => ?_⟩,
      h.guards ▸ h.stack, h.guards, h.spec.trans h₀.spec, ?_, ?_, fun hpub => ?_⟩
    · show abs k = v.st.contents env.hash k
      rw [hread k (.inl hx), h.contents]
    · show Starshard.visible (v.evs ++ es) = ds ++ es
      rw [visible_append, visible_all he, hvis]
    · show Starshard.counted (v.evs ++ es) = cs ++ cs'
      rw [counted_append, counted_all he, List.append_nil, h.counted, h₀.counted]
    · have hpub : Event.publish ∈ v.evs := (List.mem_append.mp hpub).resolve_right fun hm => by
        have := he _ hm
        cases this
      cases touched with
      | true =>
        obtain ⟨e, he', hc⟩ := hch rfl
        exact ⟨e, List.mem_append_right _ he', hc⟩
      | false =>
        obtain ⟨e, he', hc⟩ := h₀.quiet ((h.quiet rfl).2 hpub)
        exact ⟨e, List.mem_append_left _ he', hc⟩

end Whole
end Starshard
