import Starshard.Proof.Exclusive
import Starshard.Proof.Keyed
import Starshard.Proof.Whole

/-! The operations that edit the whole map under exclusive routing: `retain`,
`clear` and `drain`. -/
namespace Starshard

open Data Concurrent
open Function (update)

variable {K V : Type} [DecidableEq K] {env : Env K V} {L : Lifecycle K V} {alone : Prop}
  {v v' v₀ : View K V L.State} {α : Type} {Φ : α → View K V L.State → Prop}
  {sp : List (Event K V) → Prop} {gs : Guards K V} {ds : List (Event K V)}
  {cs cs' : List Metric} {c : Contents K V} {touched : Bool} {k : K} {id : Nat}

omit [DecidableEq K] in
theorem routed_exclusive : Exclusive (routed (K := K) (V := V) .excl) := List.mem_cons_self

namespace Whole

theorem wp_mutation (h : Whole env v₀ gs c cs touched v) :
    (protocol env L alone).Wp LifecycleState.mutation v fun _ v' =>
      Whole env v₀ (.ticket :: gs) c cs touched v' ∧ v'.st.heap = v.st.heap := by
  refine (Starshard.wp_mutation h.settled).mono fun _ v₁ ha => ⟨?_, ha.core.heap⟩
  have := h.aside (h.guards ▸ ha) (.cons rfl) ((Closed.plain rfl).mpr h.stack.closed)
  rwa [List.append_nil] at this

theorem wp_finish (h : Whole env v₀ (.ticket :: gs) c cs touched v) :
    (protocol env L alone).Wp LifecycleState.finish v fun _ v' =>
      Whole env v₀ gs c cs touched v' ∧ v'.st.heap = v.st.heap := by
  refine (Starshard.wp_finish h.settled h.guards).mono fun _ v₁ ha => ⟨?_, ha.core.heap⟩
  have hl : SameLocks (.ticket :: gs) gs := fun l m => by
    rw [List.mem_cons, or_iff_right]
    rintro ⟨⟩
  have := h.aside ha hl ((Closed.plain rfl).mp h.stack.closed)
  rwa [List.append_nil] at this

theorem wp_recordRemove (h : Whole env v₀ gs c cs touched v) (k : K) :
    (protocol env L alone).Wp (LifecycleState.recordRemove (V := V) k) v fun _ v' =>
      Whole env v₀ gs c (cs ++ [.removes]) touched v' ∧ v'.st.heap = v.st.heap :=
  (Starshard.wp_recordRemove h.settled k).mono fun _ _ ha => ⟨h.aside_same ha, ha.core.heap⟩

end Whole

section Retain

variable {predicate : K → V → Bool}

/-- What `retain` did so far: it dropped the entries `dropped`, failing ones only. -/
structure Retained (env : Env K V) (predicate : K → V → Bool) (gs : Guards K V)
    (v₀ : View K V L.State) (dropped : List (K × V)) (v : View K V L.State) : Prop where
  whole : Whole env v₀ gs (v.st.contents env.hash) (List.replicate dropped.length .removes)
    (decide (dropped ≠ [])) v
  kept : ∀ k, v.st.contents env.hash k = v₀.st.contents env.hash k ∨
    (v.st.contents env.hash k = none ∧ (v₀.st.contents env.hash k).filter (predicate k) = none)
  listed : Represents dropped fun k =>
    if (v.st.contents env.hash k).isSome then none else v₀.st.contents env.hash k

namespace Retained

variable {dropped : List (K × V)}

theorem reframe {gs' : Guards K V} (h : Retained env predicate gs v₀ dropped v)
    (hw : Whole env v₀ gs' (v.st.contents env.hash) (List.replicate dropped.length .removes)
      (decide (dropped ≠ [])) v') (hs : v'.st.contents env.hash = v.st.contents env.hash) :
    Retained env predicate gs' v₀ dropped v' :=
  ⟨by rw [hs]; exact hw, by rw [hs]; exact h.kept, by rw [hs]; exact h.listed⟩

theorem wp_entry (h : Retained env predicate gs v₀ dropped v) (hid : id ∈ v.st.live) {e : K × V}
    (he : (v.st.heap id).lookup e.1 = some e.2) :
    (protocol env L alone).Wp (do
      act .user
      if !predicate e.1 e.2 then
        let _ ← act (.take id e.1)
        Sync.recordRemoval
        LifecycleState.recordRemove e.1
        if env.eviction.isNone then
          act .user) v fun _ v' => ∃ dropped', Retained env predicate gs v₀ dropped' v' ∧
      ((v'.st.heap = v.st.heap ∧ predicate e.1 e.2 = true) ∨
        v'.st.heap = update v.st.heap id ((v.st.heap id).erase e.1)) := by
  refine wp_user h.whole.settled ?_
  cases hp : predicate e.1 e.2 with
  | true => exact ⟨dropped, h, .inl ⟨rfl, rfl⟩⟩
  | false =>
    refine h.whole.wp_remove hid he rfl fun v₁ h₁ s₁ => ?_
    refine Protocol.Wp.bind ((h₁.wp_recordRemove e.1).mono fun _ v₂ ⟨h₂, s₂⟩ => ?_)
    have hc₀ := h.whole.wellFormed.contents_some hid he
    have hfail : v₀.st.contents env.hash e.1 = some e.2 := by
      rcases h.kept e.1 with hk | ⟨hk, -⟩
      · exact hk.symm.trans hc₀
      · rw [hk] at hc₀
        cases hc₀
    have hR : Retained env predicate gs v₀ (dropped ++ [e]) v₂ := by
      refine ⟨?_, fun k => ?_, ?_⟩
      · rw [h₂.contents, List.length_append, List.length_singleton, List.replicate_succ']
        simpa using h₂
      · rw [h₂.contents]
        by_cases hk : k = e.1
        · subst hk
          exact .inr ⟨Function.update_self _ _ _, by rw [hfail, Option.filter_some, hp]; rfl⟩
        · rw [Function.update_of_ne hk]
          exact h.kept k
      · convert h.listed.concat (k := e.1) (by rw [hc₀]; rfl) e.2 using 1
        funext k
        rw [h₂.contents]
        by_cases hk : k = e.1
        · subst hk
          rw [Function.update_self, Function.update_self, hfail]
          rfl
        · rw [Function.update_of_ne hk, Function.update_of_ne hk]
    have hheap : v₂.st.heap = update v.st.heap id ((v.st.heap id).erase e.1) := by
      rw [s₂, s₁]
    cases env.eviction.isNone with
    | true => exact wp_last (wp_user h₂.settled ⟨_, hR, .inr hheap⟩)
    | false => exact ⟨_, hR, .inr hheap⟩

theorem wp_retainShard (h : Retained env predicate gs v₀ dropped v) (hid : id ∈ v₀.st.live)
    (hfree : ¬ Owns gs (.shard id)) :
    (protocol env L alone).Wp (Sync.retainShard env predicate id) v fun _ v' =>
      ∃ dropped', Retained env predicate gs v₀ dropped' v' ∧
        (∀ j, Assoc.Sub (v'.st.heap j) (v.st.heap j)) ∧
        ∀ k x, (v'.st.heap id).lookup k = some x → predicate k x = true := by
  refine h.whole.wp_lock (l := .shard id) (fun he => by cases he) hfree fun v₁ h₁ s₁ => ?_
  refine Protocol.Wp.bind (h₁.wp_mutation.mono fun _ v₂ ⟨h₂, s₂⟩ => wp_user h₂.settled ?_)
  have hheap₂ : v₂.st.heap = v.st.heap := s₂.trans (by rw [s₁])
  refine wp_quiet rfl (rule_entries (.inl h₂.owned) fun l hl => Protocol.Wp.bind ?_)
  have hR₂ : Retained env predicate (.ticket :: .lock (.shard id) .excl :: gs) v₀ dropped v₂ :=
    h.reframe h₂ h₂.contents
  have hkeys : (l.map Prod.fst).Nodup := (hl.map _).nodup_iff.mpr (Assoc.items_keys_nodup _)
  have hmem : ∀ e ∈ l, (v₂.st.heap id).lookup e.1 = some e.2 := fun e he =>
    Assoc.mem_items.mp (hl.mem_iff.mp he)
  refine (Protocol.Wp.mapM (I := fun pre _ (w : View K V L.State) =>
    ∃ dropped', Retained env predicate (.ticket :: .lock (.shard id) .excl :: gs) v₀ dropped' w ∧
      (∀ j, Assoc.Sub (w.st.heap j) (v₂.st.heap j)) ∧
      (∀ e ∈ pre, (w.st.heap id).lookup e.1 = some e.2 → predicate e.1 e.2 = true) ∧
      ∀ e ∈ l, e ∉ pre → (w.st.heap id).lookup e.1 = some e.2)
    (fun pre e post _ w hpost ⟨dropped', hw, hsub, hpre, hrest⟩ => ?_)
    ⟨dropped, hR₂, fun j => .refl _, by simp, fun e he _ => hmem e he⟩).mono
    fun _ v₃ ⟨dropped', h₃, hsub, hpass, _⟩ => ?_
  · have hnot : ∀ e' ∈ pre ++ post, e'.1 ≠ e.1 := by
      intro e' he' heq
      rw [hpost, List.map_append, List.map_cons] at hkeys
      have hperm : (pre.map Prod.fst ++ e.1 :: post.map Prod.fst).Perm
          (e.1 :: (pre.map Prod.fst ++ post.map Prod.fst)) := List.perm_middle
      refine (List.nodup_cons.mp (hperm.nodup_iff.mp hkeys)).1 ?_
      rw [← List.map_append, ← heq]
      exact List.mem_map_of_mem he'
    have hin : e ∈ l := hpost ▸ by simp
    have hout : e ∉ pre := fun hp => hnot e (by simp [hp]) rfl
    have hlive : id ∈ w.st.live := by rw [hw.whole.live]; exact hid
    refine (hw.wp_entry hlive (hrest e hin hout)).mono fun _ w' ⟨dropped'', hw', hheap⟩ => ?_
    refine ⟨dropped'', hw', ?_⟩
    rcases hheap with ⟨hheap, hpred⟩ | hheap
    · rw [hheap]
      refine ⟨hsub, fun e' he' hl' => ?_, fun e' he' hn' => hrest e' he' fun hp =>
        hn' (by simp [hp])⟩
      rcases List.mem_append.mp he' with he' | he'
      · exact hpre e' he' hl'
      · rw [List.mem_singleton.mp he']
        exact hpred
    · rw [hheap]
      refine ⟨fun j k x hx => ?_, fun e' he' hl' => ?_, fun e' he' hn' => ?_⟩
      · by_cases hj : j = id
        · subst hj
          rw [Function.update_self] at hx
          by_cases hk : k = e.1
          · subst hk
            rw [AList.lookup_erase] at hx
            cases hx
          · rw [AList.lookup_erase_ne hk] at hx
            exact hsub _ k x hx
        · rw [Function.update_of_ne hj] at hx
          exact hsub _ k x hx
      · rw [Function.update_self] at hl'
        rcases List.mem_append.mp he' with he' | he'
        · rw [AList.lookup_erase_ne (hnot e' (by simp [he']))] at hl'
          exact hpre e' he' hl'
        · rw [List.mem_singleton.mp he', AList.lookup_erase] at hl'
          cases hl'
      · have hpost' : e' ∈ post := by
          rw [hpost] at he'
          simp only [List.mem_append, List.mem_cons, List.not_mem_nil, or_false, not_or] at he' hn'
          exact (he'.resolve_left hn'.1).resolve_left hn'.2
        rw [Function.update_self, AList.lookup_erase_ne (hnot e' (by simp [hpost']))]
        refine hrest e' he' fun hp => hn' (by simp [hp])
  · refine Protocol.Wp.bind (h₃.whole.wp_finish.mono fun _ v₄ ⟨h₄, s₄⟩ => ?_)
    refine wp_last (h₄.wp_unlock (l := .shard id) (fun he => by cases he) fun v₅ h₅ s₅ => ?_)
    rw [without_lock] at h₅
    refine ⟨dropped', h₃.reframe h₅ h₅.contents, fun j => ?_, fun k x hx => ?_⟩
    · rw [s₅, s₄, ← hheap₂]
      exact hsub j
    · rw [s₅, s₄] at hx
      exact hpass (k, x) (hl.mem_iff.mpr (Assoc.mem_items.mpr (hsub id k x hx))) hx

end Retained

theorem filter_failing (p : V → Bool) (o : Option V) :
    (if (o.filter p).isSome then none else o) = o.filter fun x => !p x := by
  cases o with
  | none => rfl
  | some x => cases hp : p x <;> simp [Option.filter, hp]

/-- All shards are swept, and the result is committed as one step. -/
theorem Calm.wp_retain (h : Calm env sp [] ds cs v)
    (hsp : ∀ dropped, Lenient env sp (ds ++ [Event.retain predicate dropped])) :
    (protocol env L alone).Wp (Sync.retain env predicate) v fun _ v' =>
      ∃ dropped, Maintained env sp [] (ds ++ [Event.retain predicate dropped])
        (cs ++ List.replicate dropped.length .removes) v' := by
  refine h.wp_enter fun v₁ h₁ => ?_
  have hx := routed_exclusive (K := K) (V := V)
  refine Protocol.Wp.bind ((h₁.wp_allShards hx (routed_free _ _ rfl) (routed_free _ _ rfl)).mono
    fun ids v₂ ⟨hids, h₂, k₂, _⟩ => Protocol.Wp.bind ?_)
  have hlive : ids = v₂.st.live := by
    rw [hids, ((Agree.exclusive k₂) hx).1.tables.live]
  have hw₂ := Whole.start h₂ hx
  have hnone : Represents ([] : List (K × V)) fun k =>
      if (v₂.st.contents env.hash k).isSome then none else v₂.st.contents env.hash k := by
    convert Represents.nil (K := K) (V := V) using 2 with k
    cases v₂.st.contents env.hash k <;> rfl
  refine (Protocol.Wp.mapM (I := fun pre _ (w : View K V L.State) =>
    ∃ dropped, Retained env predicate (routed .excl) v₂ dropped w ∧
      ∀ id ∈ pre, ∀ k x, (w.st.heap id).lookup k = some x → predicate k x = true)
    (fun pre id post _ w hpost ⟨dropped, hw, hpre⟩ => ?_)
    ⟨[], ⟨hw₂, fun _ => .inl rfl, hnone⟩, by simp⟩).mono
    fun _ v₃ ⟨dropped, h₃, hpass⟩ => ?_
  · have hid : id ∈ v₂.st.live := by
      rw [← hlive, hpost]
      simp
    refine (hw.wp_retainShard hid (routed_free _ _ rfl)).mono fun _ w' ⟨dropped', hw', hsub, hid'⟩ => ?_
    refine ⟨dropped', hw', fun j hj k x hx => ?_⟩
    rcases List.mem_append.mp hj with hj | hj
    · exact hpre j hj k x (hsub j k x hx)
    · rw [List.mem_singleton.mp hj] at hx
      exact hid' k x hx
  · have hfiltered : v₃.st.contents env.hash =
        fun k => (v₂.st.contents env.hash k).filter (predicate k) := by
      funext k
      rcases h₃.kept k with hk | ⟨hk, hfail⟩
      · cases hc : v₂.st.contents env.hash k with
        | none =>
          rw [hk, hc]
          rfl
        | some x =>
          obtain ⟨id, hid, hx⟩ := State.WellFormed.stored (hk.trans hc)
          have hpred := hpass id (by rw [hlive, ← h₃.whole.live]; exact hid) k x hx
          rw [hk, hc, Option.filter_some, if_pos hpred]
      · rw [hk, hfail]
    have hlisted : Represents dropped
        fun k => (v₂.st.contents env.hash k).filter fun x => !predicate k x := by
      have hlost := h₃.listed
      rw [hfiltered] at hlost
      exact (funext fun k => filter_failing (predicate k) (v₂.st.contents env.hash k)) ▸ hlost
    have hdata : ∀ e ∈ [Event.retain predicate dropped], e.isData := by simp [Event.isData]
    refine Protocol.Shift.wp (h₃.whole.commit h₂ hx hdata ⟨_, ⟨hfiltered, hlisted⟩, rfl⟩
      (fun hn => ⟨_, List.mem_singleton_self _, (of_decide_eq_true hn : dropped ≠ [])⟩)
      (by simpa using hsp dropped [] ⟨fun _ => rfl, by simp⟩) fun v₄ h₄ _ => ?_)
    exact (h₄.wp_leaveRetiring (hsp _)).mono fun _ v₅ h₅ => ⟨dropped, h₅⟩

end Retain

section Drain

/-- What a drain did so far: the shards in `ids` are empty, and `items` were theirs. -/
structure Drained (env : Env K V) (gs : Guards K V) (v₀ : View K V L.State) (ids : List Nat)
    (items : List (K × V)) (v : View K V L.State) : Prop where
  whole : Whole env v₀ gs (v.st.contents env.hash) (List.replicate items.length .removes)
    (decide (items ≠ [])) v
  empty : ∀ id ∈ ids, v.st.heap id = ∅
  rest : ∀ id, id ∉ ids → v.st.heap id = v₀.st.heap id
  taken : ∃ ls, items = ls.flatten ∧
    List.Forall₂ (fun l id => l.Perm (v₀.st.heap id).items) ls ids

theorem Whole.wp_drain (h : Whole env v₀ gs c cs touched v) (hid : id ∈ v.st.live)
    {f : List (K × V) → Unit → Prog K V α}
    (hΦ : ∀ l : List (K × V), l.Perm (v.st.heap id).items → ∀ v',
      Whole env v₀ gs (v'.st.contents env.hash) cs (touched || decide (l ≠ [])) v' →
      v'.st.heap = update v.st.heap id ∅ → (protocol env L alone).Wp (f l ()) v' Φ) :
    (protocol env L alone).Wp (act (.drain id) >>= fun l =>
      Sync.recordDrained (v.st.heap id).size >>= f l) v Φ := by
  have hw := h.wellFormed
  have hlen : ∀ {l : List (K × V)}, l.Perm (v.st.heap id).items →
      l.length = (v.st.heap id).size := fun hl => by rw [hl.length_eq, Assoc.items_length]
  by_cases hz : (v.st.heap id).size = 0
  · have hcount : Sync.recordDrained (K := K) (V := V) (v.st.heap id).size = pure () :=
      if_neg (not_not.mpr hz)
    rw [hcount]
    refine wp_quiet rfl (rule_drain_exclusive h.owned fun l hl => ?_)
    have hnil : l = [] := List.eq_nil_of_length_eq_zero ((hlen hl).trans hz)
    have hempty : v.st.heap id = ∅ := AList.ext (List.eq_nil_of_length_eq_zero hz)
    have hsame : update v.st.heap id ∅ = v.st.heap := by
      rw [← hempty, Function.update_eq_self]
    refine hΦ l hl _ ?_ rfl
    subst hnil
    rw [hsame]
    simpa [h.contents] using h
  · have hcount : Sync.recordDrained (K := K) (V := V) (v.st.heap id).size = (do
        act (.subLen (v.st.heap id).size)
        act .bump) := if_pos hz
    have hle : (v.st.heap id).size ≤ v.st.totalLen := by
      rw [h.total]
      exact sum_map_le hid fun id => (v.st.heap id).size
    rw [hcount]
    refine wp_quiet rfl (rule_drain_exclusive h.owned fun l hl => Protocol.Wp.bind ?_)
    have hne : l ≠ [] := fun hnil => hz (by rw [← hlen hl, hnil]; rfl)
    refine wp_quiet rfl (rule_subLen_exclusive (by exact h.owned) (by exact hle)
      (wp_last (wp_quiet rfl (rule_bump (.inl (by exact h.owned)) ?_))))
    refine hΦ l hl _ ⟨h.stack, h.exclusive, h.guards, ?_, ?_, h.live, h.abs, h.spec, rfl, ?_, ?_,
      fun ht => ?_, fun _ => rfl⟩ rfl
    · exact State.SameTables.wellFormed (s := v.st.withHeap (update v.st.heap id ∅))
        ⟨rfl, rfl, rfl, rfl, rfl, rfl, rfl⟩
        (hw.shrink id (m := ∅) fun _ => .inl (AList.lookup_empty _))
    · have hsum := sum_map_update hw.nodup hid (fun id => (v.st.heap id).size) 0
      have hmap : (fun j => (update v.st.heap id ∅ j).size) =
          update (fun j => (v.st.heap j).size) id 0 := by
        funext j
        by_cases hj : j = id
        · subst hj
          simp
        · simp [Function.update_of_ne hj]
      show v.st.totalLen - (v.st.heap id).size =
        (v.st.live.map fun j => (update v.st.heap id ∅ j).size).sum
      rw [hmap, h.total]
      omega
    · show Starshard.visible (v.evs ++ [Event.publish]) = _
      rw [visible_append, h.visible, visible_publish, List.append_nil]
    · show Starshard.counted (v.evs ++ [Event.publish]) = _
      rw [counted_append, h.counted, counted_publish, List.append_nil]
    · simp [hne] at ht

theorem Whole.wp_recordRemoves (items : List (K × V)) :
    ∀ {v : View K V L.State} {cs : List Metric}, Whole env v₀ gs c cs touched v →
      (protocol env L alone).Wp (items.mapM fun e => LifecycleState.recordRemove (V := V) e.1) v
        fun _ v' => Whole env v₀ gs c (cs ++ List.replicate items.length .removes) touched v' ∧
          v'.st.heap = v.st.heap := by
  intro v cs h
  refine (Protocol.Wp.mapM (I := fun pre _ (w : View K V L.State) =>
    Whole env v₀ gs c (cs ++ List.replicate pre.length .removes) touched w ∧
      w.st.heap = v.st.heap) (fun pre e post _ w _ ⟨hw, hs⟩ => ?_) ⟨by simpa using h, rfl⟩).mono
    fun _ _ h => h
  refine (hw.wp_recordRemove e.1).mono fun _ w' ⟨hw', hs'⟩ => ⟨?_, hs'.trans hs⟩
  rw [List.length_append, List.replicate_add, ← List.append_assoc]
  exact hw'

namespace Drained

variable {ids : List Nat} {items : List (K × V)}

theorem wp_drainShard (h : Drained env gs v₀ ids items v) (hid : id ∈ v₀.st.live)
    (hnew : id ∉ ids) (hfree : ¬ Owns gs (.shard id)) :
    (protocol env L alone).Wp (Sync.drainShard items id) v fun items' v' =>
      Drained env gs v₀ (ids ++ [id]) items' v' := by
  refine h.whole.wp_lock (l := .shard id) (fun he => by cases he) hfree fun v₁ h₁ s₁ => ?_
  refine wp_quiet rfl (rule_len (.inl h₁.owned) ?_)
  refine Protocol.Wp.bind (h₁.wp_mutation.mono fun _ v₂ ⟨h₂, s₂⟩ => wp_user h₂.settled ?_)
  have hheap₂ : v₂.st.heap = v.st.heap := s₂.trans (by rw [s₁])
  have hid₂ : id ∈ v₂.st.live := by rw [h₂.live]; exact hid
  rw [show v₁.st.heap id = v₂.st.heap id by rw [s₂]]
  refine h₂.wp_drain hid₂ fun l hl v₃ h₃ s₃ => Protocol.Wp.bind ?_
  refine (h₃.wp_recordRemoves l).mono fun _ v₄ ⟨h₄, s₄⟩ => Protocol.Wp.bind ?_
  refine h₄.wp_finish.mono fun _ v₅ ⟨h₅, s₅⟩ => ?_
  refine h₅.wp_unlock (l := .shard id) (fun he => by cases he) fun v₆ h₆ s₆ => ?_
  rw [without_lock] at h₆
  have hheap : v₆.st.heap = update v.st.heap id ∅ := by rw [s₆, s₅, s₄, s₃, hheap₂]
  obtain ⟨ls, rfl, hls⟩ := h.taken
  refine ⟨?_, fun j hj => ?_, fun j hj => ?_, ls ++ [l], by simp, ?_⟩
  · rw [h₆.contents, List.length_append, List.replicate_add]
    have hflag : ∀ a b : List (K × V),
        decide (a ++ b ≠ []) = (decide (a ≠ []) || decide (b ≠ [])) := by
      intro a b
      cases a <;> simp
    rw [hflag]
    exact h₆
  · rw [hheap]
    by_cases hji : j = id
    · rw [hji, Function.update_self]
    · rw [Function.update_of_ne hji]
      exact h.empty j ((List.mem_append.mp hj).resolve_right fun hm =>
        hji (List.mem_singleton.mp hm))
  · simp only [List.mem_append, List.mem_singleton, not_or] at hj
    rw [hheap, Function.update_of_ne hj.2]
    exact h.rest j hj.1
  · refine List.rel_append hls (.cons ?_ .nil)
    rw [← h.rest id hnew, ← hheap₂]
    exact hl

end Drained

/-- An exclusive owner may lay the map out anew, if the contents stay. -/
theorem Calm.relaid {gs' : Guards K V} (h : Calm env sp gs' ds cs v) (hx' : Exclusive gs')
    (hs : Stack gs) (st : State K V L.State) (hw : st.WellFormed env.hash)
    (ht : st.totalLen = (st.live.map fun id => (st.heap id).size).sum)
    (hc : ∀ k, st.contents env.hash k = v.st.contents env.hash k) :
    Calm env sp gs ds cs
      { v with st := st, acc := fun id => (st.heap id).size, gs := gs } where
  clean := ⟨fun _ => hw, fun _ => ht, fun _ _ => rfl, fun k _ =>
    (h.clean.contents k (.inl (h.guards ▸ hx'))).trans (hc k).symm⟩
  stack := hs
  guards := rfl
  spec := h.spec
  visible := h.visible
  counted := h.counted
  quiet := h.quiet

/-- The layout after the previous generation was given up. -/
def State.single {E : Type} (s : State K V E) (p : Progress) : State K V E :=
  { s with previous := none, previousShardCount := 0, tracker := p }

def State.Emptied {E : Type} (s : State K V E) : Prop :=
  ∀ i id, slotAt s.previous i = some id → s.heap id = ∅

section Single

variable {s : State K V L.State} {p : Progress}

theorem State.prevLookup_single (hash : K → Nat) (k : K) :
    (s.single p).prevLookup hash k = none := rfl

theorem State.Emptied.contents (he : s.Emptied) (k : K) :
    (s.single p).contents env.hash k = s.contents env.hash k := by
  have hnone : s.prevLookup env.hash k = none := by
    rw [State.prevLookup]
    cases hid : s.prevHome env.hash k with
    | none => rfl
    | some id =>
      rw [Option.bind_some, he _ id hid]
      exact AList.lookup_empty _
  rw [State.contents, State.prevLookup_single, State.contents, hnone]
  rfl

omit [DecidableEq K] in
theorem State.live_single : (s.single p).live = allocatedShards s.shards :=
  List.append_nil _

omit [DecidableEq K] in
theorem State.Emptied.total (he : s.Emptied)
    (ht : s.totalLen = (s.live.map fun id => (s.heap id).size).sum) :
    (s.single p).totalLen =
      ((s.single p).live.map fun id => ((s.single p).heap id).size).sum := by
  have hzero : ((allocatedShards (s.previous.getD [])).map fun id => (s.heap id).size).sum = 0 := by
    rw [List.map_congr_left (g := fun _ => 0) fun id hid => ?_]
    · simp
    · obtain ⟨i, hi⟩ := mem_previous.mp hid
      rw [he i id hi]
      rfl
  rw [State.live, List.map_append, List.sum_append, hzero] at ht
  rw [State.live_single]
  exact ht

theorem State.WellFormed.single (hw : s.WellFormed env.hash) (hp : p.layout.migrating = false) :
    (s.single p).WellFormed env.hash where
  count_pos := hw.count_pos
  length := hw.length
  previous_length _ h := nomatch h
  previous_none := ⟨fun _ => rfl, fun _ => rfl⟩
  migrating := hp
  progress h := nomatch h
  drained _ _ := rfl
  nodup := by
    rw [State.live_single]
    exact (List.nodup_append'.mp hw.nodup).1
  bound id hid := hw.bound id (by
    rw [State.live_single] at hid
    exact List.mem_append_left _ hid)
  home_active := hw.home_active
  home_previous _ _ h := nomatch h
  disjoint k := .inr (State.prevLookup_single _ k)

theorem Calm.wp_dropPrevious (h : Calm env sp gs ds cs v) (hx : Exclusive gs)
    (hfree : ¬ Owns gs .previous) (he : v.st.Emptied) :
    (protocol env L alone).Wp Sync.dropPrevious v fun _ v' => Calm env sp gs ds cs v' := by
  refine wp_lock_calm h (fun _ => hx.owns) (free_of_not_owns hfree) nofun nofun
    fun v₁ h₁ k₁ _ => ?_
  have hx₁ : Exclusive (.lock .previous .excl :: gs) := List.mem_cons_of_mem _ hx
  have s₁ := (Agree.exclusive k₁ hx).1
  have he₁ : v₁.st.Emptied := fun i id hi => by
    rw [s₁.heap]
    exact he i id (by rw [← s₁.previous]; exact hi)
  have hgs : without v₁.gs .previous = gs := by rw [h₁.guards, without_lock]
  refine wp_quiet rfl (rule_setPrevious_exclusive (h₁.guards.symm ▸ hx₁) ?_)
  refine wp_quiet rfl (rule_unlock_exclusive (h₁.guards.symm ▸ hx₁) (fun he => by cases he) ?_)
  dsimp only
  rw [hgs]
  refine wp_quiet rfl (rule_setPreviousShardCount_exclusive hx (wp_clock fun now => ?_))
  refine Protocol.Shift.wp (shift_acc (by exact hx) (fun id => (v₁.st.heap id).size) ?_)
  refine wp_quiet rfl (rule_tracker_exclusive (by exact hx) fun p _ => ?_)
  exact h₁.relaid hx₁ (h.guards ▸ h.stack) _
    ((h₁.wellFormed hx₁.owns).single (p := Progress.finish now p) rfl)
    (he₁.total (h₁.settled.total (h₁.guards.symm ▸ hx₁))) he₁.contents

end Single

/-- Every shard is emptied, and the entries leave the map in one step. -/
theorem Calm.wp_drainShards (h : Calm env sp (routed .excl) ds cs v)
    (hsp : ∀ items, sp (ds ++ [Event.drain items])) {f : List (K × V) → Prog K V α}
    (hΦ : ∀ items v', Calm env sp (routed .excl) (ds ++ [Event.drain items])
      (cs ++ List.replicate items.length .removes) v' →
      (protocol env L alone).Wp (f items) v' Φ) :
    (protocol env L alone).Wp (do
      let shards ← Sync.allShards
      let items ← shards.foldlM Sync.drainShard []
      Sync.dropPrevious
      f items) v Φ := by
  have hx := routed_exclusive (K := K) (V := V)
  refine Protocol.Wp.bind ((h.wp_allShards hx (routed_free _ _ rfl) (routed_free _ _ rfl)).mono
    fun ids v₁ ⟨hids, h₁, k₁, _⟩ => Protocol.Wp.bind ?_)
  have hlive : ids = v₁.st.live := by
    rw [hids, ((Agree.exclusive k₁) hx).1.tables.live]
  have hw₁ := h₁.wellFormed hx.owns
  refine (Protocol.Wp.foldlM (I := fun pre items (w : View K V L.State) =>
    Drained env (routed .excl) v₁ pre items w) (fun pre id post items w hpost hw => ?_)
    ⟨Whole.start h₁ hx, by simp, fun _ _ => rfl, [], rfl, .nil⟩).mono fun items v₂ h₂ => ?_
  · have hn := hw₁.nodup
    rw [← hlive, hpost, List.nodup_middle] at hn
    refine hw.wp_drainShard ?_ (fun hm => (List.nodup_cons.mp hn).1 (by simp [hm]))
      (routed_free _ _ rfl)
    rw [← hlive, hpost]
    simp
  · have hempty : ∀ id ∈ v₂.st.live, v₂.st.heap id = ∅ := fun id hid =>
      h₂.empty id (by rw [hlive, ← h₂.whole.live]; exact hid)
    have hnone : v₂.st.contents env.hash = fun _ => none := by
      funext k
      cases hc : v₂.st.contents env.hash k with
      | none => rfl
      | some x =>
        obtain ⟨id, hid, hx⟩ := State.WellFormed.stored hc
        rw [hempty id hid, AList.lookup_empty] at hx
        cases hx
    obtain ⟨ls, rfl, hls⟩ := h₂.taken
    have hdata : ∀ e ∈ [Event.drain ls.flatten], e.isData := by simp [Event.isData]
    refine Protocol.Wp.bind (Protocol.Shift.wp (h₂.whole.commit h₁ hx hdata
      ⟨_, ⟨hw₁.represents (hlive ▸ hls), rfl⟩, hnone⟩
      (fun hn => ⟨_, List.mem_singleton_self _, (of_decide_eq_true hn : ls.flatten ≠ [])⟩) (hsp _)
      fun v₃ h₃ s₃ => ?_))
    refine (h₃.wp_dropPrevious hx (routed_free _ _ rfl) fun i id hi => ?_).mono
      fun _ v₄ h₄ => hΦ _ v₄ h₄
    rw [s₃] at hi ⊢
    exact hempty id (State.mem_live.mpr (.inr ⟨i, hi⟩))

theorem Calm.wp_clear (h : Calm env sp [] ds cs v)
    (hsp : ∀ items, Lenient env sp (ds ++ [Event.drain items])) :
    (protocol env L alone).Wp (Sync.clear env) v fun _ v' =>
      ∃ items, Maintained env sp [] (ds ++ [Event.drain items])
        (cs ++ List.replicate items.length .removes) v' := by
  refine h.wp_enter fun v₁ h₁ => ?_
  refine h₁.wp_drainShards (fun items => by simpa using hsp items [] ⟨fun _ => rfl, by simp⟩)
    fun items v₂ h₂ => ?_
  exact (h₂.wp_leaveRetiring (hsp items)).mono fun _ v₃ h₃ => ⟨items, h₃⟩

theorem Calm.wp_drain (h : Calm env sp [] ds cs v)
    (hsp : ∀ items, Lenient env sp (ds ++ [Event.drain items])) :
    (protocol env L alone).Wp (Sync.drain env) v fun items v' =>
      Maintained env sp [] (ds ++ [Event.drain items])
        (cs ++ List.replicate items.length .removes) v' := by
  refine h.wp_enter fun v₁ h₁ => ?_
  refine h₁.wp_drainShards (fun items => by simpa using hsp items [] ⟨fun _ => rfl, by simp⟩)
    fun items v₂ h₂ => ?_
  exact (h₂.wp_leave (hsp items) items).mono fun r v₃ ⟨hr, h₃⟩ => hr ▸ h₃

end Drain
end Starshard
