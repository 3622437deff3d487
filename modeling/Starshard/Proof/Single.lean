import Starshard.Proof.Locate

/-! Operations on one key of a map whose routing is pinned. Each of them commits
its event while it still owns the lock that decides its key. -/
namespace Starshard

open Data Concurrent
open Function (update)

variable {K V : Type} [DecidableEq K] {env : Env K V} {L : Lifecycle K V} {alone : Prop}
  {v v' v₀ : View K V L.State} {α : Type} {Φ : α → View K V L.State → Prop}
  {sp : List (Event K V) → Prop} {gs : Guards K V} {ds es : List (Event K V)}
  {cs cs' : List Metric} {c : Contents K V} {P : K → Prop} {touched : Bool} {k : K} {id : Nat}

/-- What was edited is committed before the lock is released. -/
theorem Calm.commit (h₀ : Calm env sp gs ds cs v₀) (hp : Pinned gs)
    (h : Edit env v₀ gs c P cs' touched v) (he : ∀ e ∈ es, e.isData)
    (hkeys : ∀ e ∈ es, ∀ k, e.keys k → Reads env.hash gs v₀.st k)
    (heff : Event.effects es (v₀.st.contents env.hash) c)
    (hch : touched → ∃ e ∈ es, e.changes) (hsp : sp (ds ++ es)) {Ψ : View K V L.State → Prop}
    (hΨ : ∀ v', Calm env sp gs (ds ++ es) (cs ++ cs') v' → v'.st = v.st → Ψ v') :
    (protocol env L alone).Shift v Ψ := by
  have hpv : Pinned v.gs := h.guards.symm ▸ hp
  have hcl : Closed v.gs := h.guards.symm ▸ h₀.closed
  have hx := h.settled.single hpv
  have hreads : ∀ k, Reads env.hash v.gs v.st k ↔ Reads env.hash gs v₀.st k := by
    intro k
    unfold Reads
    rw [h.guards, h.home]
  obtain ⟨c', heff', hread, -⟩ := Event.local_effects he hkeys heff (d := v.abs) fun k hk => by
    rw [h.abs]
    exact h₀.clean.contents k (h₀.guards.symm ▸ hk)
  have hvis : Starshard.visible v.evs = ds := h.visible.trans h₀.visible
  refine shift_emits (v := v) he (fun e he' k hk => (hreads k).mpr (hkeys e he' k hk)) heff'
    (fun k hk => ?_) (by rw [hvis, h.spec, h₀.spec]; exact hsp) fun abs habs => hΨ _ ?_ rfl
  · rw [hread k ((hreads k).mp hk), ← h.contents]
    refine (h.settled.keys hpv k hk).imp Eq.symm fun ⟨hw, hf⟩ => ⟨hw, hf.resolve_right ?_⟩
    rintro ⟨id, m, -, hm, -⟩
    rw [hcl id] at hm
    cases hm
  · refine ⟨⟨h.settled.wellFormed, fun hx' => absurd hx' hx, fun id hid => ?_, fun k hk => ?_⟩,
      h.settled.stack hcl, h.guards, h.spec.trans h₀.spec, ?_, ?_, fun hpub => ?_⟩
    · exact h.settled.acc hpv id (hid.resolve_left hx) (hcl id)
    · show abs k = v.st.contents env.hash k
      rw [habs k hk, hread k ((hreads k).mp hk), h.contents]
    · show Starshard.visible (v.evs ++ es) = ds ++ es
      rw [visible_append, visible_all he, hvis]
    · show Starshard.counted (v.evs ++ es) = cs ++ cs'
      rw [counted_append, counted_all he, List.append_nil, h.counted, h₀.counted]
    · have hpub : Event.publish ∈ v.evs := (List.mem_append.mp hpub).resolve_right fun hm => by
        have := he _ hm
        cases this
      cases touched with
      | true =>
        obtain ⟨e, he', hc⟩ := hch rfl
        exact ⟨e, List.mem_append_right _ he', hc⟩
      | false =>
        obtain ⟨e, he', hc⟩ := h₀.quiet ((h.quiet rfl).1 hpub)
        exact ⟨e, List.mem_append_left _ he', hc⟩

theorem Calm.wp_commit (h₀ : Calm env sp gs ds cs v₀) (hp : Pinned gs)
    (h : Edit env v₀ gs c P cs' touched v) (he : ∀ e ∈ es, e.isData)
    (hkeys : ∀ e ∈ es, ∀ k, e.keys k → Reads env.hash gs v₀.st k)
    (heff : Event.effects es (v₀.st.contents env.hash) c)
    (hch : touched → ∃ e ∈ es, e.changes) (hsp : sp (ds ++ es)) {l : LockId} (hl : l ≠ .routing)
    {f : Unit → Prog K V α}
    (hΦ : ∀ v', Calm env sp (without gs l) (ds ++ es) (cs ++ cs') v' → v'.st = v.st →
      (protocol env L alone).Wp (f ()) v' Φ) :
    (protocol env L alone).Wp (act (.unlock l) >>= f) v Φ := by
  refine Protocol.Shift.wp (h₀.commit hp h he hkeys heff hch hsp fun v₁ h₁ hst => ?_)
  refine wp_unlock_calm h₁ (fun h => absurd h hl) fun v₂ h₂ w₂ _ => hΦ v₂ h₂ ?_
  rw [w₂, hst]

theorem Calm.wp_observe (h : Calm env sp gs ds cs v) (hp : Pinned gs)
    (hk : Reads env.hash gs v.st k) (hsp : sp (ds ++ [Event.read k (v.st.contents env.hash k)]))
    {l : LockId} (hl : l ≠ .routing) {f : Unit → Prog K V α}
    (hΦ : ∀ v', Calm env sp (without gs l) (ds ++ [Event.read k (v.st.contents env.hash k)]) cs v' →
      v'.st = v.st → (protocol env L alone).Wp (f ()) v' Φ) :
    (protocol env L alone).Wp (act (.unlock l) >>= f) v Φ := by
  have hstart := Edit.start h.settled (h.guards.symm ▸ h.closed)
  rw [h.guards] at hstart
  refine h.wp_commit hp hstart (by simp [Event.isData])
    (fun e he k' hk' => ?_) (show Event.effects [Event.read k _] _ _ from ⟨_, ⟨rfl, rfl⟩, rfl⟩)
    (by simp) hsp hl fun v₁ h₁ hst => ?_
  · rw [List.mem_singleton.mp he] at hk'
    have hk' : k' = k := hk'
    rwa [hk']
  · rw [List.append_nil] at h₁
    exact hΦ v₁ h₁ hst

/-- A task owns the active shard of a key, and the key has no previous entry. -/
structure Locked (env : Env K V) (sp : List (Event K V) → Prop) (gs : Guards K V)
    (ds : List (Event K V)) (cs : List Metric) (id : Nat) (k : K) (v : View K V L.State) :
    Prop where
  calm : Calm env sp gs ds cs v
  pinned : Pinned gs
  excl : OwnsExcl gs (.shard id)
  home : v.st.home env.hash k = some id
  prev : v.st.prevLookup env.hash k = none

namespace Locked

theorem reads (h : Locked env sp gs ds cs id k v) : Reads env.hash gs v.st k :=
  .inr ⟨h.pinned, by rw [h.home]; exact h.excl.owns⟩

theorem lookup (h : Locked env sp gs ds cs id k v) :
    (v.st.heap id).lookup k = v.st.contents env.hash k := by
  rw [State.contents, State.activeLookup, h.home, h.prev]
  simp

theorem edit (h : Locked env sp gs ds cs id k v) :
    Edit env v gs (v.st.contents env.hash) (fun k => v.st.prevLookup env.hash k = none) [] false
      v := by
  have := Edit.start h.calm.settled (h.calm.guards.symm ▸ h.calm.closed)
  rwa [h.calm.guards] at this

theorem aside (h : Locked env sp gs ds cs id k v) (ha : Aside env v v.gs cs' v') :
    Locked env sp gs ds (cs ++ cs') id k v' where
  calm := h.calm.aside_same ha
  pinned := h.pinned
  excl := h.excl
  home := (ha.core.tables.home k).trans h.home
  prev := (ha.core.tables.prevLookup k).trans h.prev

theorem contents (ha : Aside env v v.gs cs' v') :
    v'.st.contents env.hash k = v.st.contents env.hash k := ha.core.tables.contents k

theorem wp_get (h : Locked env sp gs ds cs id k v) {f : Option V → Prog K V α}
    (hΦ : (protocol env L alone).Wp (f (v.st.contents env.hash k)) v Φ) :
    (protocol env L alone).Wp (act (.get id k) >>= f) v Φ := by
  refine wp_quiet rfl (rule_get (.inr (h.calm.owns h.excl.owns)) ?_)
  rw [h.lookup]
  exact hΦ

section Write

variable {gs₀ : Guards K V} {f : Unit → Prog K V α}
  (h : Locked env sp (.lock (.shard id) .excl :: gs₀) ds cs id k v)

include h

theorem wp_commit (he : Edit env v (.lock (.shard id) .excl :: gs₀) c P cs' touched v')
    {e : Event K V} (hdata : e.isData) (hkeys : ∀ k', e.keys k' → k' = k)
    (heff : e.effect (v.st.contents env.hash) c) (hch : touched → e.changes) (hsp : sp (ds ++ [e]))
    (hΦ : ∀ v', Calm env sp gs₀ (ds ++ [e]) (cs ++ cs') v' →
      (protocol env L alone).Wp (f ()) v' Φ) :
    (protocol env L alone).Wp (act (.unlock (.shard id)) >>= f) v' Φ := by
  refine h.calm.wp_commit (l := .shard id) h.pinned he (by simpa using hdata) ?_
    (show Event.effects [e] _ _ from ⟨c, heff, rfl⟩) (by simpa using hch) hsp
    (fun he => by cases he) fun v₁ h₁ _ => ?_
  · intro e' he' k' hk'
    rw [List.mem_singleton.mp he'] at hk'
    exact hkeys k' hk' ▸ h.reads
  · rw [without_lock] at h₁
    exact hΦ v₁ h₁

theorem wp_observe (hsp : sp (ds ++ [Event.read k (v.st.contents env.hash k)]))
    (hΦ : ∀ v', Calm env sp gs₀ (ds ++ [Event.read k (v.st.contents env.hash k)]) cs v' →
      (protocol env L alone).Wp (f ()) v' Φ) :
    (protocol env L alone).Wp (act (.unlock (.shard id)) >>= f) v Φ := by
  refine h.calm.wp_observe (l := .shard id) h.pinned h.reads hsp (fun he => by cases he)
    fun v₁ h₁ _ => ?_
  rw [without_lock] at h₁
  exact hΦ v₁ h₁

theorem wp_insertLocked (x : V)
    (hsp : sp (ds ++ [Event.modify k (v.st.contents env.hash k) (some x)]))
    (hΦ : ∀ v', Calm env sp gs₀ (ds ++ [Event.modify k (v.st.contents env.hash k) (some x)])
      (cs ++ [Metric.inserts]) v' → (protocol env L alone).Wp (f ()) v' Φ) :
    (protocol env L alone).Wp (Sync.insertLocked env id k x >>= fun _ =>
      act (.unlock (.shard id)) >>= f) v Φ := by
  refine Protocol.Wp.bind ((Starshard.wp_insertLocked h.edit h.calm.closed h.pinned h.excl h.home
    h.prev x).mono fun _ v₁ e₁ => ?_)
  exact h.wp_commit (e := .modify k _ (some x)) e₁ rfl (fun _ h => h) ⟨rfl, rfl⟩
    (fun _ => trivial) hsp hΦ

theorem wp_removeLocked (hsp : sp (ds ++ [Event.removal k (v.st.contents env.hash k)]))
    (hΦ : ∀ v', Calm env sp gs₀ (ds ++ [Event.removal k (v.st.contents env.hash k)])
      (cs ++ if (v.st.contents env.hash k).isSome then [Metric.removes] else []) v' →
      (protocol env L alone).Wp (f ()) v' Φ) :
    (protocol env L alone).Wp (Sync.removeLocked env id k >>= fun _ =>
      act (.unlock (.shard id)) >>= f) v Φ := by
  refine Protocol.Wp.bind ((Starshard.wp_removeLocked h.edit h.calm.closed h.pinned h.excl h.home
    h.prev).mono fun _ v₁ e₁ => ?_)
  exact h.wp_commit e₁ (by simp) (fun _ => Event.keys_removal) (Event.effect_removal rfl)
    (fun ht => Event.changes_removal (by simpa using ht)) hsp hΦ

end Write

end Locked

section Promote

/-- A previous entry of a locked key is moved into its active shard. -/
theorem Calm.wp_promotePrevious (h : Calm env sp (.lock (.shard id) .excl :: gs) ds cs v)
    (hp : Pinned gs) (hfree : ∀ l, l.inner → ¬ Owns gs l) (hk : v.st.home env.hash k = some id) :
    (protocol env L alone).Wp (Sync.promotePrevious env k id) v fun _ v' =>
      Locked env sp (.lock (.shard id) .excl :: gs) ds cs id k v' := by
  have hp' : Pinned (.lock (.shard id) .excl :: gs) := List.mem_cons_of_mem _ hp
  have ho : OwnsExcl (.lock (.shard id) .excl :: gs) (.shard id) := List.mem_cons_self
  have hprev : ¬ Owns (.lock (.shard id) .excl :: gs) .previous := by
    simpa using hfree .previous rfl
  refine Protocol.Wp.bind ((h.wp_previousShard hp'.owns hprev k).mono
    fun r v₁ h₁ => ?_)
  obtain ⟨hr, h₁, k₁, _⟩ := h₁
  have hk₁ := k₁.home hp'.owns hk
  have hph := k₁.prevHome hp'.owns k
  cases r with
  | none =>
    refine ⟨h₁, hp', ho, hk₁, ?_⟩
    rw [State.prevLookup, hph, ← hr]
    rfl
  | some src =>
    have hsrc₁ : v₁.st.prevHome env.hash k = some src := hph.trans hr.symm
    have hne : id ≠ src := fun he =>
      (h₁.wellFormed hp'.owns).home_ne_prevHome hk₁ (he ▸ hsrc₁)
    have hnot : ¬ Owns (.lock (.shard id) .excl :: gs) (.shard src) := by
      rw [owns_lock]
      exact fun h => h.elim (fun he => hne (LockId.shard.inj he).symm) (hfree _ rfl)
    refine wp_lock_calm h₁ (fun _ => hp'.owns) (free_of_not_owns hnot) (fun he => by cases he)
      (fun _ hid _ => LockId.shard.inj hid ▸ State.live_of_prevHome hsrc₁) fun v₂ h₂ k₂ _ => ?_
    have hp₂ : Pinned (.lock (.shard src) .excl :: .lock (.shard id) .excl :: gs) :=
      List.mem_cons_of_mem _ hp'
    have ho₂ : OwnsExcl (.lock (.shard src) .excl :: .lock (.shard id) .excl :: gs) (.shard id) :=
      List.mem_cons_of_mem _ ho
    have hs₂ : OwnsExcl (.lock (.shard src) .excl :: .lock (.shard id) .excl :: gs) (.shard src) :=
      List.mem_cons_self
    have hk₂ := k₂.home hp'.owns hk₁
    have hsrc₂ := (k₂.prevHome hp'.owns k).trans hsrc₁
    refine wp_user h₂.settled (wp_quiet rfl (rule_get (.inr (h₂.owns hs₂.owns)) ?_))
    have hlookup : v₂.st.prevLookup env.hash k = (v₂.st.heap src).lookup k := by
      rw [State.prevLookup, hsrc₂]
      rfl
    have hend : ∀ w, Calm env sp (.lock (.shard src) .excl :: .lock (.shard id) .excl :: gs) ds cs w →
        w.st.home env.hash k = some id → w.st.prevLookup env.hash k = none →
        (protocol env L alone).Wp (act (.unlock (.shard src))) w fun _ v' =>
          Locked env sp (.lock (.shard id) .excl :: gs) ds cs id k v' := by
      intro w hw hhome hnone
      refine wp_last (wp_unlock_calm hw (fun he => by cases he) fun v₄ h₄ w₄ _ => ?_)
      rw [without_lock] at h₄
      exact ⟨h₄, hp', ho, by rw [w₄]; exact hhome, by rw [w₄]; exact hnone⟩
    cases hfound : (v₂.st.heap src).lookup k with
    | none => exact hend v₂ h₂ hk₂ (hlookup.trans hfound)
    | some x =>
      have hstart := Edit.start h₂.settled (h₂.guards.symm ▸ h₂.closed)
      rw [h₂.guards] at hstart
      refine Protocol.Wp.bind ((wp_promoteEntry hstart h₂.closed hp₂ ho₂ hs₂ hk₂ hsrc₂).mono
        fun _ v₃ e₃ => ?_)
      have h₃ := h₂.of_edit hp₂ e₃
      rw [List.append_nil] at h₃
      exact hend v₃ h₃ ((e₃.home k).trans hk₂) (e₃.prev k (.inr rfl))

/-- The active shard of a key is found, or made, and locked. -/
theorem Calm.wp_lockHome (h : Calm env sp gs ds cs v) (hp : Pinned gs)
    (hfree : ∀ l, l.inner → ¬ Owns gs l) {f : Nat → Prog K V α}
    (hΦ : ∀ id v', Calm env sp (.lock (.shard id) .excl :: gs) ds cs v' →
      v'.st.home env.hash k = some id → (protocol env L alone).Wp (f id) v' Φ) :
    (protocol env L alone).Wp (do
      let shard ← getOrInitShard (← shardIndex env k)
      act (.lock (.shard shard) .excl)
      f shard) v Φ := by
  refine Protocol.Wp.bind ((h.wp_shardIndex hp.owns k).mono fun r v₁ ⟨hr, he⟩ => ?_)
  subst he hr
  have hlt := Nat.mod_lt (env.hash k) (h.wellFormed hp.owns).count_pos
  refine Protocol.Wp.bind ((h.wp_getOrInitShard hp (hfree _ rfl) hlt).mono
    fun id v₂ ⟨hid, h₂, k₂⟩ => ?_)
  have hk : v₂.st.home env.hash k = some id := by
    rw [State.home_eq_some, Agree.shardCount k₂ hp.owns]
    exact hid
  refine wp_lock_calm h₂ (fun _ => hp.owns) (free_of_not_owns (hfree _ rfl)) nofun
    (fun _ heq _ => LockId.shard.inj heq ▸ State.live_of_home hk) fun v₃ h₃ k₃ _ => ?_
  exact hΦ id v₃ h₃ (k₃.home hp.owns hk)

theorem Calm.wp_lockKey (h : Calm env sp gs ds cs v) (hp : Pinned gs)
    (hfree : ∀ l, l.inner → ¬ Owns gs l) (k : K) :
    (protocol env L alone).Wp (Sync.lockKey env k) v fun id v' =>
      Locked env sp (.lock (.shard id) .excl :: gs) ds cs id k v' := by
  refine h.wp_lockHome hp hfree fun id v₁ h₁ hk => ?_
  exact Protocol.Wp.bind ((h₁.wp_promotePrevious hp hfree hk).mono fun _ _ h => h)

end Promote

end Starshard
