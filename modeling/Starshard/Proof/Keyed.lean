import Starshard.Proof.Evict
import Starshard.Spec.Call

/-! The single-key operations, from their call to their return. Each of them
commits one event; maintenance may follow it with evictions. -/
namespace Starshard

open Data Concurrent
open Function (update)

variable {K V R : Type} [DecidableEq K] {env : Env K V} {L : Lifecycle K V} {alone : Prop}
  {v : View K V L.State} {sp : List (Event K V) → Prop} {gs : Guards K V}
  {ds : List (Event K V)} {cs : List Metric} {k : K} {id : Nat}

theorem Calm.initial (h : (protocol env L alone).initial v) : Calm env v.spec [] [] [] v := by
  obtain ⟨hg, he, -⟩ := h
  refine ⟨⟨fun hr => ?_, fun hx => ?_, fun id hid => ?_, fun k hk => ?_⟩,
    ⟨?_, ?_, fun l _ ho => ?_, fun hp => ?_⟩, hg, rfl, by rw [he]; rfl, by rw [he]; rfl,
    by simp [he]⟩
  · rw [hg] at hr
    simp [Owns] at hr
  · rw [hg] at hx
    simp [Exclusive] at hx
  · rw [hg] at hid
    simp [Exclusive, Owns] at hid
  · rw [hg] at hk
    simp [Reads, Exclusive, Pinned] at hk
  · rw [hg]
    trivial
  · rw [hg]
    exact fun _ => rfl
  · rw [hg] at ho
    simp [Owns] at ho
  · rw [hg] at hp
    simp [Pinned] at hp

section Reading

omit [DecidableEq K] in
theorem pinned_free (tail : Guards K V) (ht : ∀ x ∈ tail, x.isPlain) (l : LockId) (hl : l.inner) :
    ¬ Owns (.lock .routing .shared :: tail) l := by
  rw [owns_lock]
  rintro (rfl | ⟨m, hm⟩)
  · cases hl
  · cases ht _ hm

/-- The entry of a key is what its active shard has, or else the previous one. -/
theorem contents_of_active {s : State K V L.State} {x : V}
    (h : s.activeLookup env.hash k = some x) : s.contents env.hash k = some x := by
  rw [State.contents, h]
  rfl

omit [DecidableEq K] in
theorem Reads.core {s s' : State K V L.State} (h : Reads env.hash gs s k)
    (hs : State.SameCore s s') : Reads env.hash gs s' k := by
  unfold Reads at h ⊢
  rwa [hs.tables.home]

theorem Calm.wp_readPrevious (h : Calm env sp gs ds cs v) (hr : Reads env.hash gs v.st k)
    (hp : ¬ Owns gs .previous) (hs : ∀ src, v.st.prevHome env.hash k = some src →
      ¬ Owns gs (.shard src)) (ha : v.st.activeLookup env.hash k = none) (read : V → R) :
    (protocol env L alone).Wp (Sync.readPrevious env k read) v fun r v' =>
      r = (v'.st.contents env.hash k).map read ∧ Reads env.hash gs v'.st k ∧
        Calm env sp gs ds (cs ++ readCounts (v'.st.contents env.hash k).isSome) v' := by
  have hrouting := hr.routing
  refine Protocol.Wp.bind ((h.wp_previousShard hrouting hp k).mono ?_)
  rintro r v₁ ⟨hprev, h₁, k₁, _⟩
  have hr₁ := Agree.reads k₁ hr
  have ha₁ := (Agree.activeLookup k₁ hr).trans ha
  have hph₁ := (k₁.prevHome hrouting k).trans hprev.symm
  cases r with
  | none =>
    have hnone : v₁.st.contents env.hash k = none := by
      rw [State.contents, ha₁, State.prevLookup, hph₁]
      rfl
    refine (h₁.wp_trackedRead k none read).mono ?_
    rintro r v₂ ⟨hread, h₂, s₂⟩
    have hc₂ : v₂.st.contents env.hash k = none := (s₂.tables.contents k).trans hnone
    exact ⟨by rw [hc₂]; exact hread, hr₁.core s₂, by rw [hc₂]; exact h₂⟩
  | some src =>
    have hnot := hs src hprev.symm
    refine wp_lock_calm h₁ (fun _ => hrouting) (free_of_not_owns hnot) (fun he => by cases he)
      (fun _ hid _ => LockId.shard.inj hid ▸ State.live_of_prevHome hph₁) fun v₂ h₂ k₂ _ => ?_
    have hr₂ := Agree.reads k₂ hr₁
    have ha₂ := (Agree.activeLookup k₂ hr₁).trans ha₁
    have hph₂ := (k₂.prevHome hrouting k).trans hph₁
    have hc₂ : (v₂.st.heap src).lookup k = v₂.st.contents env.hash k := by
      rw [State.contents, ha₂, State.prevLookup, hph₂]
      rfl
    refine wp_user h₂.settled (wp_quiet rfl (rule_get (.inr (h₂.owns ⟨.shared, by simp⟩)) ?_))
    rw [hc₂]
    refine Protocol.Wp.bind ((h₂.wp_trackedRead k _ read).mono ?_)
    rintro r v₃ ⟨hread, h₃, s₃⟩
    refine wp_unlock_calm h₃ (fun he => by cases he) fun v₄ h₄ w₄ _ => ?_
    rw [without_lock] at h₄
    have hc₄ : v₄.st.contents env.hash k = v₂.st.contents env.hash k := by
      rw [w₄]
      exact s₃.tables.contents k
    exact ⟨by rw [hc₄]; exact hread, by rw [w₄]; exact hr₂.core s₃, by rw [hc₄]; exact h₄⟩

/-- A lookup of a key whose routing is pinned commits what it finds. -/
theorem Calm.wp_readInner (h : Calm env sp gs ds cs v) (hp : Pinned gs)
    (hfree : ∀ l, l.inner → ¬ Owns gs l) (hsp : ∀ found, sp (ds ++ [Event.read k found]))
    (read : V → R) :
    (protocol env L alone).Wp (Sync.readInner env k read) v fun r v' =>
      ∃ found, r = found.map read ∧
        Calm env sp gs (ds ++ [Event.read k found]) (cs ++ readCounts found.isSome) v' := by
  refine wp_lock_calm h (fun _ => hp.owns) (free_of_not_owns (hfree _ rfl))
    (fun he => by cases he) (fun _ he => by cases he) fun v₁ h₁ _ _ => ?_
  have hp₁ : Pinned (.lock .active .shared :: gs) := List.mem_cons_of_mem _ hp
  have ha₁ : Owns (.lock .active .shared :: gs) .active := ⟨.shared, by simp⟩
  refine Protocol.Wp.bind ((h₁.wp_shardIndex hp₁.owns k).mono ?_)
  rintro index v₂ ⟨hindex, he⟩
  subst he hindex
  refine wp_quiet rfl (rule_shards (.inr ⟨h₁.owns hp₁.owns, h₁.owns ha₁⟩) ?_)
  have hlt := (h₁.wellFormed hp₁.owns).index_lt k
  have hslot := List.getElem?_eq_getElem hlt
  rw [hslot]
  cases hid : v₂.st.shards[env.hash k % v₂.st.shardCount] with
  | none =>
    have hhome : v₂.st.home env.hash k = none := by
      rw [State.home, hslot, hid]
      rfl
    have hr : Reads env.hash (.lock .active .shared :: gs) v₂.st k :=
      .inr ⟨hp₁, by rw [hhome]; exact ha₁⟩
    have hactive : v₂.st.activeLookup env.hash k = none := by
      rw [State.activeLookup, hhome]
      rfl
    refine Protocol.Wp.bind ((h₁.wp_readPrevious hr (by simpa using hfree .previous rfl)
      (fun src _ => by simpa using hfree (.shard src) rfl) hactive read).mono ?_)
    rintro r v₃ ⟨hread, hr₃, h₃⟩
    refine h₃.wp_observe (l := .active) hp₁ hr₃ (hsp _) (fun he => by cases he) fun v₄ h₄ _ => ?_
    rw [without_lock] at h₄
    exact ⟨_, hread, h₄⟩
  | some shard =>
    have hhome : v₂.st.home env.hash k = some shard := by
      rw [State.home, hslot, hid]
      rfl
    refine wp_unlock_calm h₁ (fun he => by cases he) fun v₃ h₃ w₃ _ => ?_
    rw [without_lock] at h₃
    have hhome₃ : v₃.st.home env.hash k = some shard := by rw [w₃]; exact hhome
    refine wp_lock_calm h₃ (fun _ => hp.owns) (free_of_not_owns (hfree _ rfl))
      (fun he => by cases he) (fun _ heq _ => LockId.shard.inj heq ▸ State.live_of_home hhome₃)
      fun v₄ h₄ k₄ _ => ?_
    have hp₄ : Pinned (.lock (.shard shard) .shared :: gs) := List.mem_cons_of_mem _ hp
    have ho₄ : Owns (.lock (.shard shard) .shared :: gs) (.shard shard) := ⟨.shared, by simp⟩
    have hhome₄ := k₄.home hp.owns hhome₃
    have hr₄ : Reads env.hash (.lock (.shard shard) .shared :: gs) v₄.st k :=
      .inr ⟨hp₄, by rw [hhome₄]; exact ho₄⟩
    have hlookup : v₄.st.activeLookup env.hash k = (v₄.st.heap shard).lookup k := by
      rw [State.activeLookup, hhome₄]
      rfl
    refine wp_user h₄.settled (wp_quiet rfl (rule_get (.inr (h₄.owns ho₄)) ?_))
    cases hfound : (v₄.st.heap shard).lookup k with
    | some x =>
      have hc₄ := contents_of_active (hlookup.trans hfound)
      refine Protocol.Wp.bind ((h₄.wp_trackedRead k (some x) read).mono ?_)
      rintro r v₅ ⟨hread, h₅, s₅⟩
      have hc₅ : v₅.st.contents env.hash k = some x := (s₅.tables.contents k).trans hc₄
      refine h₅.wp_observe (l := .shard shard) hp₄ (hr₄.core s₅) (hsp _) (fun he => by cases he)
        fun v₆ h₆ _ => ?_
      rw [without_lock, hc₅] at h₆
      exact ⟨some x, hread, h₆⟩
    | none =>
      have hnot : ∀ src, v₄.st.prevHome env.hash k = some src →
          ¬ Owns (.lock (.shard shard) .shared :: gs) (.shard src) := by
        intro src hsrc
        rw [owns_lock]
        rintro (he | ho)
        · exact (h₄.wellFormed hp₄.owns).home_ne_prevHome hhome₄ (LockId.shard.inj he ▸ hsrc)
        · exact hfree _ rfl ho
      refine Protocol.Wp.bind ((h₄.wp_readPrevious hr₄ (by simpa using hfree .previous rfl) hnot
        (hlookup.trans hfound) read).mono ?_)
      rintro r v₅ ⟨hread, hr₅, h₅⟩
      refine h₅.wp_observe (l := .shard shard) hp₄ hr₅ (hsp _) (fun he => by cases he)
        fun v₆ h₆ _ => ?_
      rw [without_lock] at h₆
      exact ⟨_, hread, h₆⟩

theorem Calm.wp_readWith (h : Calm env sp [] ds cs v)
    (hsp : ∀ found, sp (ds ++ [Event.read k found])) (read : V → R) :
    (protocol env L alone).Wp (Sync.readWith env k read) v fun r v' =>
      ∃ found, r = found.map read ∧
        Calm env sp [] (ds ++ [Event.read k found]) (cs ++ readCounts found.isSome) v' := by
  refine wp_lock_calm h (fun he => by cases he) (by simp) (fun _ l _ => by simp [Owns])
    (fun _ he => by cases he) fun v₁ h₁ _ _ => ?_
  have hfree := pinned_free (K := K) (V := V) [] (by simp)
  refine Protocol.Wp.bind ((h₁.wp_readInner List.mem_cons_self hfree hsp read).mono ?_)
  rintro r v₂ ⟨found, hread, h₂⟩
  refine wp_unlock_calm h₂ (fun _ l hl => hfree l hl) fun v₃ h₃ _ _ => ?_
  rw [without_lock] at h₃
  exact ⟨found, hread, h₃⟩

end Reading
section Writing

variable {α : Type} {Φ : α → View K V L.State → Prop}

abbrev routed (m : Mode) : Guards K V := [.lock .routing m, .operation]

omit [DecidableEq K] in
theorem routed_free (m : Mode) (l : LockId) (hl : l.inner) :
    ¬ Owns (routed (K := K) (V := V) m) l := by
  rw [owns_lock]
  rintro (rfl | ⟨n, hn⟩)
  · cases hl
  · simp at hn

/-- Every operation that may change the map opens its scope and locks routing. -/
theorem Calm.wp_enter {m : Mode} (h : Calm env sp [] ds cs v) {f : Unit → Prog K V α}
    (hΦ : ∀ v', Calm env sp (routed m) ds cs v' → (protocol env L alone).Wp (f ()) v' Φ) :
    (protocol env L alone).Wp (act (.push .operation) >>= fun _ =>
      act (.lock .routing m) >>= f) v Φ := by
  refine h.wp_push rfl fun v₁ h₁ _ => ?_
  exact wp_lock_calm h₁ (fun he => by cases he) (by simp [Guard.excludes]) (fun _ l _ => by simp [Owns])
    (fun _ he => by cases he) fun v₂ h₂ _ _ => hΦ v₂ h₂

variable (hp : Pinned gs) (hfree : ∀ l, l.inner → ¬ Owns gs l)

include hp hfree

theorem Calm.wp_insertInner (h : Calm env sp gs ds cs v) {x : V}
    (hsp : ∀ old, sp (ds ++ [Event.modify k old (some x)])) :
    (protocol env L alone).Wp (Sync.insertInner env k x) v fun old v' =>
      Calm env sp gs (ds ++ [Event.modify k old (some x)]) (cs ++ [.inserts]) v' := by
  refine h.wp_lockHome hp hfree fun id v₁ h₁ hk => ?_
  refine Protocol.Wp.bind ((h₁.wp_promotePrevious hp hfree hk).mono fun _ v₂ h₂ => ?_)
  refine wp_user h₂.calm.settled (Protocol.Wp.bind ?_)
  refine (wp_new h₂.edit h₂.calm.closed h₂.excl h₂.pinned (h₂.edit.active h₂.home)).mono
    fun _ v₃ ⟨n, e₃⟩ => Protocol.Wp.bind ?_
  refine (wp_trackedInsert e₃ h₂.calm.closed h₂.home h₂.prev x).mono fun old v₄ ⟨hold, e₄⟩ => ?_
  refine Protocol.Wp.bind ((wp_close e₄ h₂.calm.closed).mono fun _ v₅ e₅ => ?_)
  refine h₂.wp_commit (e := .modify k _ (some x)) e₅ rfl (fun _ h => h) ⟨rfl, rfl⟩
    (fun _ => trivial) (hsp _) fun v₆ h₆ => ?_
  rw [hold]
  exact h₆

theorem Calm.wp_removeFrom (h : Calm env sp gs ds cs v) (hk : v.st.home env.hash k = some id)
    (hsp : ∀ old, sp (ds ++ [Event.removal k old])) :
    (protocol env L alone).Wp (Sync.removeFrom env id k) v fun old v' =>
      Calm env sp gs (ds ++ [Event.removal k old])
        (cs ++ if old.isSome then [Metric.removes] else []) v' := by
  refine wp_lock_calm h (fun _ => hp.owns) (free_of_not_owns (hfree _ rfl))
    (fun he => by cases he) (fun _ heq _ => LockId.shard.inj heq ▸ State.live_of_home hk)
    fun v₁ h₁ k₁ _ => ?_
  refine Protocol.Wp.bind ((h₁.wp_promotePrevious hp hfree (k₁.home hp.owns hk)).mono
    fun _ v₂ h₂ => ?_)
  refine wp_user h₂.calm.settled (h₂.wp_get ?_)
  split
  · next hmiss =>
    have hnone : v₂.st.contents env.hash k = none := by simpa using hmiss.2
    refine h₂.wp_observe (by rw [hnone]; exact hsp none) fun v₃ h₃ => ?_
    rw [hnone, ← List.append_nil cs] at h₃
    exact h₃
  · refine wp_user h₂.calm.settled (Protocol.Wp.bind ?_)
    refine (wp_new h₂.edit h₂.calm.closed h₂.excl h₂.pinned (h₂.edit.active h₂.home)).mono ?_
    rintro _ v₃ ⟨n, e₃⟩
    refine Protocol.Wp.bind ?_
    refine (wp_trackedRemove e₃ h₂.home h₂.prev).mono ?_
    rintro old v₄ ⟨hold, e₄⟩
    refine Protocol.Wp.bind ((wp_close e₄ h₂.calm.closed).mono fun _ v₅ e₅ => ?_)
    refine h₂.wp_commit e₅ (by simp) (fun _ => Event.keys_removal) (Event.effect_removal rfl)
      (fun ht => Event.changes_removal (by simpa using ht)) (hsp _) fun v₆ h₆ => ?_
    rw [hold]
    exact h₆

/-- A missing active slot of an idle map means a missing key. -/
theorem Calm.wp_removeInner (h : Calm env sp gs ds cs v)
    (hsp : ∀ old, sp (ds ++ [Event.removal k old])) :
    (protocol env L alone).Wp (Sync.removeInner env k) v fun old v' =>
      Calm env sp gs (ds ++ [Event.removal k old])
        (cs ++ if old.isSome then [Metric.removes] else []) v' := by
  refine wp_lock_calm h (fun _ => hp.owns) (free_of_not_owns (hfree _ rfl))
    (fun he => by cases he) (fun _ he => by cases he) fun v₁ h₁ _ _ => ?_
  have hp₁ : Pinned (.lock .active .shared :: gs) := List.mem_cons_of_mem _ hp
  have ha₁ : Owns (.lock .active .shared :: gs) .active := ⟨.shared, by simp⟩
  refine Protocol.Wp.bind ((h₁.wp_shardIndex hp₁.owns k).mono ?_)
  rintro index v₂ ⟨hindex, he⟩
  subst he hindex
  have hw := h₁.wellFormed hp₁.owns
  refine wp_quiet rfl (rule_shards (.inr ⟨h₁.owns hp₁.owns, h₁.owns ha₁⟩) ?_)
  have hlt := hw.index_lt k
  have hslot := List.getElem?_eq_getElem hlt
  rw [hslot]
  cases hid : v₂.st.shards[env.hash k % v₂.st.shardCount] with
  | some shard =>
    have hhome : v₂.st.home env.hash k = some shard := by
      rw [State.home, hslot, hid]
      rfl
    refine wp_unlock_calm h₁ (fun he => by cases he) fun v₃ h₃ w₃ _ => ?_
    rw [without_lock] at h₃
    exact h₃.wp_removeFrom hp hfree (by rw [w₃]; exact hhome) hsp
  | none =>
    have hhome : v₂.st.home env.hash k = none := by
      rw [State.home, hslot, hid]
      rfl
    refine wp_quiet rfl (rule_previousShardCount (h₁.owns hp₁.owns) ?_)
    by_cases hz : v₂.st.previousShardCount = 0
    · have hr : Reads env.hash (.lock .active .shared :: gs) v₂.st k :=
        .inr ⟨hp₁, by rw [hhome]; exact ha₁⟩
      have hnone : v₂.st.contents env.hash k = none := by
        rw [State.contents, State.activeLookup, hhome, State.prevLookup, State.prevHome,
          hw.previous_none.mpr hz, slotAt_none]
        rfl
      rw [if_pos hz]
      refine h₁.wp_observe (l := .active) hp₁ hr (by rw [hnone]; exact hsp none)
        (fun he => by cases he) fun v₃ h₃ _ => ?_
      rw [without_lock, hnone, ← List.append_nil cs] at h₃
      exact h₃
    · refine wp_unlock_calm h₁ (fun he => by cases he) fun v₃ h₃ _ _ => ?_
      rw [without_lock] at h₃
      rw [if_neg hz]
      refine Protocol.Wp.bind ((h₃.wp_shardIndex hp.owns k).mono ?_)
      rintro index v₄ ⟨hindex, he⟩
      subst he hindex
      have hlt := Nat.mod_lt (env.hash k) (h₃.wellFormed hp.owns).count_pos
      refine Protocol.Wp.bind ((h₃.wp_getOrInitShard hp (hfree _ rfl) hlt).mono ?_)
      rintro shard v₅ ⟨hshard, h₅, k₅⟩
      refine h₅.wp_removeFrom hp hfree ?_ hsp
      rw [State.home_eq_some, Agree.shardCount k₅ hp.owns]
      exact hshard

end Writing
section Calls

variable {call : KeyCall K V} {x : V}

/-- The specification allows what a call on one key commits, and evictions after it. -/
def Allows (env : Env K V) (sp : List (Event K V) → Prop) (ds : List (Event K V))
    (call : KeyCall K V) : Prop :=
  ∀ old, Lenient env sp (ds ++ [(call.outcome env.valueEq old).event])

/-- The call answered from the entry it found, committed its event, and released its guards. -/
def Ended (env : Env K V) (sp : List (Event K V) → Prop) (ds : List (Event K V))
    (cs : List Metric) (call : KeyCall K V) (answer : Answer K V) (v : View K V L.State) : Prop :=
  ∃ old, answer = (call.outcome env.valueEq old).answer ∧
    Maintained env sp [] (ds ++ [(call.outcome env.valueEq old).event])
      (cs ++ (call.outcome env.valueEq old).counts) v

omit [DecidableEq K] in
theorem Allows.now (h : Allows env sp ds call) (old : Option V) :
    sp (ds ++ [(call.outcome env.valueEq old).event]) := by
  simpa using h old [] ⟨fun _ => rfl, by simp⟩

omit [DecidableEq K] in
theorem routed_pinned : Pinned (routed (K := K) (V := V) .shared) := List.mem_cons_self

theorem Calm.wp_ended {m : Mode} {old : Option V} {answer : Answer K V} {event : Event K V}
    {counts : List Metric} (ho : call.outcome env.valueEq old = ⟨answer, event, counts⟩)
    (h : Calm env sp (routed m) (ds ++ [event]) (cs ++ counts) v) (hsp : Allows env sp ds call)
    {R : Type} (result : R) (f : R → Answer K V) (ha : f result = answer) :
    (protocol env L alone).Wp (Sync.leave env result) v fun r v' =>
      Ended env sp ds cs call (f r) v' := by
  have hlenient := hsp old
  rw [ho] at hlenient
  refine (h.wp_leave hlenient result).mono fun r v₁ ⟨hr, h₁⟩ => ⟨old, ?_, ?_⟩
  · rw [hr, ha, ho]
  · rw [ho]
    exact h₁

theorem Calm.wp_insert (h : Calm env sp [] ds cs v) (hsp : Allows env sp ds (.insert k x)) :
    (protocol env L alone).Wp (Sync.insert env k x) v fun r v' =>
      Ended env sp ds cs (.insert k x) (.value r) v' := by
  refine h.wp_enter fun v₁ h₁ => ?_
  refine Protocol.Wp.bind ((h₁.wp_insertInner routed_pinned (routed_free _) hsp.now).mono
    fun old v₂ h₂ => ?_)
  have ho : (KeyCall.insert k x).outcome env.valueEq old = _ := rfl
  exact Calm.wp_ended ho h₂ hsp old .value rfl

theorem Calm.wp_remove (h : Calm env sp [] ds cs v) (hsp : Allows env sp ds (.remove k)) :
    (protocol env L alone).Wp (Sync.remove env k) v fun r v' =>
      Ended env sp ds cs (.remove k) (.value r) v' := by
  refine h.wp_enter fun v₁ h₁ => ?_
  refine Protocol.Wp.bind ((h₁.wp_removeInner routed_pinned (routed_free _) hsp.now).mono
    fun old v₂ h₂ => ?_)
  have ho : (KeyCall.remove k).outcome env.valueEq old = _ := rfl
  exact Calm.wp_ended ho h₂ hsp old .value rfl

theorem Locked.core {v' : View K V L.State} {cs' : List Metric} (h : Locked env sp gs ds cs id k v)
    (h' : Calm env sp gs ds cs' v') (hs : State.SameCore v.st v'.st) :
    Locked env sp gs ds cs' id k v' :=
  ⟨h', h.pinned, h.excl, (hs.tables.home k).trans h.home, (hs.tables.prevLookup k).trans h.prev⟩

theorem Locked.wp_leaveEarly {R : Type}
    (h : Locked env sp (.lock (.shard id) .excl :: routed .shared) ds cs id k v)
    (hsp : sp (ds ++ [Event.read k (v.st.contents env.hash k)])) (result : R) :
    (protocol env L alone).Wp (Sync.leaveEarly id result) v fun r v' => r = result ∧
      Calm env sp [] (ds ++ [Event.read k (v.st.contents env.hash k)]) cs v' := by
  refine h.wp_observe hsp fun v₁ h₁ => ?_
  refine wp_unlock_calm h₁ (fun _ l hl => routed_free _ l hl) fun v₂ h₂ _ _ => ?_
  rw [without_lock] at h₂
  exact h₂.wp_pop rfl fun v₃ h₃ _ => ⟨rfl, h₃⟩

theorem Calm.wp_lookup {α : Type} {Φ : α → View K V L.State → Prop} (h : Calm env sp [] ds cs v)
    {f : Nat → Option V → Prog K V α}
    (hΦ : ∀ id v', Locked env sp (.lock (.shard id) .excl :: routed .shared) ds cs id k v' →
      (protocol env L alone).Wp (f id (v'.st.contents env.hash k)) v' Φ) :
    (protocol env L alone).Wp (do
      act (.push .operation)
      act (.lock .routing .shared)
      let shard ← Sync.lockKey env k
      act .user
      let current : Option V ← act (.get shard k)
      f shard current) v Φ := by
  refine h.wp_enter fun v₁ h₁ => ?_
  refine Protocol.Wp.bind ((h₁.wp_lockKey routed_pinned (routed_free _) k).mono
    fun id v₂ h₂ => ?_)
  exact wp_user h₂.calm.settled (h₂.wp_get (hΦ id v₂ h₂))

theorem Locked.wp_recorded (h : Locked env sp gs ds cs id k v) (value : Option V) (read : V → R) :
    (protocol env L alone).Wp (Sync.trackedRead k value read) v fun r v' =>
      r = value.map read ∧ v'.st.contents env.hash k = v.st.contents env.hash k ∧
        Locked env sp gs ds (cs ++ lookupCounts value.isSome) id k v' :=
  (h.calm.wp_trackedRead k value read).mono fun _ _ ⟨hr, hc, hs⟩ =>
    ⟨hr, hs.tables.contents k, h.core hc hs⟩

theorem Calm.wp_getOrInsertWith (h : Calm env sp [] ds cs v) (f : Unit → V)
    (hsp : Allows env sp ds (.getOrInsertWith k f)) :
    (protocol env L alone).Wp (Sync.getOrInsertWith env k f) v fun r v' =>
      Ended env sp ds cs (.getOrInsertWith k f) (.entry r.1 r.2) v' := by
  refine h.wp_lookup fun id v₁ h₁ => ?_
  refine Protocol.Wp.bind ((h₁.wp_recorded _ _).mono fun r v₂ ⟨hr, hc₂, h₂⟩ => ?_)
  rw [Option.map_id_fun, id_eq] at hr
  cases hcur : v₁.st.contents env.hash k with
  | some x =>
    rw [hcur] at hr hc₂ h₂
    subst hr
    refine (h₂.wp_leaveEarly (by rw [hc₂]; exact hsp.now (some x)) _).mono
      fun r v₃ ⟨hr, h₃⟩ => ⟨some x, by rw [hr]; rfl, ?_⟩
    rw [hc₂] at h₃
    exact h₃.maintained
  | none =>
    rw [hcur] at hr hc₂ h₂
    subst hr
    refine wp_user h₂.calm.settled ?_
    refine h₂.wp_insertLocked (f ()) (by rw [hc₂]; exact hsp.now none) fun v₃ h₃ => ?_
    rw [hc₂, List.append_assoc] at h₃
    have ho : (KeyCall.getOrInsertWith k f).outcome env.valueEq none = _ := rfl
    exact Calm.wp_ended ho h₃ hsp (f (), true)
      (fun r => .entry r.1 r.2) rfl

theorem Calm.wp_computeIfPresent (h : Calm env sp [] ds cs v) (f : V → Option V)
    (hsp : Allows env sp ds (.computeIfPresent k f)) :
    (protocol env L alone).Wp (Sync.computeIfPresent env k f) v fun r v' =>
      Ended env sp ds cs (.computeIfPresent k f) (.value r) v' := by
  refine h.wp_lookup fun id v₁ h₁ => ?_
  refine Protocol.Wp.bind ((h₁.wp_recorded _ _).mono fun r v₂ ⟨hr, hc₂, h₂⟩ => ?_)
  cases hcur : v₁.st.contents env.hash k with
  | none =>
    rw [hcur] at hr hc₂ h₂
    subst hr
    refine (h₂.wp_leaveEarly (by rw [hc₂]; exact hsp.now none) _).mono
      fun r v₃ ⟨hr, h₃⟩ => ⟨none, by rw [hr]; rfl, ?_⟩
    rw [hc₂] at h₃
    exact h₃.maintained
  | some x =>
    rw [hcur] at hr hc₂ h₂
    subst hr
    have hnow := hsp.now (some x)
    rw [Option.map_some]
    cases hf : f x with
    | some y =>
      have ho : (KeyCall.computeIfPresent k f).outcome env.valueEq (some x) =
          ⟨.value (some y), .modify k (some x) (some y), lookupCounts true ++ [.inserts]⟩ := by
        simp only [KeyCall.outcome, hf]
      rw [ho] at hnow
      refine h₂.wp_insertLocked y (by rw [hc₂]; exact hnow) fun v₃ h₃ => ?_
      rw [hc₂, List.append_assoc] at h₃
      exact Calm.wp_ended ho h₃ hsp (some y) .value rfl
    | none =>
      have ho : (KeyCall.computeIfPresent k f).outcome env.valueEq (some x) =
          ⟨.value none, .modify k (some x) none, lookupCounts true ++ [.removes]⟩ := by
        simp only [KeyCall.outcome, hf]
      rw [ho] at hnow
      refine h₂.wp_removeLocked (by rw [hc₂]; exact hnow) fun v₃ h₃ => ?_
      rw [hc₂, List.append_assoc] at h₃
      exact Calm.wp_ended ho h₃ hsp none .value rfl

theorem Locked.wp_recordedRead (h : Locked env sp gs ds cs id k v) (hit : Bool) :
    (protocol env L alone).Wp (LifecycleState.recordRead (V := V) k hit) v fun _ v' =>
      v'.st.contents env.hash k = v.st.contents env.hash k ∧
        Locked env sp gs ds (cs ++ lookupCounts hit) id k v' :=
  (h.calm.wp_recordRead k hit).mono fun _ _ ⟨hc, hs⟩ => ⟨hs.tables.contents k, h.core hc hs⟩

theorem Calm.wp_compareAndSwap (h : Calm env sp [] ds cs v) (expected new : V)
    (hsp : Allows env sp ds (.compareAndSwap k expected new)) :
    (protocol env L alone).Wp (Sync.compareAndSwap env k expected new) v fun r v' =>
      Ended env sp ds cs (.compareAndSwap k expected new) (.swap r) v' := by
  refine h.wp_lookup fun id v₁ h₁ => ?_
  refine Protocol.Wp.bind ((h₁.wp_recordedRead _).mono fun _ v₂ ⟨hc₂, h₂⟩ => ?_)
  refine wp_user h₂.calm.settled ?_
  cases hcur : v₁.st.contents env.hash k with
  | none =>
    rw [hcur] at hc₂ h₂
    refine h₂.wp_observe (by rw [hc₂]; exact hsp.now none) fun v₃ h₃ => ?_
    rw [hc₂] at h₃
    have ho : (KeyCall.compareAndSwap k expected new).outcome env.valueEq none = _ := rfl
    exact Calm.wp_ended ho h₃ hsp
      (.failure new) .swap rfl
  | some x =>
    rw [hcur] at hc₂ h₂
    have hnow := hsp.now (some x)
    dsimp only
    by_cases heq : env.valueEq x expected = true
    · have ho : (KeyCall.compareAndSwap k expected new).outcome env.valueEq (some x) =
          ⟨.swap (.success new), .modify k (some x) (some new),
            lookupCounts true ++ [.inserts]⟩ := if_pos heq
      rw [ho] at hnow
      rw [if_pos heq]
      refine h₂.wp_insertLocked new (by rw [hc₂]; exact hnow) fun v₃ h₃ => ?_
      rw [hc₂, List.append_assoc] at h₃
      exact Calm.wp_ended ho h₃ hsp (.success new) .swap rfl
    · have ho : (KeyCall.compareAndSwap k expected new).outcome env.valueEq (some x) =
          ⟨.swap (.failure x), .read k (some x), lookupCounts true⟩ := if_neg heq
      rw [ho] at hnow
      rw [if_neg heq]
      refine h₂.wp_observe (by rw [hc₂]; exact hnow) fun v₃ h₃ => ?_
      rw [hc₂] at h₃
      exact Calm.wp_ended ho h₃ hsp (.failure x) .swap rfl

theorem Calm.wp_compareAndRemove (h : Calm env sp [] ds cs v) (expected : V)
    (hsp : Allows env sp ds (.compareAndRemove k expected)) :
    (protocol env L alone).Wp (Sync.compareAndRemove env k expected) v fun r v' =>
      Ended env sp ds cs (.compareAndRemove k expected) (.flag r) v' := by
  refine h.wp_lookup fun id v₁ h₁ => ?_
  refine Protocol.Wp.bind ((h₁.wp_recordedRead _).mono fun _ v₂ ⟨hc₂, h₂⟩ => ?_)
  refine wp_user h₂.calm.settled ?_
  cases hcur : v₁.st.contents env.hash k with
  | none =>
    rw [hcur] at hc₂ h₂
    rw [if_neg (by simp)]
    refine h₂.wp_observe (by rw [hc₂]; exact hsp.now none) fun v₃ h₃ => ?_
    rw [hc₂] at h₃
    have ho : (KeyCall.compareAndRemove k expected).outcome env.valueEq none = _ := rfl
    exact Calm.wp_ended ho h₃ hsp false
      .flag rfl
  | some x =>
    rw [hcur] at hc₂ h₂
    have hnow := hsp.now (some x)
    rw [Option.any_some]
    by_cases heq : env.valueEq x expected = true
    · have ho : (KeyCall.compareAndRemove k expected).outcome env.valueEq (some x) =
          ⟨.flag true, .modify k (some x) none, lookupCounts true ++ [.removes]⟩ := if_pos heq
      rw [ho] at hnow
      rw [if_pos heq]
      refine h₂.wp_removeLocked (by rw [hc₂]; exact hnow) fun v₃ h₃ => ?_
      rw [hc₂, List.append_assoc] at h₃
      exact Calm.wp_ended ho h₃ hsp true .flag rfl
    · have ho : (KeyCall.compareAndRemove k expected).outcome env.valueEq (some x) =
          ⟨.flag false, .read k (some x), lookupCounts true⟩ := if_neg heq
      rw [ho] at hnow
      rw [if_neg heq]
      refine h₂.wp_observe (by rw [hc₂]; exact hnow) fun v₃ h₃ => ?_
      rw [hc₂] at h₃
      exact Calm.wp_ended ho h₃ hsp false .flag rfl

end Calls
end Starshard
