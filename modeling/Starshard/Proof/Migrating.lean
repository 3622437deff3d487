import Starshard.Proof.Clearing
import Starshard.Sync.Rebalance

/-! Migrations under exclusive routing. Between two steps of a migration the map is
well formed and holds the same contents; the shards alone are laid out differently. -/
namespace Starshard

open Data Concurrent
open Function (update)

variable {K V : Type} [DecidableEq K] {env : Env K V} {L : Lifecycle K V} {alone : Prop}
  {v v' : View K V L.State} {α : Type} {Φ : α → View K V L.State → Prop}
  {sp : List (Event K V) → Prop} {gs : Guards K V} {ds : List (Event K V)}
  {cs : List Metric} {k : K} {id : Nat}

section Begin

omit [DecidableEq K] in
theorem allocate_none (next n : Nat) :
    allocate (K := K) (V := V) next (List.replicate n none) = List.replicate n none := by
  induction n generalizing next with
  | zero => rfl
  | succ n ih =>
    rw [List.replicate_succ, allocate, ih]
    rfl

/-- The layout of a map whose migration starts. -/
def State.begun {E : Type} (s : State K V E) (target : Nat) (p : Progress) (life : E) :
    State K V E :=
  { s with
    shards := allocate s.next (List.replicate target (none : Option (Assoc K V)))
    heap := allocated s.heap s.next (List.replicate target none)
    next := s.next + (List.replicate target (none : Option (Assoc K V))).length
    previous := some s.shards
    previousShardCount := s.shardCount
    shardCount := target
    tracker := p
    life := life }

section Begun

variable {s : State K V L.State} {target : Nat} {p : Progress} {life : L.State}

omit [DecidableEq K] in
theorem State.live_begun (hp : s.previous = none) : (s.begun target p life).live = s.live := by
  simp [State.live, State.begun, allocate_none, hp, allocatedShards]

theorem State.heap_begun (hw : s.WellFormed env.hash) (hid : id ∈ s.live) :
    (s.begun target p life).heap id = s.heap id := by
  show (if id < s.next then s.heap id else _) = _
  rw [if_pos (hw.bound id hid)]

omit [DecidableEq K] in
theorem State.home_begun (k : K) : (s.begun target p life).home env.hash k = none := by
  rw [State.home]
  show ((allocate s.next (List.replicate target none))[env.hash k % target]?).join = none
  rw [allocate_none, List.getElem?_replicate]
  split <;> rfl

omit [DecidableEq K] in
theorem State.prevHome_begun (k : K) :
    (s.begun target p life).prevHome env.hash k = s.home env.hash k := by
  rw [State.prevHome, State.home]
  rfl

theorem State.contents_begun (hw : s.WellFormed env.hash) (hp : s.previous = none) (k : K) :
    (s.begun target p life).contents env.hash k = s.contents env.hash k := by
  have hprev : s.prevLookup env.hash k = none := by
    rw [State.prevLookup, State.prevHome, hp, slotAt_none]
    rfl
  rw [State.contents, State.activeLookup, State.home_begun, State.prevLookup,
    State.prevHome_begun, State.contents, hprev, State.activeLookup]
  cases hid : s.home env.hash k with
  | none => rfl
  | some id =>
    rw [Option.bind_some, Option.bind_some, State.heap_begun hw (State.live_of_home hid)]
    cases (s.heap id).lookup k <;> rfl

theorem State.WellFormed.begun (hw : s.WellFormed env.hash) (hp : s.previous = none)
    (ht : 0 < target) (hl : p.layout = ⟨true, target, 0, s.shardCount⟩) :
    (s.begun target p life).WellFormed env.hash where
  count_pos := ht
  length := by
    show (allocate s.next (List.replicate target none)).length = target
    rw [allocate_none, List.length_replicate]
  previous_length slots h := by
    cases h
    exact hw.length
  previous_none := ⟨nofun, fun h => absurd h (Nat.pos_iff_ne_zero.mp hw.count_pos)⟩
  migrating := congrArg Progress.Layout.migrating hl
  progress _ := by
    refine ⟨congrArg Progress.Layout.totalShards hl, ?_, congrArg Progress.Layout.toShards hl⟩
    show p.layout.completedShards < p.layout.totalShards
    rw [hl]
    exact hw.count_pos
  drained i hi := by
    have hi : i < p.layout.completedShards := hi
    rw [hl] at hi
    exact absurd hi (Nat.not_lt_zero i)
  nodup := by
    rw [State.live_begun hp]
    exact hw.nodup
  bound id hid := by
    rw [State.live_begun hp] at hid
    exact Nat.lt_of_lt_of_le (hw.bound id hid) (Nat.le_add_right _ _)
  home_active i id hi := by
    have hi : (allocate s.next (List.replicate target (none : Option (Assoc K V))))[i]? =
      some (some id) := hi
    rw [allocate_none, List.getElem?_replicate] at hi
    split at hi <;> cases hi
  home_previous i id hi k x hx := by
    have hi : s.shards[i]? = some (some id) := by
      obtain ⟨_, ⟨⟩, hi⟩ := slotAt_eq_some.mp hi
      exact hi
    rw [State.heap_begun hw (State.mem_live.mpr (.inl ⟨i, hi⟩))] at hx
    exact hw.home_active i id hi k x hx
  disjoint k := .inl (by rw [State.activeLookup, State.home_begun]; rfl)

theorem State.total_begun (hw : s.WellFormed env.hash) (hp : s.previous = none)
    (ht : s.totalLen = (s.live.map fun id => (s.heap id).size).sum) :
    (s.begun target p life).totalLen =
      ((s.begun target p life).live.map fun id => ((s.begun target p life).heap id).size).sum := by
  rw [State.live_begun hp]
  show s.totalLen = _
  rw [ht]
  exact congrArg List.sum (List.map_congr_left fun id hid => by rw [State.heap_begun hw hid])

end Begun

theorem wp_markPending {f : Unit → Prog K V α}
    (h : ∀ e, (protocol env L alone).Wp (f ()) { v with st := { v.st with life := e } } Φ) :
    (protocol env L alone).Wp (act (.life .markPending) >>= f) v Φ := by
  refine ⟨fun t s G g hv s' hc => ?_, rule_life fun _ e => h e⟩
  cases hc.2.1

theorem Calm.wp_beginMigration {gs' : Guards K V} (h : Calm env sp gs' ds cs v)
    (hx' : Exclusive gs') (hp : v.st.previous = none) {target : Nat} (ht : 0 < target)
    {current : Nat} (hcur : current = v.st.shardCount) :
    (protocol env L alone).Wp (Sync.beginMigration current target) v fun _ v' =>
      Calm env sp gs' ds cs v' ∧ v'.st.previous = some v.st.shards ∧ v'.st.shardCount = target := by
  obtain rfl := h.guards
  have hw := h.wellFormed hx'.owns
  subst hcur
  refine wp_quiet rfl (rule_install_exclusive hx' ?_)
  refine wp_quiet rfl (rule_setPrevious_exclusive (by exact hx') ?_)
  refine wp_quiet rfl (rule_setPreviousShardCount_exclusive (by exact hx') ?_)
  refine wp_quiet rfl (rule_setShardCount_exclusive (by exact hx') ?_)
  refine wp_markPending fun e => wp_quiet rfl (rule_totalLen fun n _ => wp_clock fun now => ?_)
  refine Protocol.Shift.wp (shift_acc (by exact hx')
    (fun id => ((v.st.begun target v.st.tracker e).heap id).size) ?_)
  refine wp_quiet rfl (rule_tracker_exclusive (by exact hx') fun p _ => ?_)
  have hr := h.relaid hx' h.stack
    (v.st.begun target (p.beginWithCounts v.st.shardCount target n now) e) (hw.begun hp ht rfl)
    (State.total_begun hw hp (h.settled.total hx'))
    (State.contents_begun hw hp)
  exact ⟨hr, rfl, rfl⟩

end Begin

section Control

abbrev owned : Guards K V := [.lock .routing .excl]

omit [DecidableEq K] in
theorem owned_free (l : LockId) (hl : l.inner) : ¬ Owns (owned (K := K) (V := V)) l := by
  rw [owns_lock]
  rintro (rfl | ⟨n, hn⟩)
  · cases hl
  · simp at hn

theorem wp_readTracker {f : Progress → Prog K V α}
    (h : ∀ p : Progress, (Owns v.gs .routing → p.layout = v.st.tracker.layout) →
      (protocol env L alone).Wp (f p) v Φ) :
    (protocol env L alone).Wp (Sync.readTracker >>= f) v Φ :=
  wp_quiet rfl (rule_tracker (fun _ => rfl) fun p hp _ => h p hp)

theorem Calm.wp_own (h : Calm env sp [] ds cs v) {f : Unit → Prog K V α}
    (hΦ : ∀ v', Calm env sp owned ds cs v' → (protocol env L alone).Wp (f ()) v' Φ) :
    (protocol env L alone).Wp (act (.lock .routing .excl) >>= f) v Φ :=
  wp_lock_calm h (fun he => by cases he) (by simp) (fun _ l _ => by simp [Owns])
    (fun _ he => by cases he) fun v' h' _ _ => hΦ v' h'

theorem Calm.wp_disown (h : Calm env sp owned ds cs v) {f : Unit → Prog K V α}
    (hΦ : ∀ v', Calm env sp [] ds cs v' → (protocol env L alone).Wp (f ()) v' Φ) :
    (protocol env L alone).Wp (act (.unlock .routing) >>= f) v Φ := by
  refine wp_unlock_calm h (fun _ l hl => owned_free l hl) fun v' h' _ _ => ?_
  rw [without_lock] at h'
  exact hΦ v' h'

omit [DecidableEq K] in
theorem owned_exclusive : Exclusive (owned (K := K) (V := V)) := List.mem_cons_self

theorem State.WellFormed.settled {s : State K V L.State} (hw : s.WellFormed env.hash)
    {p : Progress} (hp : p.layout = s.tracker.layout) (hm : p.migrating ≠ true) :
    s.previous = none := by
  have hm' : s.tracker.layout.migrating = false := by
    rw [← hp]
    exact Bool.not_eq_true _ ▸ hm
  rw [hw.migrating, Option.isSome_eq_false_iff, Option.isNone_iff_eq_none] at hm'
  exact hm'

/-- The guards under which the generations are exchanged. -/
abbrev exchanging : Guards K V := .lock .previous .excl :: .lock .active .excl :: owned

omit [DecidableEq K] in
theorem exchanging_exclusive : Exclusive (exchanging (K := K) (V := V)) :=
  List.mem_cons_of_mem _ (List.mem_cons_of_mem _ owned_exclusive)

theorem Calm.wp_lockDirectories (h : Calm env sp owned ds cs v) (hp : v.st.previous = none)
    {f : Unit → Prog K V α} (hΦ : ∀ v', Calm env sp exchanging ds cs v' → v'.st.previous = none →
      v'.st.shardCount = v.st.shardCount → (protocol env L alone).Wp (f ()) v' Φ) :
    (protocol env L alone).Wp (act (.lock .active .excl) >>= fun _ =>
      act (.lock .previous .excl) >>= f) v Φ := by
  have hx := owned_exclusive (K := K) (V := V)
  refine wp_lock_calm h (fun _ => hx.owns) (free_of_not_owns (owned_free _ rfl))
    (fun he => by cases he) (fun _ he => by cases he) fun v₁ h₁ k₁ _ => ?_
  have hx₁ : Exclusive (.lock .active .excl :: owned (K := K) (V := V)) :=
    List.mem_cons_of_mem _ hx
  refine wp_lock_calm h₁ (fun _ => hx₁.owns)
    (free_of_not_owns (by simp)) (fun he => by cases he) (fun _ he => by cases he)
    fun v₂ h₂ k₂ _ => hΦ v₂ h₂ ?_ ?_
  · rw [Agree.previous k₂ hx₁.owns, Agree.previous k₁ hx.owns, hp]
  · rw [Agree.shardCount k₂ hx₁.owns, Agree.shardCount k₁ hx.owns]

theorem Calm.wp_exchange (h : Calm env sp exchanging ds cs v) (hp : v.st.previous = none)
    {target current : Nat} (ht : 0 < target) (hcur : current = v.st.shardCount)
    {f : Unit → Prog K V α}
    (hΦ : ∀ v', Calm env sp owned ds cs v' → (protocol env L alone).Wp (f ()) v' Φ) :
    (protocol env L alone).Wp (Sync.beginMigration current target >>= fun _ =>
      act (.unlock .previous) >>= fun _ => act (.unlock .active) >>= f) v Φ := by
  refine Protocol.Wp.bind ((h.wp_beginMigration exchanging_exclusive hp ht hcur).mono
    fun _ v₁ ⟨h₁, _, _⟩ => ?_)
  refine wp_unlock_calm h₁ (fun he => by cases he) fun v₂ h₂ _ _ => ?_
  rw [without_lock] at h₂
  refine wp_unlock_calm h₂ (fun he => by cases he) fun v₃ h₃ _ _ => ?_
  rw [without_lock] at h₃
  exact hΦ v₃ h₃

theorem Calm.wp_startRebalanceOnline (h : Calm env sp [] ds cs v) (count : Nat) :
    (protocol env L alone).Wp (Sync.startRebalanceOnline count) v fun _ v' =>
      Calm env sp [] ds cs v' := by
  unfold Sync.startRebalanceOnline
  cases ht : strictShardCount count MAX_SHARDS with
  | error e => exact h
  | ok target =>
    refine h.wp_own fun v₁ h₁ => wp_readTracker fun p hp => ?_
    have hx := owned_exclusive (K := K) (V := V)
    refine wp_quiet rfl (rule_shardCount (h₁.owns hx.owns) ?_)
    split
    · exact h₁.wp_disown fun v₂ h₂ => h₂
    · next hno =>
      have hw := h₁.wellFormed hx.owns
      refine h₁.wp_lockDirectories (hw.settled (hp (h₁.owns hx.owns)) fun hm => hno (.inl hm))
        fun v₂ h₂ hp₂ _ => ?_
      have hx₂ := exchanging_exclusive (K := K) (V := V)
      refine wp_quiet rfl (rule_shards (.inl (h₂.guards.symm ▸ hx₂)) ?_)
      exact h₂.wp_exchange hp₂ (strictShardCount_ok ht).1 (h₂.wellFormed hx₂.owns).length
        fun v₃ h₃ => h₃.wp_disown fun v₄ h₄ => h₄

end Control

section Owned

/-- Locks inside routing exclude nobody while routing is owned. -/
theorem Calm.wp_lock_owned (h : Calm env sp gs ds cs v) (hx : Exclusive gs) {l : LockId} {m : Mode}
    (hl : l ≠ .routing) (hfree : ¬ Owns gs l) {f : Unit → Prog K V α}
    (hΦ : ∀ v', Calm env sp (.lock l m :: gs) ds cs v' → State.SameCore v.st v'.st →
      (protocol env L alone).Wp (f ()) v' Φ) :
    (protocol env L alone).Wp (act (.lock l m) >>= f) v Φ := by
  have hs : Stack gs := h.guards ▸ h.stack
  refine wp_lock_calm h (fun _ => hx.owns) (free_of_not_owns hfree) (fun hr => absurd hr hl)
    (fun _ _ hp => absurd hx (hs.single hp)) fun v' h' k' _ => hΦ v' h' (Agree.exclusive k' hx).1

theorem Calm.wp_tracker (h : Calm env sp gs ds cs v) {g : Progress → Progress}
    (hg : ∀ p, (g p).layout = p.layout) {f : Progress → Prog K V α}
    (hΦ : ∀ p v', Calm env sp gs ds cs v' → State.SameCore v.st v'.st →
      (protocol env L alone).Wp (f p) v' Φ) :
    (protocol env L alone).Wp (act (.tracker g) >>= f) v Φ := by
  refine wp_quiet rfl (rule_tracker hg fun p _ _ => ?_)
  have hcore : State.SameCore v.st { v.st with tracker := g v.st.tracker } :=
    ⟨rfl, rfl, rfl, rfl, rfl, rfl, rfl, rfl, hg _⟩
  have ha : Aside env v v.gs [] { v with st := { v.st with tracker := g v.st.tracker } } :=
    ⟨h.settled.frame hcore.tables (fun _ => rfl) rfl rfl rfl fun h => h, rfl, hcore, rfl, rfl, rfl,
      rfl, rfl, rfl, by simp, id⟩
  refine hΦ p _ ?_ hcore
  simpa using h.aside_same ha

theorem Calm.wp_pauseRebalance (h : Calm env sp [] ds cs v) :
    (protocol env L alone).Wp Sync.pauseRebalance v fun _ v' => Calm env sp [] ds cs v' := by
  refine h.wp_own fun v₁ h₁ => h₁.wp_tracker (Progress.layout_pause true) fun p v₂ h₂ _ => ?_
  exact h₂.wp_disown fun v₃ h₃ => h₃

theorem Calm.wp_resumeRebalance (h : Calm env sp gs ds cs v) :
    (protocol env L alone).Wp Sync.resumeRebalance v fun _ v' => Calm env sp gs ds cs v' :=
  h.wp_tracker (Progress.layout_pause false) fun _ _ h₁ _ => h₁

/-- What a step that moves no entry keeps of a migrating map. -/
structure Stays (s s' : State K V L.State) : Prop where
  shardCount : s'.shardCount = s.shardCount
  previous : s'.previous = s.previous
  previousShardCount : s'.previousShardCount = s.previousShardCount
  layout : s'.tracker.layout = s.tracker.layout
  heap : ∀ i id, slotAt s.previous i = some id → s'.heap id = s.heap id

namespace Stays

variable {s s' s'' : State K V L.State}

omit [DecidableEq K] in
theorem refl (s : State K V L.State) : Stays s s := ⟨rfl, rfl, rfl, rfl, fun _ _ _ => rfl⟩

omit [DecidableEq K] in
theorem trans (h : Stays s s') (h' : Stays s' s'') : Stays s s'' where
  shardCount := h'.shardCount.trans h.shardCount
  previous := h'.previous.trans h.previous
  previousShardCount := h'.previousShardCount.trans h.previousShardCount
  layout := h'.layout.trans h.layout
  heap i id hi := (h'.heap i id (by rw [h.previous]; exact hi)).trans (h.heap i id hi)

omit [DecidableEq K] in
theorem core (h : State.SameCore s s') : Stays s s' where
  shardCount := h.shardCount
  previous := h.previous
  previousShardCount := h.previousShardCount
  layout := h.layout
  heap _ _ _ := by rw [h.heap]

omit [DecidableEq K] in
theorem prevHome (h : Stays s s') (k : K) : s'.prevHome env.hash k = s.prevHome env.hash k := by
  rw [State.prevHome, h.previous, h.previousShardCount, State.prevHome]

end Stays

theorem State.total_withSlot {s : State K V L.State} {i : Nat} (hw : s.WellFormed env.hash)
    (hi : s.shards[i]? = some none) (ht : s.totalLen = (s.live.map fun id => (s.heap id).size).sum) :
    (s.withSlot i).totalLen =
      ((s.withSlot i).live.map fun id => ((s.withSlot i).heap id).size).sum := by
  have hold : (s.live.map fun id => ((s.withSlot i).heap id).size) =
      s.live.map fun id => (s.heap id).size :=
    List.map_congr_left fun id hid => by rw [State.withSlot_heap (hw.bound id hid)]
  rw [((State.withSlot_live hi).map _).sum_nat, List.map_cons, List.sum_cons, hold]
  have hnew : (s.withSlot i).heap s.next = ∅ := Function.update_self _ _ _
  rw [hnew, Assoc.size_empty, Nat.zero_add]
  exact ht

theorem Calm.wp_getOrInitShard_owned (h : Calm env sp gs ds cs v) (hx : Exclusive gs)
    (hfree : ¬ Owns gs .active) {index : Nat} (hi : index < v.st.shardCount) :
    (protocol env L alone).Wp (getOrInitShard index) v fun id v' =>
      v'.st.shards[index]? = some (some id) ∧ Calm env sp gs ds cs v' ∧ Stays v.st v'.st := by
  have hs : Stack gs := h.guards ▸ h.stack
  refine h.wp_lock_owned hx (l := .active) (fun he => by cases he) hfree fun v₁ h₁ s₁ => ?_
  have hx₁ : Exclusive (.lock .active .shared :: gs) := List.mem_cons_of_mem _ hx
  refine wp_quiet rfl (rule_shards (.inl (h₁.guards.symm ▸ hx₁)) ?_)
  have hlen : index < v₁.st.shards.length := by
    rw [(h₁.wellFormed hx₁.owns).length, s₁.shardCount]
    exact hi
  have hslot := List.getElem?_eq_getElem hlen
  rw [hslot]
  cases hid : v₁.st.shards[index] with
  | some id =>
    refine wp_unlock_calm h₁ (fun he => by cases he) fun v₂ h₂ w₂ _ => ?_
    rw [without_lock] at h₂
    exact ⟨by rw [w₂, hslot, hid], h₂, by rw [w₂]; exact .core s₁⟩
  | none =>
    refine wp_unlock_calm h₁ (fun he => by cases he) fun v₂ h₂ w₂ _ => ?_
    rw [without_lock] at h₂
    refine h₂.wp_lock_owned hx (l := .active) (fun he => by cases he) hfree fun v₃ h₃ s₃ => ?_
    have hx₃ : Exclusive (.lock .active .excl :: gs) := List.mem_cons_of_mem _ hx
    have hw₃ := h₃.wellFormed hx₃.owns
    have hslot₃ : v₃.st.shards[index]? = some none := by
      rw [s₃.shards, w₂, hslot, hid]
    have hgs : without v₃.gs .active = gs := by rw [h₃.guards, without_lock]
    have hstays : Stays v.st (v₃.st.withSlot index) := by
      have hcore : Stays v.st v₃.st := (Stays.core s₁).trans (w₂ ▸ .core s₃)
      refine ⟨hcore.shardCount, hcore.previous, hcore.previousShardCount, hcore.layout,
        fun i id hi => ?_⟩
      have hlive : id ∈ v₃.st.live := State.mem_live.mpr (.inr ⟨i, by rw [hcore.previous]; exact hi⟩)
      rw [State.withSlot_heap (hw₃.bound id hlive), hcore.heap i id hi]
    refine Protocol.Shift.wp (shift_acc (h₃.guards.symm ▸ hx₃)
      (fun id => ((v₃.st.withSlot index).heap id).size) ?_)
    refine wp_quiet rfl (rule_initSlot_exclusive (by exact h₃.guards.symm ▸ hx₃)
      (by exact hslot₃) (fun _ he => by cases he) fun _ => ?_)
    refine wp_quiet rfl (rule_unlock_exclusive (by exact h₃.guards.symm ▸ hx₃)
      (fun he => by cases he) ?_)
    dsimp only
    rw [hgs]
    exact ⟨State.withSlot_self hslot₃, h₃.relaid hx₃ hs (v₃.st.withSlot index)
      (hw₃.withSlot hslot₃) (State.total_withSlot hw₃ hslot₃
        (h₃.settled.total (h₃.guards.symm ▸ hx₃))) (State.withSlot_contents hw₃ hslot₃), hstays⟩

theorem Calm.wp_moveOne {dst src : Nat} (h : Calm env sp gs ds cs v) (hx : Exclusive gs)
    (hd : v.st.home env.hash k = some dst) (hs : v.st.prevHome env.hash k = some src) {x : V}
    (hk : (v.st.heap src).lookup k = some x) {f : Unit → Prog K V α}
    (hΦ : ∀ v', Calm env sp gs ds cs v' →
      v'.st = v.st.withHeap (promoted v.st.heap dst src k) →
      (protocol env L alone).Wp (f ()) v' Φ) :
    (protocol env L alone).Wp (Sync.moveOne dst src k >>= f) v Φ := by
  obtain rfl := h.guards
  have hw := h.wellFormed hx.owns
  have hw' := hw.withHeap (State.placed_promoted hw hd hs)
  have hne : dst ≠ src := fun he => hw.home_ne_prevHome hd (he ▸ hs)
  have ht : v.st.totalLen =
      (v.st.live.map fun id => (promoted v.st.heap dst src k id).size).sum := by
    have hacc : ∀ id, (v.st.heap id).size = v.acc id := fun id => (h.clean.acc id (.inl hx)).symm
    have hmap : (fun id => (promoted v.st.heap dst src k id).size) =
        promotedAcc v.st.heap v.acc dst src k := funext fun id =>
      (promotedAcc_size hw hd hs (hacc id).symm (hacc dst).symm (hacc src).symm).symm
    rw [hmap, sum_promotedAcc hw.nodup (State.live_of_home hd) (State.live_of_prevHome hs) hne
      (hacc src).symm]
    exact h.clean.total hx
  refine wp_user h.settled ?_
  refine Protocol.Shift.wp (shift_acc hx
    (fun id => (promoted v.st.heap dst src k id).size) ?_)
  refine wp_quiet rfl (rule_promote_exclusive (by exact hx) ?_)
  rw [hk]
  exact hΦ _ (h.relaid hx h.stack (v.st.withHeap (promoted v.st.heap dst src k)) hw' ht
    fun k => congrFun (State.contents_promoted hw hd hs) k) rfl

/-- What moving one key out of the source shard keeps. -/
structure Shed (src : Nat) (k : K) (s s' : State K V L.State) : Prop where
  shardCount : s'.shardCount = s.shardCount
  previous : s'.previous = s.previous
  layout : s'.tracker.layout = s.tracker.layout
  source : ∀ k', k' ≠ k → (s'.heap src).lookup k' = (s.heap src).lookup k'

theorem Calm.wp_moveEntry {src toShards : Nat} (h : Calm env sp gs ds cs v) (hx : Exclusive gs)
    (hfree : ∀ l, l.inner → ¬ Owns gs l) (hpos : toShards ≠ 0)
    (hs : v.st.prevHome env.hash k = some src) {x : V} (hk : (v.st.heap src).lookup k = some x) :
    (protocol env L alone).Wp (Sync.moveEntry env toShards src k) v fun _ v' =>
      Calm env sp gs ds cs v' ∧ Shed src k v.st v'.st := by
  refine Protocol.Wp.bind ((h.wp_shardIndex hx.owns k).mono fun index v₁ ⟨hindex, he⟩ => ?_)
  subst he hindex
  have hlt := Nat.mod_lt (env.hash k) (h.wellFormed hx.owns).count_pos
  refine Protocol.Wp.bind ((h.wp_getOrInitShard_owned hx (hfree _ rfl) hlt).mono
    fun dst v₂ ⟨hdst, h₂, t₂⟩ => ?_)
  have hd₂ : v₂.st.home env.hash k = some dst := by
    rw [State.home_eq_some, t₂.shardCount]
    exact hdst
  have hs₂ : v₂.st.prevHome env.hash k = some src := (t₂.prevHome k).trans hs
  have hne : dst ≠ src := fun he => (h₂.wellFormed hx.owns).home_ne_prevHome hd₂ (he ▸ hs₂)
  have hsrc₂ : v₂.st.heap src = v₁.st.heap src := t₂.heap _ src hs
  refine h₂.wp_lock_owned hx (l := .shard dst) (fun he => by cases he) (hfree _ rfl)
    fun v₃ h₃ s₃ => ?_
  have hx₃ : Exclusive (.lock (.shard dst) .excl :: gs) := List.mem_cons_of_mem _ hx
  have hnot : ¬ Owns (.lock (.shard dst) .excl :: gs) (.shard src) := by
    rw [owns_lock]
    exact fun ho => ho.elim (fun he => hne (LockId.shard.inj he).symm) (hfree _ rfl)
  refine h₃.wp_lock_owned hx₃ (l := .shard src) (fun he => by cases he) hnot fun v₄ h₄ s₄ => ?_
  have hx₄ : Exclusive (.lock (.shard src) .excl :: .lock (.shard dst) .excl :: gs) :=
    List.mem_cons_of_mem _ hx₃
  have t₄ : Stays v₂.st v₄.st := (Stays.core s₃).trans (.core s₄)
  have hd₄ := (s₄.tables.home k).trans ((s₃.tables.home k).trans hd₂)
  have hs₄ : v₄.st.prevHome env.hash k = some src := (t₄.prevHome k).trans hs₂
  have hsrc₄ : v₄.st.heap src = v₁.st.heap src := by rw [s₄.heap, s₃.heap, hsrc₂]
  refine wp_user h₄.settled ?_
  rw [if_neg hpos]
  refine h₄.wp_moveOne hx₄ hd₄ hs₄ (by rw [hsrc₄]; exact hk) fun v₅ h₅ s₅ => ?_
  refine h₅.wp_tracker (g := Progress.moved) Progress.layout_moved fun _ v₆ h₆ s₆ => ?_
  refine wp_unlock_calm h₆ (fun he => by cases he) fun v₇ h₇ w₇ _ => ?_
  rw [without_lock] at h₇
  refine wp_last (wp_unlock_calm h₇ (fun he => by cases he) fun v₈ h₈ w₈ _ => ?_)
  rw [without_lock] at h₈
  refine ⟨h₈, ?_⟩
  rw [w₈, w₇]
  refine ⟨?_, ?_, ?_, fun k' hk' => ?_⟩
  · rw [s₆.shardCount, s₅]
    exact t₄.shardCount.trans t₂.shardCount
  · rw [s₆.previous, s₅]
    exact t₄.previous.trans t₂.previous
  · rw [s₆.layout, s₅]
    exact t₄.layout.trans t₂.layout
  · rw [s₆.heap, s₅, State.withHeap_heap, State.lookup_promoted hne, hsrc₄]
    simp [hk']

end Owned

section Batches

/-- The keys were copied from the source shard at `index`, and are still there. -/
def Ready (s : State K V L.State) (index : Nat) (keys : List K) : Prop :=
  keys.Nodup ∧ ∀ k ∈ keys, ∃ src x, slotAt s.previous index = some src ∧
    (s.heap src).lookup k = some x

theorem Ready.nil (s : State K V L.State) (index : Nat) : Ready s index [] := ⟨.nil, by simp⟩

theorem Ready.stays {s s' : State K V L.State} {index : Nat} {keys : List K}
    (h : Ready s index keys) (hs : Stays s s') : Ready s' index keys := by
  refine ⟨h.1, fun k hk => ?_⟩
  obtain ⟨src, x, hsrc, hx⟩ := h.2 k hk
  exact ⟨src, x, by rw [hs.previous]; exact hsrc, by rw [hs.heap index src hsrc]; exact hx⟩

variable (budget : Sync.Budget)

theorem wp_pauseElapsed (started : Nat) :
    (protocol env L alone).Wp (Sync.pauseElapsed budget started) v fun _ v' => v' = v := by
  unfold Sync.pauseElapsed
  split
  · rfl
  · exact wp_clock fun _ => rfl

theorem wp_cancelled :
    (protocol env L alone).Wp (Sync.cancelled budget) v fun _ v' => v' = v := by
  unfold Sync.cancelled
  cases budget.supervised with
  | false => rfl
  | true => exact wp_last (wp_quiet rfl (rule_cancelled fun _ => rfl))

/-- Copying stops when the pause is used up, at a prefix of the keys. -/
theorem wp_loadKeys (hs : Settled env.hash v) (started : Nat) (keys : List K) :
    (protocol env L alone).Wp (Sync.loadKeys (V := V) budget started keys) v fun r v' =>
      r.Sublist keys ∧ v' = v := by
  induction keys with
  | nil => exact ⟨.refl _, rfl⟩
  | cons k keys ih =>
    refine wp_user hs (Protocol.Wp.bind ((wp_pauseElapsed budget started).mono
      fun elapsed v₁ he => ?_))
    subst he
    cases elapsed with
    | true => exact ⟨(List.nil_sublist keys).cons_cons k, rfl⟩
    | false => exact Protocol.Wp.bind (ih.mono fun rest v₂ ⟨hr, he⟩ => ⟨hr.cons_cons k, he⟩)

theorem Calm.wp_loadWork (h : Calm env sp gs ds cs v) (hx : Exclusive gs)
    (hfree : ∀ l, l.inner → ¬ Owns gs l) (started : Nat) {index : Nat} {batch : Sync.Batch K}
    (hb : batch.loaded = some index ∨ batch.workKeys = []) (hr : Ready v.st index batch.workKeys) :
    (protocol env L alone).Wp
      (Sync.loadWork budget started index (slotAt v.st.previous index) batch) v fun keys v' =>
      Calm env sp gs ds cs v' ∧ Stays v.st v'.st ∧ Ready v'.st index keys := by
  unfold Sync.loadWork
  split
  · exact ⟨h, .refl _, hr⟩
  · next hnew =>
    have hnil := hb.resolve_left hnew
    cases hsrc : slotAt v.st.previous index with
    | none => exact ⟨h, .refl _, hr⟩
    | some src =>
      refine h.wp_lock_owned hx (l := .shard src) (fun he => by cases he) (hfree _ rfl)
        fun v₁ h₁ s₁ => ?_
      have hx₁ : Exclusive (.lock (.shard src) .shared :: gs) := List.mem_cons_of_mem _ hx
      refine wp_quiet rfl (rule_entries (.inl (h₁.guards.symm ▸ hx₁)) fun l hl => ?_)
      refine Protocol.Wp.bind ((wp_loadKeys budget h₁.settled started _).mono ?_)
      rintro keys v₂ ⟨hkeys, he⟩
      subst he
      refine wp_unlock_calm h₁ (fun he => by cases he) fun v₃ h₃ w₃ _ => ?_
      rw [without_lock] at h₃
      have t₃ : Stays v.st v₃.st := by
        rw [w₃]
        exact .core s₁
      refine ⟨h₃, t₃, ?_⟩
      rw [hnil, List.nil_append]
      have hsub := hkeys.trans (List.take_sublist _ _)
      refine ⟨((hl.map _).nodup_iff.mpr (Assoc.items_keys_nodup _)).sublist hsub, fun k hk => ?_⟩
      obtain ⟨⟨k', x⟩, he, rfl⟩ := List.mem_map.mp (hsub.subset hk)
      refine ⟨src, x, by rw [t₃.previous]; exact hsrc, ?_⟩
      rw [w₃]
      exact Assoc.mem_items.mp (hl.mem_iff.mp he)

theorem Calm.wp_moveWork (h : Calm env sp gs ds cs v) (hx : Exclusive gs)
    (hfree : ∀ l, l.inner → ¬ Owns gs l) {toShards index : Nat} (hpos : toShards ≠ 0)
    {keys : List K} (hr : Ready v.st index keys) :
    (protocol env L alone).Wp
      (Sync.moveWork env toShards (slotAt v.st.previous index) keys) v fun r v' =>
      Calm env sp gs ds cs v' ∧ v'.st.shardCount = v.st.shardCount ∧
        v'.st.previous = v.st.previous ∧ v'.st.tracker.layout = v.st.tracker.layout ∧
        Ready v'.st index r.1 := by
  unfold Sync.moveWork
  cases hk : keys.getLast? with
  | none =>
    have hnil := List.getLast?_eq_none_iff.mp hk
    have hdone : Calm env sp gs ds cs v ∧ v.st.shardCount = v.st.shardCount ∧
        v.st.previous = v.st.previous ∧ v.st.tracker.layout = v.st.tracker.layout ∧
        Ready v.st index keys.dropLast := by
      rw [hnil]
      exact ⟨h, rfl, rfl, rfl, .nil _ _⟩
    cases slotAt v.st.previous index <;> exact hdone
  | some k =>
    obtain ⟨src, x, hsrc, hx'⟩ := hr.2 k (List.mem_of_getLast? hk)
    have hw := h.wellFormed hx.owns
    have hph : v.st.prevHome env.hash k = some src := by
      rw [State.prevHome, hw.home_previous index src hsrc k x hx']
      exact hsrc
    rw [hsrc]
    refine Protocol.Wp.bind ((h.wp_moveEntry hx hfree hpos hph hx').mono ?_)
    rintro _ v₁ ⟨h₁, t₁⟩
    refine ⟨h₁, t₁.shardCount, t₁.previous, t₁.layout, ?_⟩
    have hsplit : keys.dropLast ++ [k] = keys := List.dropLast_append_getLast? k hk
    have hn := hr.1
    rw [← hsplit, List.nodup_append'] at hn
    refine ⟨hn.1, fun k' hk' => ?_⟩
    have hne : k' ≠ k := fun he => hn.2.2 hk' (by simp [he])
    obtain ⟨src', y, hsrc', hy⟩ := hr.2 k' (List.dropLast_subset _ hk')
    obtain rfl : src' = src := Option.some.inj (hsrc'.symm.trans hsrc)
    exact ⟨src', y, by rw [t₁.previous]; exact hsrc, by rw [t₁.source k' hne]; exact hy⟩

theorem Calm.wp_sourceEmpty (h : Calm env sp gs ds cs v) (hx : Exclusive gs)
    (hfree : ∀ l, l.inner → ¬ Owns gs l) (index : Nat) :
    (protocol env L alone).Wp (Sync.sourceEmpty index) v fun empty v' =>
      Calm env sp gs ds cs v' ∧ Stays v.st v'.st ∧
        (empty = true → ∀ src, slotAt v'.st.previous index = some src → v'.st.heap src = ∅) := by
  refine h.wp_lock_owned hx (l := .previous) (fun he => by cases he) (hfree _ rfl)
    fun v₁ h₁ s₁ => ?_
  have hx₁ : Exclusive (.lock .previous .shared :: gs) := List.mem_cons_of_mem _ hx
  refine wp_quiet rfl (rule_previous (h₁.owns hx₁.owns) ?_)
  cases hsrc : slotAt v₁.st.previous index with
  | none =>
    refine wp_unlock_calm h₁ (fun he => by cases he) fun v₂ h₂ w₂ _ => ?_
    rw [without_lock] at h₂
    refine ⟨h₂, by rw [w₂]; exact .core s₁, fun _ src hs => ?_⟩
    rw [w₂, hsrc] at hs
    cases hs
  | some src =>
    have hnot : ¬ Owns (.lock .previous .shared :: gs) (.shard src) := by
      simpa using hfree (.shard src) rfl
    refine h₁.wp_lock_owned hx₁ (l := .shard src) (fun he => by cases he) hnot fun v₂ h₂ s₂ => ?_
    have hx₂ : Exclusive (.lock (.shard src) .shared :: .lock .previous .shared :: gs) :=
      List.mem_cons_of_mem _ hx₁
    refine wp_quiet rfl (rule_len (.inl (h₂.guards.symm ▸ hx₂)) ?_)
    refine wp_unlock_calm h₂ (fun he => by cases he) fun v₃ h₃ w₃ _ => ?_
    rw [without_lock] at h₃
    refine wp_unlock_calm h₃ (fun he => by cases he) fun v₄ h₄ w₄ _ => ?_
    rw [without_lock] at h₄
    refine ⟨h₄, ?_, fun hzero src' hs => ?_⟩
    · rw [w₄, w₃]
      exact (Stays.core s₁).trans (.core s₂)
    · rw [w₄, w₃] at hs ⊢
      rw [s₂.previous, hsrc] at hs
      cases hs
      exact AList.ext (List.eq_nil_of_length_eq_zero (of_decide_eq_true hzero))

end Batches

section Retire

theorem sum_retired (f : Nat → Nat) {slots : Slots} {index : Nat}
    (h : ∀ id, slots[index]? = some (some id) → f id = 0) :
    ((allocatedShards (slots.set index none)).map f).sum =
      ((allocatedShards slots).map f).sum := by
  induction slots generalizing index with
  | nil => rfl
  | cons slot slots ih =>
    cases index with
    | zero =>
      cases slot with
      | none => rfl
      | some id =>
        have := h id rfl
        simp [allocatedShards, this]
    | succ index =>
      have ih := ih fun id (hid : slots[index]? = some (some id)) => h id (by simpa using hid)
      cases slot with
      | none => exact ih
      | some id =>
        show f id + ((allocatedShards (slots.set index none)).map f).sum =
          f id + ((allocatedShards slots).map f).sum
        rw [ih]

theorem retired_sublist (slots : Slots) (index : Nat) :
    (allocatedShards (slots.set index none)).Sublist (allocatedShards slots) := by
  induction slots generalizing index with
  | nil => exact .refl _
  | cons slot slots ih =>
    cases index with
    | zero =>
      cases slot with
      | none => exact .refl _
      | some id => exact .cons _ (.refl _)
    | succ index =>
      cases slot with
      | none => exact ih index
      | some id => exact (ih index).cons_cons id

/-- The layout after the source slot at `index` was retired. -/
def State.retired {E : Type} (s : State K V E) (index : Nat) (p : Progress) : State K V E :=
  { s with
    previous := s.previous.map fun slots => slots.set index none
    tracker := p }

variable {s : State K V L.State} {index : Nat} {p : Progress}

omit [DecidableEq K] in
theorem State.slotAt_retired (i : Nat) : slotAt (s.retired index p).previous i =
    if i = index then none else slotAt s.previous i := by
  show slotAt (s.previous.map fun slots => slots.set index none) i = _
  cases s.previous with
  | none => simp
  | some slots =>
    show ((slots.set index none)[i]?).join = _
    by_cases hi : i = index
    · subst hi
      rw [if_pos rfl, List.getElem?_set]
      simp only [if_true]
      split <;> rfl
    · rw [if_neg hi, List.getElem?_set_ne (Ne.symm hi)]
      rfl

/-- The source shard of a migration step is empty. -/
def State.SourceEmpty {E : Type} (s : State K V E) (index : Nat) : Prop :=
  ∀ src, slotAt s.previous index = some src → s.heap src = ∅

theorem State.SourceEmpty.contents (he : s.SourceEmpty index) (k : K) :
    (s.retired index p).contents env.hash k = s.contents env.hash k := by
  have hprev : (s.retired index p).prevLookup env.hash k = s.prevLookup env.hash k := by
    rw [State.prevLookup, State.prevHome, State.slotAt_retired, State.prevLookup, State.prevHome]
    show (if env.hash k % s.previousShardCount = index then none
      else slotAt s.previous (env.hash k % s.previousShardCount)).bind _ = _
    split
    · next hi =>
      cases hsrc : slotAt s.previous (env.hash k % s.previousShardCount) with
      | none => rfl
      | some src =>
        rw [Option.bind_some, he src (hi ▸ hsrc), AList.lookup_empty, Option.bind_none]
    · rfl
  rw [State.contents, hprev]
  rfl

omit [DecidableEq K] in
theorem State.live_retired : (s.retired index p).live.Sublist s.live := by
  refine .append (.refl _) ?_
  show (allocatedShards ((s.previous.map fun slots => slots.set index none).getD [])).Sublist _
  cases s.previous with
  | none => exact .refl _
  | some slots => exact retired_sublist slots index

omit [DecidableEq K] in
theorem State.SourceEmpty.total (he : s.SourceEmpty index)
    (ht : s.totalLen = (s.live.map fun id => (s.heap id).size).sum) :
    (s.retired index p).totalLen =
      ((s.retired index p).live.map fun id => ((s.retired index p).heap id).size).sum := by
  refine ht.trans ?_
  rw [State.live, State.live, List.map_append, List.sum_append, List.map_append, List.sum_append]
  congr 1
  show _ = ((allocatedShards ((s.previous.map fun slots => slots.set index none).getD [])).map
    fun id => (s.heap id).size).sum
  cases hs : s.previous with
  | none => rfl
  | some slots =>
    refine (sum_retired (fun id => (s.heap id).size) fun id hid => ?_).symm
    have hsrc : slotAt s.previous index = some id := slotAt_eq_some.mpr ⟨slots, hs, hid⟩
    rw [he id hsrc]
    rfl

theorem State.WellFormed.retired (hw : s.WellFormed env.hash)
    (hindex : index = s.tracker.layout.completedShards)
    (hp : p.layout = { s.tracker.layout with completedShards := index + 1 })
    (hlt : index + 1 < s.tracker.layout.totalShards) :
    (s.retired index p).WellFormed env.hash := by
  have hsome : (s.retired index p).previous.isSome = s.previous.isSome := Option.isSome_map
  have hl : (s.retired index p).tracker.layout =
    { s.tracker.layout with completedShards := index + 1 } := hp
  have hslot : ∀ {i id}, slotAt (s.retired index p).previous i = some id →
      slotAt s.previous i = some id := by
    intro i id hi
    rw [State.slotAt_retired] at hi
    split at hi
    · cases hi
    · exact hi
  refine ⟨hw.count_pos, hw.length, fun slots hs => ?_, ?_, ?_, fun hs => ?_, fun i hi => ?_,
    hw.nodup.sublist State.live_retired, fun id hid => hw.bound id (State.live_retired.subset hid),
    hw.home_active, fun i id hi => hw.home_previous i id (hslot hi), fun k => ?_⟩
  · obtain ⟨old, hold, rfl⟩ := Option.map_eq_some_iff.mp hs
    rw [List.length_set]
    exact hw.previous_length old hold
  · show s.previous.map _ = none ↔ s.previousShardCount = 0
    rw [Option.map_eq_none_iff]
    exact hw.previous_none
  · rw [hl, hsome]
    exact hw.migrating
  · rw [hsome] at hs
    obtain ⟨h₁, -, h₃⟩ := hw.progress hs
    rw [hl]
    exact ⟨h₁, hlt, h₃⟩
  · rw [hl] at hi
    have hi : i < index + 1 := hi
    rw [State.slotAt_retired]
    split
    · rfl
    · exact hw.drained i (by omega)
  · refine (hw.disjoint k).imp_right fun hnone => ?_
    rw [State.prevLookup, State.prevHome, State.slotAt_retired]
    split
    · rfl
    · exact hnone

/-- The source slot at `index` was retired; the map is well formed unless it was the last. -/
def Retired (env : Env K V) (sp : List (Event K V) → Prop) (gs : Guards K V)
    (ds : List (Event K V)) (cs : List Metric) (s : State K V L.State) (index : Nat)
    (v : View K V L.State) : Prop :=
  ∃ v₀ gs₀ p, Calm env sp gs₀ ds cs v₀ ∧ Exclusive gs₀ ∧ State.SameCore s v₀.st ∧
    p.layout = { s.tracker.layout with completedShards := index + 1 } ∧
    v = { v₀ with
      st := v₀.st.retired index p
      acc := fun id => (v₀.st.heap id).size
      gs := gs }

theorem Calm.wp_retireSource (h : Calm env sp gs ds cs v) (hx : Exclusive gs)
    (hfree : ¬ Owns gs .previous) (hindex : index = v.st.tracker.layout.completedShards) :
    (protocol env L alone).Wp (Sync.retireSource index) v fun _ v' =>
      Retired env sp gs ds cs v.st index v' := by
  refine h.wp_lock_owned hx (l := .previous) (fun he => by cases he) hfree fun v₁ h₁ s₁ => ?_
  have hx₁ : Exclusive (.lock .previous .excl :: gs) := List.mem_cons_of_mem _ hx
  have hgs : without v₁.gs .previous = gs := by rw [h₁.guards, without_lock]
  refine wp_quiet rfl (rule_previous (h₁.owns hx₁.owns) ?_)
  refine wp_quiet rfl (rule_setPrevious_exclusive (h₁.guards.symm ▸ hx₁) ?_)
  refine wp_quiet rfl (rule_unlock_exclusive (by exact h₁.guards.symm ▸ hx₁)
    (fun he => by cases he) ?_)
  dsimp only
  rw [hgs]
  refine Protocol.Shift.wp (shift_acc (by exact hx) (fun id => (v₁.st.heap id).size) ?_)
  refine wp_quiet rfl (rule_tracker_exclusive (by exact hx) fun p hp => ?_)
  refine ⟨v₁, _, p.step, h₁, hx₁, s₁, ?_, rfl⟩
  have hp : p.layout = v.st.tracker.layout := hp.trans s₁.layout
  rw [hindex, ← hp]
  rfl

/-- The loop's own view: the map still migrates, and the batch is prepared for its source. -/
structure Going (env : Env K V) (sp : List (Event K V) → Prop) (gs : Guards K V)
    (ds : List (Event K V)) (cs : List Metric) (toShards : Nat) (batch : Sync.Batch K)
    (v : View K V L.State) : Prop where
  calm : Calm env sp gs ds cs v
  migrating : v.st.previous.isSome
  target : toShards = v.st.shardCount
  loaded : batch.loaded = some v.st.tracker.layout.completedShards ∨ batch.workKeys = []
  ready : Ready v.st v.st.tracker.layout.completedShards batch.workKeys

theorem wp_lock_sync (hsync : env.awaits = false) (hx : Exclusive v.gs) {l : LockId} {m : Mode}
    (hfree : ∀ x ∈ v.gs, ¬ x.excludes l m) {f : Unit → Prog K V α}
    (h : (protocol env L alone).Wp (f ()) { v with gs := .lock l m :: v.gs } Φ) :
    (protocol env L alone).Wp (act (.lock l m) >>= f) v Φ := by
  refine ⟨fun t s G g hv s' hc => ?_, rule_lock_exclusive hx hfree h⟩
  have hawaits : env.awaits = true := hc.1
  rw [hsync] at hawaits
  cases hawaits

/-- The last source slot was retired: both generations become one. -/
theorem Retired.wp_finish (hsync : env.awaits = false) (hx : Exclusive gs) (hs : Stack gs)
    (hfree : ¬ Owns gs .previous) {s : State K V L.State} (hw : s.WellFormed env.hash)
    (hindex : index = s.tracker.layout.completedShards)
    (hlast : index + 1 = s.tracker.layout.totalShards) (he : s.SourceEmpty index)
    (h : Retired env sp gs ds cs s index v) :
    (protocol env L alone).Wp Sync.finishMigration v fun _ v' => Calm env sp gs ds cs v' := by
  obtain ⟨v₀, gs₀, p, h₀, hx₀, s₀, hp, rfl⟩ := h
  have he₀ : v₀.st.Emptied := by
    intro i id hi
    rw [s₀.heap]
    have hi : slotAt s.previous i = some id := by
      rw [← s₀.previous]
      exact hi
    obtain ⟨slots, hslots, hlt⟩ := slotAt_eq_some.mp hi
    have hlen : i < slots.length := (List.getElem?_eq_some_iff.mp hlt).1
    rw [hw.previous_length slots hslots, ← (hw.progress (by rw [hslots]; rfl)).1, ← hlast] at hlen
    rcases Nat.lt_succ_iff_lt_or_eq.mp hlen with hlt | rfl
    · have := hw.drained i (hindex ▸ hlt)
      rw [hi] at this
      cases this
    · exact he id hi
  refine wp_lock_sync hsync hx (free_of_not_owns hfree) ?_
  have hx₁ : Exclusive (.lock .previous .excl :: gs) := List.mem_cons_of_mem _ hx
  refine wp_quiet rfl (rule_setPrevious_exclusive (by exact hx₁) ?_)
  refine wp_quiet rfl (rule_unlock_exclusive (by exact hx₁) (fun he => by cases he) ?_)
  dsimp only
  rw [without_lock]
  refine wp_quiet rfl (rule_setPreviousShardCount_exclusive (by exact hx) (wp_clock fun now => ?_))
  refine wp_quiet rfl (rule_tracker_exclusive (by exact hx) fun q _ => ?_)
  exact h₀.relaid hx₀ hs _ ((h₀.wellFormed hx₀.owns).single (p := Progress.finish now q) rfl)
    (he₀.total (h₀.settled.total (h₀.guards.symm ▸ hx₀))) he₀.contents

/-- A further source slot follows: the map is well formed again. -/
theorem Retired.calm (hs : Stack gs) {s : State K V L.State}
    (hindex : index = s.tracker.layout.completedShards)
    (hlt : index + 1 < s.tracker.layout.totalShards) (he : s.SourceEmpty index)
    (h : Retired env sp gs ds cs s index v) : Calm env sp gs ds cs v := by
  obtain ⟨v₀, gs₀, p, h₀, hx₀, s₀, hp, rfl⟩ := h
  have he₀ : v₀.st.SourceEmpty index := fun src hsrc => by
    rw [s₀.heap]
    exact he src (by rw [← s₀.previous]; exact hsrc)
  refine h₀.relaid hx₀ hs _ ((h₀.wellFormed hx₀.owns).retired ?_ ?_ ?_)
    (he₀.total (h₀.settled.total (h₀.guards.symm ▸ hx₀))) he₀.contents
  · rw [s₀.layout]
    exact hindex
  · rw [s₀.layout]
    exact hp
  · rw [s₀.layout]
    exact hlt

theorem wp_diverge (hna : ¬ alone) : (protocol env L alone).Wp (diverge : Prog K V α) v Φ :=
  ⟨fun _ _ _ _ _ _ hc => hc.elim, fun _ _ _ _ _ => ⟨.inl ⟨trivial, hna⟩, fun r => nomatch r⟩⟩

end Retire

section Loop

variable {toShards : Nat} {batch : Sync.Batch K}

theorem Going.snapshot (h : Going env sp gs ds cs toShards batch v) (hx : Exclusive gs)
    {p : Progress} (hp : p.layout = v.st.tracker.layout) :
    p.snapshot.movedShards = v.st.tracker.layout.completedShards ∧
      p.snapshot.totalShards = v.st.tracker.layout.totalShards := by
  have hm : p.migrating = true := by
    have := (h.calm.wellFormed hx.owns).migrating
    rw [h.migrating, ← hp] at this
    exact this
  unfold Progress.snapshot
  rw [if_pos hm, ← hp]
  exact ⟨rfl, rfl⟩

theorem Going.stays (h : Going env sp gs ds cs toShards batch v)
    (hc : Calm env sp gs ds cs v') (hs : Stays v.st v'.st) :
    Going env sp gs ds cs toShards batch v' where
  calm := hc
  migrating := by rw [hs.previous]; exact h.migrating
  target := h.target.trans hs.shardCount.symm
  loaded := by rw [hs.layout]; exact h.loaded
  ready := by rw [hs.layout]; exact h.ready.stays hs

theorem wp_nextRound {budget : Sync.Budget} {started fuel : Nat}
    (ih : ∀ {batch : Sync.Batch K} {v : View K V L.State}, Going env sp gs ds cs toShards batch v →
      (protocol env L alone).Wp (Sync.batchLoop env budget toShards started fuel batch) v
        fun _ v' => Calm env sp gs ds cs v') (h : Going env sp gs ds cs toShards batch v)
    (stop : Bool → Prop) [DecidablePred stop] (report : RebalanceBatchReport) :
    (protocol env L alone).Wp (do
      let elapsed ← Sync.pauseElapsed budget started
      if stop elapsed then return report
      else Sync.batchLoop env budget toShards started fuel batch) v
        fun _ v' => Calm env sp gs ds cs v' := by
  refine Protocol.Wp.bind ((wp_pauseElapsed budget started).mono fun elapsed w he => ?_)
  subst he
  split
  · exact h.calm
  · exact ih h

/-- Each round moves one entry or retires one source slot, and ends well formed. -/
theorem Going.wp_batchLoop (hna : ¬ alone) (hsync : env.awaits = false) (hx : Exclusive gs)
    (hfree : ∀ l, l.inner → ¬ Owns gs l) (budget : Sync.Budget) (started : Nat) (fuel : Nat) :
    ∀ {batch : Sync.Batch K} {v : View K V L.State}, Going env sp gs ds cs toShards batch v →
      (protocol env L alone).Wp (Sync.batchLoop env budget toShards started fuel batch) v
        fun _ v' => Calm env sp gs ds cs v' := by
  induction fuel with
  | zero => exact fun _ => wp_diverge hna
  | succ fuel ih =>
    intro batch v h
    have hs : Stack gs := h.calm.guards ▸ h.calm.stack
    have hpos : toShards ≠ 0 := by
      rw [h.target]
      exact Nat.pos_iff_ne_zero.mp (h.calm.wellFormed hx.owns).count_pos
    unfold Sync.batchLoop
    dsimp only
    split
    · exact h.calm
    refine Protocol.Wp.bind ((wp_cancelled budget).mono fun stop w he => ?_)
    subst he
    cases stop with
    | true => exact h.calm
    | false =>
      refine wp_readTracker fun p hp => ?_
      have hp := hp (h.calm.owns hx.owns)
      rw [(h.snapshot hx hp).1]
      refine Protocol.Wp.bind ((h.calm.wp_previousSlots hx.owns (hfree _ rfl)).mono ?_)
      rintro slots v₁ ⟨hslots, h₁, k₁, _⟩
      have s₁ := (Agree.exclusive k₁ hx).1
      have g₁ := h.stays h₁ (.core s₁)
      rw [hslots.trans s₁.previous.symm, ← s₁.layout]
      refine Protocol.Wp.bind ((g₁.calm.wp_loadWork budget hx hfree started g₁.loaded g₁.ready).mono ?_)
      rintro keys v₂ ⟨h₂, t₂, r₂⟩
      rw [← t₂.previous]
      refine Protocol.Wp.bind ((h₂.wp_moveWork hx hfree hpos r₂).mono ?_)
      rintro rest v₃ ⟨h₃, hcount₃, hprev₃, hlayout₃, r₃⟩
      refine Protocol.Wp.bind ((h₃.wp_sourceEmpty hx hfree _).mono ?_)
      rintro empty v₄ ⟨h₄, t₄, hempty⟩
      have hl₄ : v₄.st.tracker.layout = v₁.st.tracker.layout :=
        t₄.layout.trans (hlayout₃.trans t₂.layout)
      have hw₄ := h₄.wellFormed hx.owns
      have hm₄ : v₄.st.previous.isSome := by
        rw [t₄.previous, hprev₃, t₂.previous]
        exact g₁.migrating
      have htarget₄ : toShards = v₄.st.shardCount :=
        g₁.target.trans ((t₄.shardCount.trans (hcount₃.trans t₂.shardCount)).symm)
      have r₄ : Ready v₄.st v₄.st.tracker.layout.completedShards rest.1 := by
        rw [hl₄]
        exact r₃.stays t₄
      rw [← hl₄] at hempty ⊢
      have hlt := (hw₄.progress hm₄).2.1
      cases empty with
      | false =>
        have g₄ : ∀ report, Going env sp gs ds cs toShards
            ⟨rest.1, some v₄.st.tracker.layout.completedShards, report⟩ v₄ := fun report =>
          ⟨h₄, hm₄, htarget₄, .inl rfl, r₄⟩
        refine wp_readTracker fun q hq => ?_
        obtain ⟨hmoved, htotal⟩ := (g₄ batch.report).snapshot hx (hq (h₄.owns hx.owns))
        rw [hmoved, htotal, if_neg (Nat.ne_of_lt hlt)]
        exact wp_nextRound ih (g₄ _) (fun elapsed => (!false = true ∧ rest.1.isEmpty = true) ∨
          elapsed = true) _
      | true =>
        have he₄ : v₄.st.SourceEmpty v₄.st.tracker.layout.completedShards := hempty rfl
        have hnil : rest.1 = [] := List.eq_nil_iff_forall_not_mem.mpr fun k hk => by
          obtain ⟨src, x, hsrc, hx'⟩ := r₄.2 k hk
          rw [he₄ src hsrc, AList.lookup_empty] at hx'
          cases hx'
        refine Protocol.Wp.bind ((h₄.wp_retireSource hx (hfree _ rfl) rfl).mono fun _ v₅ h₅ => ?_)
        have hlayout : v₅.st.tracker.layout = { v₄.st.tracker.layout with
            completedShards := v₄.st.tracker.layout.completedShards + 1 } := by
          obtain ⟨v₀, gs₀, q, -, -, -, hq, rfl⟩ := h₅
          exact hq
        have hrest : v₅.gs = gs ∧ v₅.st.previous.isSome ∧ toShards = v₅.st.shardCount := by
          obtain ⟨v₀, gs₀, q, -, -, s₀, -, rfl⟩ := h₅
          refine ⟨rfl, ?_, htarget₄.trans s₀.shardCount.symm⟩
          show (v₀.st.previous.map _).isSome
          rw [Option.isSome_map, s₀.previous]
          exact hm₄
        obtain ⟨hgs₅, hm₅, htarget₅⟩ := hrest
        refine wp_readTracker fun q hq => ?_
        have hq := (hq (hgs₅.symm ▸ hx.owns)).trans hlayout
        have hqm : q.migrating = true := by
          have := hw₄.migrating
          rw [hm₄] at this
          exact (congrArg Progress.Layout.migrating hq).trans this
        have hmoved : q.snapshot.movedShards = v₄.st.tracker.layout.completedShards + 1 := by
          unfold Progress.snapshot
          rw [if_pos hqm]
          exact congrArg Progress.Layout.completedShards hq
        have htotal : q.snapshot.totalShards = v₄.st.tracker.layout.totalShards := by
          unfold Progress.snapshot
          rw [if_pos hqm]
          exact congrArg Progress.Layout.totalShards hq
        rw [hmoved, htotal]
        by_cases hlast : v₄.st.tracker.layout.completedShards + 1 = v₄.st.tracker.layout.totalShards
        · rw [if_pos hlast]
          exact Protocol.Wp.bind ((h₅.wp_finish hsync hx hs (hfree _ rfl) hw₄ rfl hlast he₄).mono
            fun _ _ h₆ => h₆)
        · rw [if_neg hlast]
          have h₅' := h₅.calm hs rfl (by omega) he₄
          have hgoing : ∀ loaded report, Going env sp gs ds cs toShards ⟨rest.1, loaded, report⟩ v₅ :=
            fun _ _ => ⟨h₅', hm₅, htarget₅, .inr hnil, by rw [hnil]; exact .nil _ _⟩
          exact wp_nextRound ih (hgoing _ _)
            (fun elapsed => (!true = true ∧ rest.1.isEmpty = true) ∨ elapsed = true) _

/-- A bounded migration step changes the layout only. -/
theorem Calm.wp_advanceRebalanceInner (hna : ¬ alone) (hsync : env.awaits = false)
    (h : Calm env sp [] ds cs v) (fuel : Nat) (budget : Sync.Budget) :
    (protocol env L alone).Wp (Sync.advanceRebalanceInner env fuel budget) v fun _ v' =>
      Calm env sp [] ds cs v' := by
  refine h.wp_own fun v₁ h₁ => wp_clock fun now => wp_readTracker fun p hp => ?_
  have hx := owned_exclusive (K := K) (V := V)
  have hp := hp (h₁.owns hx.owns)
  refine Protocol.Wp.bind ((wp_cancelled budget).mono fun stopped w he => ?_)
  subst he
  split
  · exact h₁.wp_disown fun v₂ h₂ => h₂
  refine wp_readTracker fun q hq => ?_
  have hq := hq (h₁.owns hx.owns)
  cases hm : q.migrating with
  | false => exact h₁.wp_disown fun v₂ h₂ => h₂
  | true =>
    have hw₁ := h₁.wellFormed hx.owns
    have hsome : w.st.previous.isSome := by
      rw [← hw₁.migrating, ← hq]
      exact hm
    have htarget : p.telemetry.toShards = w.st.shardCount :=
      (congrArg Progress.Layout.toShards hp).trans (hw₁.progress hsome).2.2
    refine wp_clock fun started => h₁.wp_push rfl fun v₂ h₂ s₂ => ?_
    have g₂ : Going env sp (.timer p.telemetry.generation started budget.pauseNs :: owned) ds cs
        p.telemetry.toShards ⟨[], none, .default⟩ v₂ :=
      ⟨h₂, by rw [s₂.previous]; exact hsome, htarget.trans s₂.shardCount.symm, .inr rfl,
        .nil _ _⟩
    refine Protocol.Wp.bind ((g₂.wp_batchLoop hna hsync (List.mem_cons_of_mem _ hx)
      (fun l hl => ((SameLocks.cons rfl).owns l).not.mpr (owned_free l hl)) budget started
      fuel).mono fun report v₃ h₃ => ?_)
    refine wp_clock fun _ => wp_clock fun _ => ?_
    refine h₃.wp_tracker (fun p => Progress.layout_recordBatch _ _ _ p) fun _ v₄ h₄ _ => ?_
    refine h₄.wp_pop rfl fun v₅ h₅ _ => h₅.wp_disown fun v₆ h₆ => ?_
    exact wp_user h₆.settled h₆

theorem Calm.wp_advanceRebalance (hna : ¬ alone) (hsync : env.awaits = false)
    (h : Calm env sp [] ds cs v) (fuel maxShards : Nat) :
    (protocol env L alone).Wp (Sync.advanceRebalance env fuel maxShards) v fun _ v' =>
      Calm env sp [] ds cs v' :=
  Protocol.Wp.bind ((h.wp_advanceRebalanceInner hna hsync fuel _).mono fun _ _ h₁ => h₁)

/-- The cooperative form of `rebalance_to`: entries of other tasks may come between its steps. -/
theorem Calm.wp_cooperate (h : Calm env sp [] ds cs v) {target : Nat} (ht : 0 < target) :
    (protocol env L alone).Wp (Sync.cooperate target) v fun _ v' => Calm env sp [] ds cs v' := by
  refine h.wp_own fun v₁ h₁ => ?_
  have hx := owned_exclusive (K := K) (V := V)
  refine wp_quiet rfl (rule_shardCount (h₁.owns hx.owns) (wp_readTracker fun p hp => ?_))
  split
  · exact h₁.wp_disown fun v₂ h₂ => h₂
  · next hm =>
    split
    · exact h₁.wp_disown fun v₂ h₂ => h₂
    · have hw := h₁.wellFormed hx.owns
      refine h₁.wp_lockDirectories (hw.settled (hp (h₁.owns hx.owns)) hm) fun v₂ h₂ hp₂ hc₂ => ?_
      exact h₂.wp_exchange hp₂ ht hc₂.symm fun v₃ h₃ => h₃.wp_disown fun v₄ h₄ => h₄

theorem Calm.wp_cooperativeLoop (hna : ¬ alone) (hsync : env.awaits = false) {target : Nat}
    (ht : 0 < target) (options : RebalanceOptions) (inner : Nat) (fuel : Nat) :
    ∀ {v : View K V L.State} (moved : Nat), Calm env sp [] ds cs v →
      (protocol env L alone).Wp (Sync.cooperativeLoop env target options inner fuel moved) v
        fun _ v' => Calm env sp [] ds cs v' := by
  induction fuel with
  | zero => exact fun _ _ => wp_diverge hna
  | succ fuel ih =>
    intro v moved h
    refine Protocol.Wp.bind ((h.wp_cooperate ht).mono fun reached v₁ h₁ => ?_)
    cases reached with
    | true => exact h₁
    | false =>
      refine Protocol.Wp.bind (h₁.wp_resumeRebalance.mono fun _ v₂ h₂ => Protocol.Wp.bind ?_)
      exact (h₂.wp_advanceRebalanceInner hna hsync inner _).mono fun report v₃ h₃ => ih _ h₃

end Loop

end Starshard
