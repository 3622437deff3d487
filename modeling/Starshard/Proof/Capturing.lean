import Starshard.Concurrent.Instant
import Starshard.Proof.Staging
import Starshard.Sync.Snapshot

/-! Snapshots: a builder locks every directory and shard, and the epoch it reads
then names the data it copies. A cached pair whose epoch is still current names
the contents just as well. -/
namespace Starshard

open Data Concurrent
open Function (update)

variable {K V : Type} [DecidableEq K] {env : Env K V} {L : Lifecycle K V} {alone : Prop}
  {v v' : View K V L.State} {α : Type} {Φ : α → View K V L.State → Prop}
  {sp : List (Event K V) → Prop} {gs : Guards K V} {ds : List (Event K V)}
  {cs : List Metric} {k : K} {id : Nat} {m : Mode}

section Shards

omit [DecidableEq K]

def shardGuards (m : Mode) (ids : List Nat) (gs : Guards K V) : Guards K V :=
  (ids.reverse.map fun id => Guard.lock (.shard id) m) ++ gs

@[simp] theorem shardGuards_nil (m : Mode) (gs : Guards K V) : shardGuards m [] gs = gs := rfl

theorem shardGuards_snoc (m : Mode) (ids : List Nat) (id : Nat) (gs : Guards K V) :
    shardGuards m (ids ++ [id]) gs = .lock (.shard id) m :: shardGuards m ids gs := by
  simp [shardGuards]

theorem mem_shardGuards {ids : List Nat} {x : Guard K V} :
    x ∈ shardGuards m ids gs ↔ (∃ id ∈ ids, x = .lock (.shard id) m) ∨ x ∈ gs := by
  simp [shardGuards, eq_comm]

theorem owns_shardGuards {ids : List Nat} {l : LockId} :
    Owns (shardGuards m ids gs) l ↔ (∃ id ∈ ids, l = .shard id) ∨ Owns gs l := by
  simp only [Owns, mem_shardGuards, Guard.lock.injEq]
  grind

theorem without_shardGuards {ids : List Nat} (hid : id ∉ ids) (gs : Guards K V) :
    without (shardGuards m (id :: ids) gs) (.shard id) = shardGuards m ids gs := by
  have hother : ∀ x ∈ ids.reverse.map fun id => (Guard.lock (.shard id) m : Guard K V),
      ¬ x.holds (.shard id) := by
    intro x hx
    obtain ⟨j, hj, rfl⟩ := List.mem_map.mp hx
    have hne : j ≠ id := fun he => hid (he ▸ List.mem_reverse.mp hj)
    simpa [Guard.holds] using hne
  simp only [shardGuards, Starshard.without, List.reverse_cons, List.map_append,
    List.append_assoc, List.map_cons,
    List.map_nil]
  rw [List.eraseP_append_right _ hother]
  exact congrArg _ (without_lock _ _ _)

end Shards

section Locking

variable {ids : List Nat}

theorem Calm.wp_lockShards (h : Calm env sp gs ds cs v) (hr : Owns gs .routing)
    (hnodup : ids.Nodup) (hfree : ∀ id ∈ ids, ¬ Owns gs (.shard id))
    (hlive : ∀ id ∈ ids, id ∈ v.st.live) :
    (protocol env L alone).Wp (ids.mapM fun id => act (.lock (.shard id) m)) v fun _ v' =>
      Calm env sp (shardGuards m ids gs) ds cs v' ∧ Keeps env gs v v' ∧
        (alone → v'.toWorld = v.toWorld) := by
  refine Protocol.Wp.mapM (P := protocol env L alone) (I := fun pre _ (w : View K V L.State) =>
    Calm env sp (shardGuards m pre gs) ds cs w ∧ Keeps env gs v w ∧
      (alone → w.toWorld = v.toWorld))
    (fun pre id post _ w hpost ⟨hw, kw, ww⟩ => ?_) ⟨h, .refl _, fun _ => rfl⟩
  have hid : id ∈ ids := by
    rw [hpost]
    simp
  have hnew : id ∉ pre := by
    rw [hpost] at hnodup
    exact fun hmem => (List.nodup_append.mp hnodup).2.2 id hmem id (by simp) rfl
  have hnot : ¬ Owns (shardGuards m pre gs) (.shard id) := by
    rw [owns_shardGuards]
    rintro (⟨j, hj, he⟩ | ho)
    · exact hnew (LockId.shard.inj he ▸ hj)
    · exact hfree id hid ho
  refine wp_last (wp_lock_calm hw (fun _ => owns_shardGuards.mpr (.inr hr))
    (free_of_not_owns hnot) (fun he => by cases he) (fun j hj _ => ?_) fun w₁ h₁ k₁ ww₁ => ?_)
  · exact LockId.shard.inj hj ▸ Agree.live kw hr (hlive id hid)
  · rw [← shardGuards_snoc] at h₁
    exact ⟨h₁, kw.trans (Agree.mono k₁ fun l m hm => mem_shardGuards.mpr (.inr hm)),
      fun ha => (ww₁ ha).trans (ww ha)⟩

theorem Calm.wp_unlockAll (h : Calm env sp (shardGuards m ids gs) ds cs v) (hnodup : ids.Nodup) :
    (protocol env L alone).Wp (Sync.unlockAll ids) v fun _ v' =>
      Calm env sp gs ds cs v' ∧ v'.toWorld = v.toWorld ∧ v'.known = v.known := by
  refine Protocol.Wp.bind ((Protocol.Wp.mapM (P := protocol env L alone)
    (I := fun pre _ (w : View K V L.State) =>
    ∃ post, ids = pre ++ post ∧ Calm env sp (shardGuards m post gs) ds cs w ∧
      w.toWorld = v.toWorld ∧ w.known = v.known)
    (fun pre id post _ w hpost ⟨post', hpost', hw, ww, kw⟩ => ?_)
    ⟨ids, rfl, h, rfl, rfl⟩).mono fun _ v₁ ⟨post, hpost, h₁, w₁, k₁⟩ => ?_)
  · obtain rfl : post' = id :: post := List.append_cancel_left (hpost'.symm.trans hpost)
    have hnew : id ∉ post := by
      rw [hpost, List.nodup_append] at hnodup
      exact (List.nodup_cons.mp hnodup.2.1).1
    refine wp_last (wp_unlock_calm hw (fun he => by cases he) fun w₁ h₁ w₁' k₁ => ?_)
    rw [without_shardGuards hnew] at h₁
    exact ⟨post, by rw [hpost]; simp, h₁, w₁'.trans ww, k₁.trans kw⟩
  · obtain rfl : post = [] := by simpa using hpost
    exact ⟨h₁, w₁, k₁⟩

end Locking

section Capture

abbrev building : Guards K V := [.lock .builder .excl]

/-- The specification allows a snapshot of any finite map. -/
def AllowsSnapshot (sp : List (Event K V) → Prop) (ds : List (Event K V)) : Prop :=
  ∀ e items d, Represents items d → sp (ds ++ [Event.snapshot e d])

/-- The task was handed the contents `d` under the version `e`, as the entries `items`. -/
structure Captured (env : Env K V) (sp : List (Event K V) → Prop) (gs : Guards K V)
    (ds : List (Event K V)) (cs : List Metric) (e : Nat) (items : List (K × V))
    (d : Contents K V) (v : View K V L.State) : Prop where
  calm : Calm env sp gs (ds ++ [Event.snapshot e d]) cs v
  represents : Represents items d
  known : v.known e = some d

theorem Calm.snapshot (h : Calm env sp gs ds cs v) (e : Nat) (d : Contents K V)
    (known : Nat → Option (Contents K V)) :
    Calm env sp gs (ds ++ [Event.snapshot e d]) cs
      { v with fresh := false, known := known, evs := v.evs ++ [Event.snapshot e d] } where
  clean := h.clean
  stack := h.stack
  guards := h.guards
  spec := h.spec
  visible := by
    rw [visible_append, h.visible]
    rfl
  counted := by
    rw [counted_append, h.counted]
    exact List.append_nil cs
  quiet hp := by
    have hp : Event.publish ∈ v.evs := by simpa using hp
    obtain ⟨e', he', hc⟩ := h.quiet hp
    exact ⟨e', List.mem_append_left _ he', hc⟩

theorem Calm.outdated (h : Calm env sp gs ds cs v) (version : Nat) :
    Calm env sp gs (ds ++ [Event.outdated version]) cs
      { v with evs := v.evs ++ [Event.outdated version] } where
  clean := h.clean
  stack := h.stack
  guards := h.guards
  spec := h.spec
  visible := by
    rw [visible_append, h.visible]
    rfl
  counted := by
    rw [counted_append, h.counted]
    exact List.append_nil cs
  quiet hp := by
    have hp : Event.publish ∈ v.evs := by simpa using hp
    obtain ⟨e', he', hc⟩ := h.quiet hp
    exact ⟨e', List.mem_append_left _ he', hc⟩

theorem Calm.wp_copyShards (h : Calm env sp gs ds cs v) {ids : List Nat}
    (ho : ∀ id ∈ ids, Owns gs (.shard id)) :
    (protocol env L alone).Wp (ids.mapM Sync.copyShard) v fun ls v' => v' = v ∧
      List.Forall₂ (fun (l : List (K × V)) id => l.Perm (v.st.heap id).items) ls ids := by
  refine Protocol.Wp.mapM (P := protocol env L alone) (I := fun pre ls (w : View K V L.State) =>
    w = v ∧ List.Forall₂ (fun (l : List (K × V)) id => l.Perm (v.st.heap id).items) ls pre)
    (fun pre id post ls w hpost ⟨hw, hls⟩ => ?_) ⟨rfl, .nil⟩
  subst hw
  have hid : id ∈ ids := by
    rw [hpost]
    simp
  refine wp_quiet rfl (rule_entries (.inr (h.owns (ho id hid))) fun l hl => ?_)
  exact wp_user h.settled ⟨rfl, List.rel_append hls (.cons hl .nil)⟩

abbrev surveying : Guards K V :=
  .lock .previous .shared :: .lock .active .shared :: .lock .routing .shared :: building

/-- While everything is locked, `n` is the size of the active directory and `ls` lists the
entries of every shard. -/
structure Surveyed (n : Nat) (ls : List (List (K × V))) (v : View K V L.State) : Prop where
  covered : Covered v
  shardCount : n = v.st.shards.length
  entries : List.Forall₂ (fun l id => l.Perm (v.st.heap id).items) ls v.st.live

/-- What a builder copies is the shard count and the contents of the map as it is, and nobody
else is changing an entry. -/
theorem Surveyed.shows {n t : Nat} {ls : List (List (K × V))} {s : State K V L.State}
    {G : Nat → Guards K V} {g : Ghost K V} (h : Surveyed n ls v)
    (hv : (protocol env L alone).Holds t v s G g) :
    n = s.shardCount ∧ 0 < s.shardCount ∧ Represents ls.flatten (s.contents env.hash) ∧
      ∀ u, u ≠ t → ∀ k, ¬ Writes env.hash (G u) s k := by
  have ha := holds_agree hv
  have hp : Pinned (G t) := holds_guards hv ▸ h.covered.pinned
  have hw := ((holds_inv hv).pinned hp).1
  have hshards : s.shards = v.st.shards := ha.active h.covered.pinned.owns h.covered.active
  have hprevious : s.previous = v.st.previous := ha.previous h.covered.pinned.owns
  have hlive : s.live = v.st.live := by simp only [State.live, hshards, hprevious]
  have hn : n = s.shardCount := by rw [h.shardCount, ← hshards, hw.length]
  have hitems : (s.live.map fun id => (s.heap id).items) =
      v.st.live.map fun id => (v.st.heap id).items := by
    rw [hlive]
    exact List.map_congr_left fun id hid => by rw [ha.heap id (h.covered.shards id hid)]
  have hentries : List.Forall₂ (fun l id => l.Perm (s.heap id).items) ls s.live := by
    rw [← List.forall₂_map_right_iff (R := List.Perm) (f := fun id => (s.heap id).items), hitems]
    exact List.forall₂_map_right_iff.mpr h.entries
  refine ⟨hn, hw.count_pos, hw.represents hentries, fun u hu k => ?_⟩
  have hreads : Reads env.hash (G t) s k := holds_guards hv ▸ ha.reads (h.covered.reads k)
  exact (holds_inv hv).reads_writes hreads hu

/-- A builder that owns every shard reads the epoch, which names what it copies. -/
theorem Calm.via_copyAll (h : Calm env sp surveying ds cs v) (hsp : AllowsSnapshot sp ds) :
    (protocol env L alone).Via (fun r => Surveyed r.2.1 r.2.2) (do
      Sync.lockAllShared v.st.live
      let epoch : Nat ← act .writeEpoch
      let contents ← v.st.live.mapM Sync.copyShard
      Sync.unlockAll v.st.live
      act (.unlock .previous)
      act (.unlock .active)
      act (.unlock .routing)
      return (epoch, v.st.shards.length, contents)) v fun r v' =>
        ∃ d, Captured env sp building ds cs r.1 r.2.2.flatten d v' ∧ (alone → d = v.abs) := by
  have hp : Pinned (surveying (K := K) (V := V)) := by simp
  have ha : Owns (surveying (K := K) (V := V)) .active := by simp
  have hw := h.wellFormed hp.owns
  refine Protocol.Via.after (Protocol.Wp.bind ((h.wp_lockShards hp.owns hw.nodup (by simp)
    fun _ hid => hid).mono ?_))
  rintro _ v₁ ⟨h₁, k₁, w₁⟩
  have hactive : v₁.st.shards = v.st.shards := k₁.active hp.owns ha
  have hlive : v₁.st.live = v.st.live := by
    simp only [State.live, hactive, k₁.previous hp.owns]
  have hsub : ∀ l m, Guard.lock l m ∈ surveying (K := K) (V := V) →
      Guard.lock l m ∈ shardGuards .shared v.st.live surveying := fun l m hm =>
    mem_shardGuards.mpr (.inr hm)
  have hcov : Covered v₁ := by
    refine ⟨?_, ?_, fun id hid => ?_⟩
    · rw [h₁.guards]
      exact hsub _ _ hp
    · rw [h₁.guards]
      exact owns_shardGuards.mpr (.inr ha)
    · rw [h₁.guards]
      exact owns_shardGuards.mpr (.inl ⟨id, hlive ▸ hid, rfl⟩)
  have habs : v₁.abs = v₁.st.contents env.hash := funext fun k =>
    h₁.clean.contents k (hcov.reads k)
  have hw₁ := h₁.wellFormed (hcov.pinned.owns.imp fun m hm => h₁.guards ▸ hm)
  refine Protocol.Via.after (wp_last (wp_quiet rfl (rule_capture hcov (fun e => ?_) fun e => ?_)))
  · rw [h₁.spec, h₁.visible]
    have hread : List.Forall₂ (fun l id => l.Perm (v₁.st.heap id).items)
        (v₁.st.live.map fun id => (v₁.st.heap id).items) v₁.st.live := by
      rw [List.forall₂_map_left_iff]
      exact List.forall₂_same.mpr fun _ _ => .refl _
    exact hsp e _ v₁.abs (habs ▸ hw₁.represents hread)
  have h₂ := h₁.snapshot e v₁.abs (update v₁.known e (some v₁.abs))
  refine Protocol.Via.after ((h₂.wp_copyShards fun id hid =>
    owns_shardGuards.mpr (.inl ⟨id, hid, rfl⟩)).mono ?_)
  rintro ls v₃ ⟨he, hls⟩
  subst he
  refine Protocol.Via.here (x := (e, v.st.shards.length, ls))
    ⟨⟨hcov.pinned, hcov.active, hcov.shards⟩, congrArg List.length hactive.symm, hlive ▸ hls⟩ ?_
  refine Protocol.Wp.bind ((h₂.wp_unlockAll hw.nodup).mono ?_)
  rintro _ v₄ ⟨h₄, _, k₄⟩
  refine wp_unlock_calm h₄ (fun he => by cases he) fun v₅ h₅ _ k₅ => ?_
  rw [without_lock] at h₅
  refine wp_unlock_calm h₅ (fun he => by cases he) fun v₆ h₆ _ k₆ => ?_
  rw [without_lock] at h₆
  refine wp_unlock_calm h₆ (fun _ l hl => ?_) fun v₇ h₇ _ k₇ => ?_
  · rw [owns_lock, owns_lock]
    rintro (rfl | rfl | ho)
    · cases hl
    · cases hl
    · exact owns_nil _ ho
  rw [without_lock] at h₇
  refine ⟨rfl, v₁.abs, ⟨h₇, ?_, ?_⟩, fun hal => congrArg World.abs (w₁ hal)⟩
  · rw [habs]
    exact hw₁.represents (hlive ▸ hls)
  · rw [k₇, k₆, k₅, k₄]
    exact Function.update_self _ _ _

/-- The data of every shard, with the epoch at which it was current. -/
theorem Calm.via_captureViewData (h : Calm env sp building ds cs v)
    (hsp : AllowsSnapshot sp ds) :
    (protocol env L alone).Via (fun r => Surveyed r.2.1 r.2.2) Sync.captureViewData v fun r v' =>
      ∃ d, Captured env sp building ds cs r.1 r.2.2.flatten d v' ∧ (alone → d = v.abs) := by
  refine Protocol.Via.after (wp_last (wp_lock_calm h (fun he => by cases he)
    (by simp [Guard.excludes]) (fun _ l hl => ?_) (fun _ he => by cases he) fun v₁ h₁ _ w₁ => ?_))
  · rw [owns_lock]
    rintro (rfl | ho)
    · cases hl
    · simp at ho
  refine Protocol.Via.after (wp_last (wp_lock_calm h₁ (fun _ => ⟨.shared, by simp⟩)
    (by simp [Guard.excludes]) (fun he => by cases he) (fun _ he => by cases he)
    fun v₂ h₂ _ w₂ => ?_))
  refine Protocol.Via.after (wp_last (wp_lock_calm h₂ (fun _ => ⟨.shared, by simp⟩)
    (by simp [Guard.excludes]) (fun he => by cases he) (fun _ he => by cases he)
    fun v₃ h₃ _ w₃ => ?_))
  have hp : Pinned (surveying (K := K) (V := V)) := by simp
  have ha : Owns (surveying (K := K) (V := V)) .active := by simp
  refine Protocol.Via.after (wp_last (wp_quiet rfl
    (rule_shards (.inr ⟨h₃.owns hp.owns, h₃.owns ha⟩) ?_)))
  refine Protocol.Via.after (wp_last (wp_quiet rfl (rule_previous (h₃.owns hp.owns) ?_)))
  refine (h₃.via_copyAll hsp).mono (fun _ _ => id) fun r v₄ hr => ?_
  obtain ⟨d, h₄, hd⟩ := hr
  refine ⟨d, h₄, fun hal => ?_⟩
  rw [hd hal, w₃ hal, w₂ hal, w₁ hal]

theorem Calm.wp_captureViewData (h : Calm env sp building ds cs v)
    (hsp : AllowsSnapshot sp ds) :
    (protocol env L alone).Wp Sync.captureViewData v fun r v' =>
      ∃ d, Captured env sp building ds cs r.1 r.2.2.flatten d v' ∧ (alone → d = v.abs) :=
  (h.via_captureViewData hsp).wp

end Capture

section Snapshots

theorem Captured.unlock {e : Nat} {items : List (K × V)} {d : Contents K V} {l : LockId}
    (h : Captured env sp (.lock l m :: gs) ds cs e items d v) (hl : l ≠ .routing)
    {f : Unit → Prog K V α} (hΦ : ∀ v', Captured env sp gs ds cs e items d v' →
      (protocol env L alone).Wp (f ()) v' Φ) :
    (protocol env L alone).Wp (act (.unlock l) >>= f) v Φ := by
  refine wp_unlock_calm h.calm (fun he => absurd he hl) fun v₁ h₁ _ k₁ => hΦ v₁ ?_
  rw [without_lock] at h₁
  exact ⟨h₁, h.represents, by rw [k₁]; exact h.known⟩

theorem Captured.lock {e : Nat} {items : List (K × V)} {d : Contents K V} {l : LockId}
    (h : Captured env sp gs ds cs e items d v) (hl : l.inner = false) (hr : l ≠ .routing)
    (hfree : ¬ Owns gs l) {f : Unit → Prog K V α}
    (hΦ : ∀ v', Captured env sp (.lock l m :: gs) ds cs e items d v' →
      (protocol env L alone).Wp (f ()) v' Φ) :
    (protocol env L alone).Wp (act (.lock l m) >>= f) v Φ := by
  obtain ⟨⟨hc, hs, rfl, hsp, hv, hcs, hq⟩, hrep, hk⟩ := h
  have hin : l.inner → Owns v.gs .routing := fun hi => by
    rw [hl] at hi
    cases hi
  refine wp_lock hc hs hin (free_of_not_owns hfree) (fun id hid => ?_) fun w _ hcw _ =>
    hΦ _ ⟨⟨hcw, hs.lock hin (free_of_not_owns hfree) (fun he => absurd he hr), rfl, hsp, hv, hcs,
      hq⟩, hrep, hk⟩
  subst hid
  cases hl

theorem Captured.cached {e : Nat} {items : List (K × V)} {d : Contents K V}
    (h : Captured env sp gs ds cs e items d v) (c : Option (Nat × List (K × V))) :
    Captured env sp gs ds cs e items d { v with st := { v.st with cache := c } } := by
  have hcore : State.SameCore v.st { v.st with cache := c } :=
    ⟨rfl, rfl, rfl, rfl, rfl, rfl, rfl, rfl, rfl⟩
  have hs := h.calm.settled
  have ha : Aside env v v.gs [] { v with st := { v.st with cache := c } } :=
    ⟨hs.frame hcore.tables (fun _ => rfl) rfl rfl rfl fun h => h, rfl, hcore, rfl, rfl, rfl, rfl,
      rfl, rfl, by simp, id⟩
  have hcalm := h.calm.aside_same ha
  rw [List.append_nil] at hcalm
  exact ⟨hcalm, h.represents, h.known⟩

theorem Calm.wp_build (h : Calm env sp [] ds cs v) {f : Unit → Prog K V α}
    (hΦ : ∀ v', Calm env sp building ds cs v' → (alone → v'.toWorld = v.toWorld) →
      (protocol env L alone).Wp (f ()) v' Φ) :
    (protocol env L alone).Wp (act (.lock .builder .excl) >>= f) v Φ :=
  wp_lock_calm h (fun he => by cases he) (by simp) (fun he => by cases he)
    (fun _ he => by cases he) fun v₁ h₁ _ w₁ => hΦ v₁ h₁ w₁

theorem Calm.via_snapshotView (h : Calm env sp [] ds cs v)
    (hsp : AllowsSnapshot sp ds) :
    (protocol env L alone).Via (fun view => Surveyed view.shardCount view.shards)
      Sync.snapshotView v fun r v' =>
        ∃ d, Captured env sp [] ds cs r.version r.items d v' ∧ (alone → d = v.abs) := by
  refine Protocol.Via.after (wp_last (h.wp_build fun v₁ h₁ w₁ => ?_))
  refine Protocol.Via.bind (r := fun r => ⟨r.2.2, r.1, r.2.1⟩)
    ((h₁.via_captureViewData hsp).mono (fun _ _ => id) fun r v₂ ⟨d, h₂, hd⟩ => ?_)
  obtain ⟨e, n, ls⟩ := r
  exact h₂.unlock (fun he => by cases he) fun v₃ h₃ =>
    ⟨rfl, d, h₃, fun hal => by rw [hd hal, w₁ hal]⟩

theorem Calm.wp_snapshotView (h : Calm env sp [] ds cs v)
    (hsp : AllowsSnapshot sp ds) :
    (protocol env L alone).Wp Sync.snapshotView v fun r v' =>
      ∃ d, Captured env sp [] ds cs r.version r.items d v' ∧ (alone → d = v.abs) :=
  (h.via_snapshotView hsp).wp

theorem Calm.wp_collectWith (h : Calm env sp [] ds cs v)
    (hsp : AllowsSnapshot sp ds) :
    (protocol env L alone).Wp Sync.collectWith v fun items v' =>
      ∃ e d, Captured env sp [] ds cs e items d v' := by
  refine h.wp_build fun v₁ h₁ _ => ?_
  refine Protocol.Wp.bind ((h₁.wp_captureViewData hsp).mono fun r v₂ ⟨d, h₂, _⟩ => ?_)
  obtain ⟨e, n, ls⟩ := r
  exact h₂.unlock (fun he => by cases he) fun v₃ h₃ => wp_user h₃.calm.settled ⟨e, d, h₃⟩

/-- A cached pair is handed out only while its epoch is current. -/
theorem Calm.wp_cachedSnapshot (h : Calm env sp gs ds cs v) (hfree : ¬ Owns gs .cache)
    (hsp : AllowsSnapshot sp ds) :
    (protocol env L alone).Wp (Sync.cachedSnapshot env) v fun r v' =>
      match r with
      | none => Calm env sp gs ds cs v'
      | some (e, items) => ∃ d, Captured env sp gs ds cs e items d v' := by
  unfold Sync.cachedSnapshot
  split
  · exact h
  · refine wp_lock_calm h (fun he => by cases he) (free_of_not_owns hfree) (fun he => by cases he)
      (fun _ he => by cases he) fun v₁ h₁ _ _ => ?_
    refine wp_quiet rfl (rule_readCache ?_ fun e items d hd => ?_)
    · refine wp_unlock_calm h₁ (fun he => by cases he) fun v₂ h₂ _ _ => ?_
      rw [without_lock] at h₂
      exact h₂
    · have h₂ : Calm env sp (.lock .cache .excl :: gs) ds cs
          { v₁ with known := update v₁.known e (some d) } :=
        ⟨h₁.clean, h₁.stack, h₁.guards, h₁.spec, h₁.visible, h₁.counted, h₁.quiet⟩
      refine wp_quiet rfl (rule_hit (e := e) (d := d) (Function.update_self _ _ _) ?_
        (fun n hn => ?_) ?_)
      · show v₁.spec (Starshard.visible v₁.evs ++ [Event.snapshot e d])
        rw [h₁.spec, h₁.visible]
        exact hsp e items d hd
      · refine wp_unlock_calm h₂ (fun he => by cases he) fun v₃ h₃ _ _ => ?_
        rw [without_lock] at h₃
        rw [if_neg (Ne.symm hn)]
        exact h₃
      · have h₃ : Captured env sp (.lock .cache .excl :: gs) ds cs e items d _ :=
          ⟨h₂.snapshot e d (update (update v₁.known e (some d)) e (some d)), hd,
            Function.update_self _ _ _⟩
        refine h₃.unlock (fun he => by cases he) fun v₄ h₄ => ?_
        rw [if_pos rfl]
        exact ⟨d, h₄⟩

theorem Captured.wp_storeSnapshot {e : Nat} {items : List (K × V)} {d : Contents K V}
    (h : Captured env sp gs ds cs e items d v) (hfree : ¬ Owns gs .cache) :
    (protocol env L alone).Wp (Sync.storeSnapshot env e items) v fun _ v' =>
      Captured env sp gs ds cs e items d v' := by
  by_cases hm : env.snapshotMode ≠ .clone
  · have hstore : Sync.storeSnapshot env e items = (do
        act (.lock .cache .excl)
        act (.writeCache (some (e, items)))
        act (.unlock .cache)) := if_pos hm
    rw [hstore]
    refine h.lock (l := .cache) rfl (fun he => by cases he) hfree fun v₁ h₁ => ?_
    refine wp_quiet rfl (rule_writeCache h₁.known h₁.represents ?_)
    exact wp_last ((h₁.cached _).unlock (fun he => by cases he) fun v₂ h₂ => h₂)
  · have hskip : Sync.storeSnapshot env e items = pure () := if_neg hm
    rw [hskip]
    exact h

theorem Calm.wp_captureSnapshot (h : Calm env sp [] ds cs v)
    (hsp : AllowsSnapshot sp ds) :
    (protocol env L alone).Wp (Sync.captureSnapshot env) v fun r v' =>
      ∃ d, Captured env sp [] ds cs r.1 r.2 d v' := by
  refine Protocol.Wp.bind ((h.wp_cachedSnapshot (by simp) hsp).mono fun r v₁ h₁ => ?_)
  cases r with
  | some r => exact h₁
  | none =>
    have h₁ : Calm env sp [] ds cs v₁ := h₁
    refine h₁.wp_build fun v₂ h₂ _ => ?_
    refine Protocol.Wp.bind ((h₂.wp_cachedSnapshot (by simp) hsp).mono fun r v₃ h₃ => ?_)
    cases r with
    | some r =>
      obtain ⟨d, h₃⟩ := h₃
      exact h₃.unlock (fun he => by cases he) fun v₄ h₄ => ⟨d, h₄⟩
    | none =>
      have h₃ : Calm env sp building ds cs v₃ := h₃
      refine Protocol.Wp.bind ((h₃.wp_captureViewData hsp).mono fun r v₄ ⟨d, h₄, _⟩ => ?_)
      obtain ⟨e, n, ls⟩ := r
      refine wp_user h₄.calm.settled (Protocol.Wp.bind ?_)
      refine (h₄.wp_storeSnapshot (by simp)).mono fun _ v₅ h₅ => ?_
      exact h₅.unlock (fun he => by cases he) fun v₆ h₆ => wp_user h₆.calm.settled ⟨d, h₆⟩

theorem Calm.wp_iter (h : Calm env sp [] ds cs v) (hsp : AllowsSnapshot sp ds) :
    (protocol env L alone).Wp (Sync.iter env) v fun items v' =>
      ∃ e d, Captured env sp [] ds cs e items d v' := by
  unfold Sync.iter
  split
  · exact h.wp_collectWith hsp
  · refine Protocol.Wp.bind ((h.wp_captureSnapshot hsp).mono fun r v₁ ⟨d, h₁⟩ => ?_)
    exact wp_user h₁.calm.settled ⟨_, d, h₁⟩

theorem Calm.wp_snapshotAtVersion (h : Calm env sp [] ds cs v)
    (hsp : AllowsSnapshot sp ds) {version : Nat} (hold : sp (ds ++ [Event.outdated version])) :
    (protocol env L alone).Wp (Sync.snapshotAtVersion env version) v fun r v' =>
      (r = none ∧ Calm env sp [] (ds ++ [Event.outdated version]) cs v') ∨
        ∃ e items d, r = (if version = e then some items else none) ∧
          Captured env sp [] ds cs e items d v' := by
  refine wp_quiet rfl (rule_outdated (by rw [h.spec, h.visible]; exact hold) ?_ fun n hn => ?_)
  · rw [if_neg (not_not_intro rfl)]
    refine Protocol.Wp.bind ((h.wp_captureSnapshot hsp).mono ?_)
    rintro r v₁ ⟨d, h₁⟩
    exact .inr ⟨_, _, d, rfl, h₁⟩
  · rw [if_pos (Ne.symm hn)]
    exact .inl ⟨rfl, h.outdated version⟩

end Snapshots

end Starshard
