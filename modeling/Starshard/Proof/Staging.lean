import Starshard.Proof.Migrating

/-! The stop-the-world rebalance: all entries are staged into a new generation, which
replaces both old ones at once. -/
namespace Starshard

open Data Concurrent
open Function (update)

variable {K V : Type} [DecidableEq K] {env : Env K V} {L : Lifecycle K V} {alone : Prop}
  {v v' : View K V L.State} {α : Type} {Φ : α → View K V L.State → Prop}
  {sp : List (Event K V) → Prop} {gs : Guards K V} {ds : List (Event K V)}
  {cs : List Metric} {k : K} {id target : Nat}

section Maps

abbrev Maps (K V : Type) := List (Option (Assoc K V))

/-- What a staged generation holds for a key. -/
def stagedLookup (hash : K → Nat) (target : Nat) (maps : Maps K V) (k : K) : Option V :=
  (maps[hash k % target]?.join).bind fun m => m.lookup k

/-- The pure part of staging one entry. -/
def stageEntry (hash : K → Nat) (target : Nat) (staged : Maps K V × Nat) (e : K × V) :
    Maps K V × Nat :=
  let index := hash e.1 % target
  let map := (staged.1[index]?.join).getD ∅
  if (map.lookup e.1).isSome then (staged.1.set index (some map), staged.2)
  else (staged.1.set index (some (map.insert e.1 e.2)), staged.2 + 1)

/-- A staged generation holds entries of `c` only, each at its own place. -/
structure Staging (hash : K → Nat) (target : Nat) (c : Contents K V) (maps : Maps K V) : Prop where
  length : maps.length = target
  homed : ∀ (i : Nat) m, maps[i]? = some (some m) → ∀ k x, m.lookup k = some x →
    hash k % target = i
  sound : ∀ k x, stagedLookup hash target maps k = some x → c k = some x

variable {hash : K → Nat} {c : Contents K V} {maps : Maps K V}

theorem Staging.start (target : Nat) :
    Staging hash target c (List.replicate target none) where
  length := List.length_replicate
  homed i m hm := by
    rw [List.getElem?_replicate] at hm
    split at hm <;> cases hm
  sound k x hx := by
    rw [stagedLookup, List.getElem?_replicate] at hx
    split at hx <;> cases hx

theorem stagedLookup_empty (index : Nat) (k : K) :
    ((maps[index]?.join).getD ∅).lookup k = (maps[index]?.join).bind fun m => m.lookup k := by
  cases maps[index]?.join with
  | none => exact AList.lookup_empty k
  | some m => rfl

theorem stageEntry_fst (maps : Maps K V) (n : Nat) (e : K × V) :
    (stageEntry hash target (maps, n) e).1 = maps.set (hash e.1 % target)
      (some (if (((maps[hash e.1 % target]?.join).getD ∅).lookup e.1).isSome
        then (maps[hash e.1 % target]?.join).getD ∅
        else ((maps[hash e.1 % target]?.join).getD ∅).insert e.1 e.2)) := by
  unfold stageEntry
  dsimp only
  split <;> rfl

theorem stagedLookup_set (hash : K → Nat) (target : Nat) {index : Nat} (hi : index < maps.length)
    (m : Assoc K V) (k : K) :
    stagedLookup hash target (maps.set index (some m)) k =
      if hash k % target = index then m.lookup k else stagedLookup hash target maps k := by
  unfold stagedLookup
  split
  · next h =>
    rw [h, List.getElem?_set_self hi]
    rfl
  · next h => rw [List.getElem?_set_ne (Ne.symm h)]

theorem Staging.entry (h : Staging hash target c maps) (ht : 0 < target) (n : Nat) {e : K × V}
    (he : c e.1 = some e.2) :
    Staging hash target c (stageEntry hash target (maps, n) e).1 ∧
      stagedLookup hash target (stageEntry hash target (maps, n) e).1 e.1 = some e.2 ∧
      ∀ k x, stagedLookup hash target maps k = some x →
        stagedLookup hash target (stageEntry hash target (maps, n) e).1 k = some x := by
  have hi : hash e.1 % target < maps.length := by
    rw [h.length]
    exact Nat.mod_lt _ ht
  have hold : ∀ k, ((maps[hash e.1 % target]?.join).getD ∅).lookup k =
      (maps[hash e.1 % target]?.join).bind fun m => m.lookup k := stagedLookup_empty _
  rw [stageEntry_fst]
  generalize hm : (if (((maps[hash e.1 % target]?.join).getD ∅).lookup e.1).isSome
    then (maps[hash e.1 % target]?.join).getD ∅
    else ((maps[hash e.1 % target]?.join).getD ∅).insert e.1 e.2) = m
  have hother : ∀ k, k ≠ e.1 → m.lookup k =
      (maps[hash e.1 % target]?.join).bind fun m => m.lookup k := by
    intro k hk
    rw [← hm, ← hold]
    split
    · rfl
    · exact AList.lookup_insert_ne hk
  have hself : m.lookup e.1 = some e.2 := by
    rw [← hm]
    split
    · next hsome =>
      obtain ⟨y, hy⟩ := Option.isSome_iff_exists.mp hsome
      rw [hy]
      exact (h.sound e.1 y ((hold e.1).symm.trans hy)).symm.trans he
    · exact AList.lookup_insert _
  have hlookup := stagedLookup_set hash target hi m
  refine ⟨⟨?_, fun i m' hm' k x hx => ?_, fun k x hx => ?_⟩, ?_, fun k x hx => ?_⟩
  · rw [List.length_set, h.length]
  · by_cases hik : hash e.1 % target = i
    · subst hik
      rw [List.getElem?_set_self hi] at hm'
      obtain rfl : m = m' := by simpa using hm'
      by_cases hk : k = e.1
      · rw [hk]
      · rw [hother k hk] at hx
        obtain ⟨m', hm', hx⟩ := Option.bind_eq_some_iff.mp hx
        exact h.homed _ m' (Option.join_eq_some_iff.mp hm') k x hx
    · rw [List.getElem?_set_ne hik] at hm'
      exact h.homed i m' hm' k x hx
  · rw [hlookup] at hx
    split at hx
    · next hk =>
      by_cases hke : k = e.1
      · subst hke
        exact he.trans (hself.symm.trans hx)
      · rw [hother k hke, ← hk] at hx
        exact h.sound k x hx
    · exact h.sound k x hx
  · rw [hlookup, if_pos rfl, hself]
  · rw [hlookup]
    split
    · next hk =>
      by_cases hke : k = e.1
      · subst hke
        rw [hself]
        exact he.symm.trans (h.sound e.1 x hx)
      · rw [hother k hke, ← hk]
        exact hx
    · exact hx

theorem Staging.entries (h : Staging hash target c maps) (ht : 0 < target) (n : Nat)
    {es : List (K × V)} (he : ∀ e ∈ es, c e.1 = some e.2) :
    Staging hash target c (es.foldl (stageEntry hash target) (maps, n)).1 ∧
      (∀ e ∈ es, stagedLookup hash target (es.foldl (stageEntry hash target) (maps, n)).1 e.1 =
        some e.2) ∧
      ∀ k x, stagedLookup hash target maps k = some x →
        stagedLookup hash target (es.foldl (stageEntry hash target) (maps, n)).1 k = some x := by
  induction es generalizing maps n with
  | nil => exact ⟨h, by simp, fun _ _ h => h⟩
  | cons e es ih =>
    obtain ⟨h₁, hself, hkeep⟩ := h.entry ht n (he e (by simp))
    obtain ⟨h₂, hall, hkeep'⟩ := ih h₁ (stageEntry hash target (maps, n) e).2
      fun e' he' => he e' (by simp [he'])
    refine ⟨h₂, fun e' he' => ?_, fun k x hx => hkeep' k x (hkeep k x hx)⟩
    rcases List.mem_cons.mp he' with rfl | he'
    · exact hkeep' _ _ hself
    · exact hall e' he'

end Maps

section Layout

omit [DecidableEq K] in
theorem getElem?_allocate (next : Nat) (maps : Maps K V) (i : Nat) :
    (allocate next maps)[i]? = maps[i]?.map fun m => m.map fun _ => next + i := by
  induction maps generalizing next i with
  | nil => rfl
  | cons m maps ih =>
    cases i with
    | zero => cases m <;> rfl
    | succ i =>
      have ih := ih (next + 1) i
      have hi : next + 1 + i = next + (i + 1) := by omega
      rw [hi] at ih
      cases m <;> exact ih

omit [DecidableEq K] in
theorem allocate_slot {next : Nat} {maps : Maps K V} {i id : Nat}
    (h : (allocate next maps)[i]? = some (some id)) :
    id = next + i ∧ ∃ m, maps[i]? = some (some m) := by
  rw [getElem?_allocate] at h
  cases hm : maps[i]? with
  | none => simp [hm] at h
  | some slot =>
    cases slot with
    | none => simp [hm] at h
    | some m =>
      rw [hm] at h
      have h : some (some (next + i)) = some (some id) := h
      exact ⟨by simpa using h.symm, m, rfl⟩

omit [DecidableEq K] in
theorem allocated_slot (heap : Nat → Assoc K V) (next : Nat) {maps : Maps K V} {i : Nat}
    {m : Assoc K V} (hm : maps[i]? = some (some m)) :
    allocated heap next maps (next + i) = m := by
  unfold allocated
  rw [if_neg (by omega), Nat.add_sub_cancel_left, hm]
  rfl

omit [DecidableEq K] in
theorem nodup_allocate (next : Nat) (maps : Maps K V) :
    (allocatedShards (allocate next maps)).Nodup := by
  induction maps generalizing next with
  | nil => exact .nil
  | cons m maps ih =>
    cases m with
    | none => exact ih (next + 1)
    | some m =>
      refine List.nodup_cons.mpr ⟨fun hmem => ?_, ih (next + 1)⟩
      obtain ⟨i, hi⟩ := mem_allocatedShards.mp hmem
      have := (allocate_slot hi).1
      omega

/-- The layout after the staged generation was published. -/
def State.staged {E : Type} (s : State K V E) (maps : Maps K V) (target : Nat) (p : Progress)
    (life : E) : State K V E :=
  { s with
    shards := allocate s.next maps
    heap := allocated s.heap s.next maps
    next := s.next + maps.length
    previous := none
    previousShardCount := 0
    shardCount := target
    tracker := p
    life := life }

variable {s : State K V L.State} {maps : Maps K V} {p : Progress} {life : L.State}

theorem State.activeLookup_staged (k : K) : (s.staged maps target p life).activeLookup env.hash k =
    stagedLookup env.hash target maps k := by
  show (((allocate s.next maps)[env.hash k % target]?).join).bind
    (fun id => (allocated s.heap s.next maps id).lookup k) = _
  rw [getElem?_allocate, stagedLookup]
  cases hm : maps[env.hash k % target]? with
  | none => rfl
  | some slot =>
    cases slot with
    | none => rfl
    | some m =>
      show (allocated s.heap s.next maps (s.next + env.hash k % target)).lookup k = m.lookup k
      rw [allocated_slot _ _ hm]

theorem State.contents_staged (h : Staging env.hash target (s.contents env.hash) maps)
    (hall : ∀ k x, s.contents env.hash k = some x → stagedLookup env.hash target maps k = some x)
    (k : K) : (s.staged maps target p life).contents env.hash k = s.contents env.hash k := by
  have hprev : (s.staged maps target p life).prevLookup env.hash k = none := rfl
  rw [State.contents, hprev, State.activeLookup_staged]
  cases hk : stagedLookup env.hash target maps k with
  | some x => exact (h.sound k x hk).symm
  | none =>
    cases hc : s.contents env.hash k with
    | none => rfl
    | some x =>
      rw [hall k x hc] at hk
      cases hk

theorem Staging.wellFormed {c : Contents K V} (h : Staging env.hash target c maps)
    (ht : 0 < target) (hp : p.layout.migrating = false) :
    (s.staged maps target p life).WellFormed env.hash where
  count_pos := ht
  length := by
    show (allocate s.next maps).length = target
    have hlen : ∀ (next : Nat) (maps : Maps K V), (allocate next maps).length = maps.length := by
      intro next maps
      induction maps generalizing next with
      | nil => rfl
      | cons m maps ih => cases m <;> exact congrArg (· + 1) (ih (next + 1))
    rw [hlen, h.length]
  previous_length _ h := nomatch h
  previous_none := ⟨fun _ => rfl, fun _ => rfl⟩
  migrating := hp
  progress h := nomatch h
  drained _ _ := rfl
  nodup := by
    show (allocatedShards (allocate s.next maps) ++ []).Nodup
    rw [List.append_nil]
    exact nodup_allocate _ _
  bound id hid := by
    obtain ⟨i, hi⟩ | ⟨i, hi⟩ := State.mem_live.mp hid
    · obtain ⟨rfl, m, hm⟩ := allocate_slot hi
      have := (List.getElem?_eq_some_iff.mp hm).1
      show s.next + i < s.next + maps.length
      omega
    · cases hi
  home_active i id hi k x hx := by
    obtain ⟨rfl, m, hm⟩ := allocate_slot hi
    have hx : (allocated s.heap s.next maps (s.next + i)).lookup k = some x := hx
    rw [allocated_slot _ _ hm] at hx
    exact h.homed i m hm k x hx
  home_previous _ _ h := nomatch h
  disjoint k := .inr rfl

/-- Well-formed maps with the same contents store the same number of entries. -/
theorem State.WellFormed.size_eq {s s' : State K V L.State} (hw : s.WellFormed env.hash)
    (hw' : s'.WellFormed env.hash) (hc : ∀ k, s'.contents env.hash k = s.contents env.hash k) :
    (s'.live.map fun id => (s'.heap id).size).sum = (s.live.map fun id => (s.heap id).size).sum := by
  have hall : ∀ (s : State K V L.State), List.Forall₂ (fun l id => l.Perm (s.heap id).items)
      (s.live.map fun id => (s.heap id).items) s.live := by
    intro s
    induction s.live with
    | nil => exact .nil
    | cons id ids ih => exact .cons (.refl _) ih
  have h₁ := hw.represents (hall s)
  have h₂ := hw'.represents (hall s')
  rw [funext hc] at h₂
  rw [← State.length_entries (hall s), ← State.length_entries (hall s')]
  exact h₂.length_eq h₁

end Layout
section Program

theorem Calm.wp_stageShard (h : Calm env sp gs ds cs v) (hx : Exclusive gs)
    (hfree : ¬ Owns gs (.shard id)) (ht : 0 < target) (hid : id ∈ v.st.live) {maps : Maps K V}
    (hm : Staging env.hash target (v.st.contents env.hash) maps) (n : Nat) :
    (protocol env L alone).Wp (Sync.stageShard env target (maps, n) id) v fun r v' =>
      Calm env sp gs ds cs v' ∧ State.SameCore v.st v'.st ∧
        Staging env.hash target (v.st.contents env.hash) r.1 ∧
        (∀ k x, (v.st.heap id).lookup k = some x → stagedLookup env.hash target r.1 k = some x) ∧
        ∀ k x, stagedLookup env.hash target maps k = some x →
          stagedLookup env.hash target r.1 k = some x := by
  refine h.wp_lock_owned hx (l := .shard id) (fun he => by cases he) hfree fun v₁ h₁ s₁ => ?_
  have hx₁ : Exclusive (.lock (.shard id) .shared :: gs) := List.mem_cons_of_mem _ hx
  refine wp_quiet rfl (rule_entries (.inl (h₁.guards.symm ▸ hx₁)) fun l hl => Protocol.Wp.bind ?_)
  refine (Protocol.Wp.foldlM (I := fun pre r (w : View K V L.State) =>
    r = pre.foldl (stageEntry env.hash target) (maps, n) ∧ w = v₁)
    (fun pre e post r w _ ⟨hr, hw⟩ => ?_) ⟨rfl, rfl⟩).mono fun r v₂ ⟨hr, he⟩ => ?_
  · subst hw
    refine wp_user h₁.settled ⟨?_, rfl⟩
    rw [List.foldl_append, ← hr]
    rfl
  · subst he
    have hentries : ∀ e ∈ l, v.st.contents env.hash e.1 = some e.2 := fun e he => by
      have hlookup := Assoc.mem_items.mp (hl.mem_iff.mp he)
      rw [s₁.heap] at hlookup
      exact (h.wellFormed hx.owns).contents_some hid hlookup
    obtain ⟨hstaging, hall, hkeep⟩ := hm.entries ht n hentries
    rw [← hr] at hstaging hall hkeep
    refine wp_unlock_calm h₁ (fun he => by cases he) fun v₃ h₃ w₃ _ => ?_
    rw [without_lock] at h₃
    refine ⟨h₃, by rw [w₃]; exact s₁, hstaging, fun k x hx => ?_, hkeep⟩
    have hmem : (k, x) ∈ l := by
      rw [hl.mem_iff, Assoc.mem_items, s₁.heap]
      exact hx
    exact hall _ hmem

/-- The staged generation replaces both old ones while routing is owned. -/
theorem Calm.wp_publishStaged (hsync : env.awaits = false) (h : Calm env sp owned ds cs v)
    (ht : 0 < target) {maps : Maps K V} (hm : Staging env.hash target (v.st.contents env.hash) maps)
    (hall : ∀ k x, v.st.contents env.hash k = some x →
      stagedLookup env.hash target maps k = some x) (current moved started : Nat) :
    (protocol env L alone).Wp (do
      act (.lock .active .excl)
      let _ ← act (.install maps)
      act (.unlock .active)
      act (.lock .previous .excl)
      let _ ← act (.setPrevious none)
      act (.unlock .previous)
      act (.setPreviousShardCount 0)
      act (.setShardCount target)
      act (.life .markPending)
      let now : Nat ← act .clock
      let _ ← act (.tracker (Progress.finishStaged current target moved (now - started)))
      act (.unlock .routing)
      act .user
      let now : Nat ← act .clock
      return (⟨current, target, moved, (now - started) / 1000000⟩ : RebalanceReport)) v
      fun _ v' => Calm env sp [] ds cs v' := by
  have hx := owned_exclusive (K := K) (V := V)
  have hs : Stack (owned (K := K) (V := V)) := h.guards ▸ h.stack
  refine h.wp_lock_owned hx (l := .active) (fun he => by cases he) (owned_free _ rfl)
    fun v₁ h₁ s₁ => ?_
  have hx₁ : Exclusive (.lock .active .excl :: owned (K := K) (V := V)) :=
    List.mem_cons_of_mem _ hx
  have hgs : without v₁.gs .active = owned := by rw [h₁.guards, without_lock]
  refine wp_quiet rfl (rule_install_exclusive (h₁.guards.symm ▸ hx₁) ?_)
  refine wp_quiet rfl (rule_unlock_exclusive (by exact h₁.guards.symm ▸ hx₁)
    (fun he => by cases he) ?_)
  dsimp only
  rw [hgs]
  refine wp_lock_sync hsync hx (free_of_not_owns (owned_free _ rfl)) ?_
  have hx₂ : Exclusive (.lock .previous .excl :: owned (K := K) (V := V)) :=
    List.mem_cons_of_mem _ hx
  refine wp_quiet rfl (rule_setPrevious_exclusive (by exact hx₂) ?_)
  refine wp_quiet rfl (rule_unlock_exclusive (by exact hx₂) (fun he => by cases he) ?_)
  dsimp only
  rw [without_lock]
  refine wp_quiet rfl (rule_setPreviousShardCount_exclusive (by exact hx) ?_)
  refine wp_quiet rfl (rule_setShardCount_exclusive (by exact hx) ?_)
  refine wp_markPending fun e => wp_clock fun now => ?_
  refine Protocol.Shift.wp (shift_acc (by exact hx)
    (fun id => (allocated v₁.st.heap v₁.st.next maps id).size) ?_)
  refine wp_quiet rfl (rule_tracker_exclusive (by exact hx) fun p _ => ?_)
  have hw₁ := h₁.wellFormed hx₁.owns
  have hc₁ : v₁.st.contents env.hash = v.st.contents env.hash :=
    funext fun k => s₁.tables.contents k
  have hm₁ : Staging env.hash target (v₁.st.contents env.hash) maps := by
    rw [hc₁]
    exact hm
  have hall₁ : ∀ k x, v₁.st.contents env.hash k = some x →
      stagedLookup env.hash target maps k = some x := by
    rw [hc₁]
    exact hall
  let st := v₁.st.staged maps target (Progress.finishStaged current target moved (now - started) p) e
  have hnew : ∀ k, st.contents env.hash k = v₁.st.contents env.hash k :=
    State.contents_staged hm₁ hall₁
  have hw' : st.WellFormed env.hash := hm₁.wellFormed ht rfl
  have h₂ := h₁.relaid hx₁ hs st hw' ((h₁.settled.total (h₁.guards.symm ▸ hx₁)).trans
    (hw₁.size_eq hw' hnew).symm) hnew
  exact h₂.wp_disown fun v₃ h₃ => wp_user h₃.settled (wp_clock fun _ => h₃)

theorem Calm.wp_stageShards (h : Calm env sp gs ds cs v) (hx : Exclusive gs)
    (hfree : ∀ l, l.inner → ¬ Owns gs l) (ht : 0 < target) :
    (protocol env L alone).Wp
      (v.st.live.foldlM (Sync.stageShard env target) (List.replicate target none, 0)) v
      fun r v' => Calm env sp gs ds cs v' ∧
        Staging env.hash target (v'.st.contents env.hash) r.1 ∧
        ∀ k x, v'.st.contents env.hash k = some x →
          stagedLookup env.hash target r.1 k = some x := by
  refine (Protocol.Wp.foldlM (I := fun pre (r : Maps K V × Nat) (w : View K V L.State) =>
    Calm env sp gs ds cs w ∧ State.SameCore v.st w.st ∧
      Staging env.hash target (w.st.contents env.hash) r.1 ∧
      ∀ id ∈ pre, ∀ k x, (w.st.heap id).lookup k = some x →
        stagedLookup env.hash target r.1 k = some x)
    (fun pre id post r w hpost ⟨hw, sw, hm, hpre⟩ => ?_)
    ⟨h, .refl _, .start target, by simp⟩).mono fun r v₁ ⟨h₁, s₁, hm, hall⟩ => ?_
  · have hid : id ∈ w.st.live := by
      rw [sw.tables.live, hpost]
      simp
    refine (hw.wp_stageShard hx (hfree _ rfl) ht hid hm r.2).mono
      fun r' w' ⟨hw', sw', hm', hnew, hkeep⟩ => ?_
    have hc : w'.st.contents env.hash = w.st.contents env.hash :=
      funext fun k => sw'.tables.contents k
    rw [← hc] at hm'
    refine ⟨hw', sw.trans sw', hm', fun j hj k x hx' => ?_⟩
    rw [sw'.heap] at hx'
    rcases List.mem_append.mp hj with hj | hj
    · exact hkeep k x (hpre j hj k x hx')
    · rw [List.mem_singleton.mp hj] at hx'
      exact hnew k x hx'
  · refine ⟨h₁, hm, fun k x hc => ?_⟩
    obtain ⟨id, hid, hx'⟩ := State.WellFormed.stored hc
    exact hall id (s₁.tables.live ▸ hid) k x hx'

theorem Calm.wp_rebalanceStaged (hsync : env.awaits = false) (h : Calm env sp [] ds cs v)
    (ht : 0 < target) :
    (protocol env L alone).Wp (Sync.rebalanceStaged env target) v fun _ v' =>
      Calm env sp [] ds cs v' := by
  unfold Sync.rebalanceStaged
  refine h.wp_own fun v₁ h₁ => ?_
  have hx := owned_exclusive (K := K) (V := V)
  refine wp_quiet rfl (rule_shardCount (h₁.owns hx.owns) (wp_clock fun started =>
    wp_readTracker fun p _ => ?_))
  by_cases hdone : target = v₁.st.shardCount ∧ !p.migrating
  · rw [if_pos hdone]
    exact h₁.wp_disown fun v₂ h₂ => h₂
  · rw [if_neg hdone]
    refine Protocol.Wp.bind ((h₁.wp_allShards hx (owned_free _ rfl) (owned_free _ rfl)).mono
      fun ids v₂ ⟨hids, h₂, k₂, _⟩ => ?_)
    have hlive : ids = v₂.st.live := by
      rw [hids, ((Agree.exclusive k₂) hx).1.tables.live]
    rw [hlive]
    refine Protocol.Wp.bind ((h₂.wp_stageShards hx owned_free ht).mono
      fun r v₃ ⟨h₃, hm, hall⟩ => ?_)
    obtain ⟨maps, moved⟩ := r
    exact h₃.wp_publishStaged hsync ht hm hall v₁.st.shardCount moved started

/-- The shard count may be read without owning routing; any value may be found. -/
theorem wp_glanceShardCount {f : Nat → Prog K V α}
    (h : ∀ n, (protocol env L alone).Wp (f n) v Φ) :
    (protocol env L alone).Wp (act .shardCount >>= f) v Φ :=
  wp_quiet rfl (rule_static (.refl _)
    (fun _ _ s _ hv => ⟨s.shardCount, rfl, rfl, (holds_guards hv).symm⟩)
    fun _ _ _ _ hv r _ _ he => ⟨he.2.1, he.2.2.trans (holds_guards hv), h r⟩)

theorem Calm.wp_rebalanceTo (hna : ¬ alone) (hsync : env.awaits = false)
    (h : Calm env sp [] ds cs v) (fuel count : Nat) (options : RebalanceOptions) :
    (protocol env L alone).Wp (Sync.rebalanceTo env fuel count options) v fun _ v' =>
      Calm env sp [] ds cs v' := by
  unfold Sync.rebalanceTo
  cases ht : strictShardCount count MAX_SHARDS with
  | error e => exact h
  | ok target =>
    have hpos := (strictShardCount_ok ht).1
    dsimp only
    split
    · refine wp_glanceShardCount fun current => wp_clock fun started => ?_
      exact Protocol.Wp.bind ((Calm.wp_cooperativeLoop hna hsync hpos options fuel fuel 0 h).mono
        fun moved v₁ h₁ => wp_clock fun _ => h₁)
    · exact Protocol.Wp.bind ((h.wp_rebalanceStaged hsync hpos).mono fun _ _ h₁ => h₁)

end Program
end Starshard
