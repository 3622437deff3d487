import Starshard.Eviction.Agreement
import Starshard.Eviction.Hooks

/-! A sampled candidate validates exactly while nothing happened to it. -/
namespace Starshard.Eviction

variable {K : Type} [DecidableEq K] {fx : K → Nat}

/-- The three ways to sample candidates. -/
inductive Sample (K : Type) where
  | candidates (policy : CapacityPolicy)
  | minimum (policy : CapacityPolicy)
  | forKeys (policy : CapacityPolicy) (keys : List K)

def Sample.take (fx : K → Nat) (e : Engine K) : Sample K → List (EvictionCandidate K)
  | .candidates policy => e.candidates fx policy
  | .minimum policy => (e.minimumCandidate fx policy).toList
  | .forKeys policy keys => e.candidatesForKeys fx policy keys

theorem Sample.mem_take {e : Engine K} {q : Sample K} {c : EvictionCandidate K}
    (h : c ∈ q.take fx e) : ∃ x ∈ e.entries, c = e.candidate fx x := by
  cases q with
  | candidates policy =>
    simp only [Sample.take, Engine.candidates] at h
    split at h
    · exact absurd h List.not_mem_nil
    · simp only [ranked, List.mem_mergeSort] at h
      obtain ⟨x, hx, he⟩ := List.mem_map.mp h
      exact ⟨x, hx, he.symm⟩
  | minimum policy =>
    simp only [Sample.take, Engine.minimumCandidate, Option.mem_toList] at h
    split at h
    · exact absurd h (by simp)
    · obtain ⟨x, hx, he⟩ := List.mem_map.mp
        ((mem_foldl_lower h).resolve_left (by simp))
      exact ⟨x, hx, he.symm⟩
  | forKeys policy keys =>
    simp only [Sample.take, Engine.candidatesForKeys] at h
    split at h
    · exact absurd h List.not_mem_nil
    · simp only [ranked, List.mem_mergeSort] at h
      obtain ⟨k, -, hk⟩ := List.mem_filterMap.mp h
      obtain ⟨x, hx, he⟩ := Option.map_eq_some_iff.mp hk
      exact ⟨x, (Engine.find?_eq_some hx).1, he.symm⟩

inductive Event (K : Type) where
  | hook (h : Hook K)
  | sample (q : Sample K)

/-- The metadata and every candidate sampled so far. -/
structure Log (K : Type) where
  engine : Engine K
  sampled : List (EvictionCandidate K)

def Log.new (K : Type) : Log K := ⟨.new K, []⟩

def Log.step (fx : K → Nat) (l : Log K) : Event K → Log K
  | .hook h => { l with engine := h.apply fx l.engine }
  | .sample q => { l with sampled := l.sampled ++ q.take fx l.engine }

def Log.run (fx : K → Nat) (l : Log K) (evs : List (Event K)) : Log K := evs.foldl (Log.step fx) l

def Event.Room (fx : K → Nat) (e : Engine K) : Event K → Prop
  | .hook h => h.Room fx e
  | .sample _ => True

/-- `record_eviction` gets a candidate that was sampled before, however stale. -/
def Event.Allowed (l : Log K) : Event K → Prop
  | .hook (.evict c) => c ∈ l.sampled
  | .hook h => h.Proper
  | .sample _ => True

def Log.Fits (fx : K → Nat) : Log K → List (Event K) → Prop
  | _, [] => True
  | l, ev :: evs => ev.Allowed l ∧ (l.step fx ev).Fits fx evs

def Log.RoomFor (fx : K → Nat) : Log K → List (Event K) → Prop
  | _, [] => True
  | l, ev :: evs => ev.Room fx l.engine ∧ (l.step fx ev).RoomFor fx evs

/-- The entry of `k` is read with a hit, replaced, removed or created. -/
def Event.Touches (e : Engine K) (k : K) : Event K → Prop
  | .hook (.insert k' _ _) | .hook (.remove k') => k' = k
  | .hook (.read k' hit) => hit = true ∧ k' = k
  | .hook (.evict c) => c.key = k ∧ ∃ x ∈ e.entries, x.key = k ∧ x.incarnation = c.incarnation
  | _ => False

def Event.Repairs : Event K → Prop
  | .hook (.reconcile _) => True
  | _ => False

/-- No event touches the entry of `k`. -/
def Log.Spares (fx : K → Nat) (k : K) : Log K → List (Event K) → Prop
  | _, [] => True
  | l, ev :: evs => ¬ ev.Touches l.engine k ∧ (l.step fx ev).Spares fx k evs

/-- No other entry will ever have the incarnation of the candidate. -/
structure Names (fx : K → Nat) (e : Engine K) (c : EvictionCandidate K) : Prop where
  hash : c.hash = fx c.key
  epoch : c.epoch ≤ e.epoch
  incarnation : c.incarnation < e.sequence
  accessed : c.accessed < e.sequence
  sole : ∀ x ∈ e.entries, x.incarnation = c.incarnation → x.key = c.key

structure Log.Good (fx : K → Nat) (l : Log K) : Prop where
  sane : l.engine.Sane
  named : ∀ c ∈ l.sampled, Names fx l.engine c

/-- The candidate describes an entry as it is. -/
def Intact (fx : K → Nat) (e : Engine K) (c : EvictionCandidate K) : Prop :=
  ∃ x ∈ e.entries, c = e.candidate fx x

/-- The metadata were rebuilt, or what is left of the incarnation was accessed later. -/
def Stale (e : Engine K) (c : EvictionCandidate K) : Prop :=
  c.epoch < e.epoch ∨ ∀ x ∈ e.entries, x.incarnation = c.incarnation → c.accessed < x.accessed

variable {e : Engine K} {l : Log K} {c : EvictionCandidate K}

omit [DecidableEq K] in
theorem Names.of_intact (sn : e.Sane) (h : Intact fx e c) : Names fx e c := by
  obtain ⟨x, hx, rfl⟩ := h
  exact ⟨rfl, Nat.le_refl _, sn.incarnation_lt x hx, sn.accessed_lt x hx,
    fun y hy he => sn.incarnations y hy x hx he⟩

/-- A hook draws later stamps only, and gives no entry an old incarnation. -/
theorem Names.apply (sn : e.Sane) (nm : Names fx e c) {h : Hook K} (hw : h.Room fx e) :
    Names fx (h.apply fx e) c := by
  obtain ⟨hh, hep, hi, ha, hs⟩ := nm
  obtain ⟨hseq, -, hepoch⟩ := hw.advances
  refine ⟨hh, by omega, by omega, by omega, ?_⟩
  intro x hx he
  cases h with
  | insert k w b =>
    cases (Engine.mem_recordInsert sn.keys w b x).mp hx with
    | inl hx => exact hs x hx.1 he
    | inr hx =>
      rw [hx, (Engine.written_stamps w b).1] at he
      omega
  | read k b =>
    have hx' := (Engine.mem_recordRead b x).mp hx
    cases b with
    | false => exact hs x hx' he
    | true =>
      rw [if_pos rfl] at hx'
      cases hx' with
      | inl hx => exact hs x hx.1 he
      | inr hx =>
        obtain ⟨y, hy, -, rfl⟩ := hx
        exact hs y hy he
  | remove k =>
    have hsub := (@Engine.drop_sublist _ fx { e with metrics := e.metrics.count .removes })
      (fx k) fun x => decide (x.key = k)
    exact hs x (hsub.subset hx) he
  | evict d =>
    have hsub := (@Engine.drop_sublist _ fx { e with metrics := e.metrics.count .evictions })
      d.hash fun x => decide (x.incarnation = d.incarnation)
    exact hs x (hsub.subset hx) he
  | mutation => exact hs x hx he
  | markDirty => exact hs x hx he
  | reconcile items =>
    obtain ⟨hent, -⟩ := Engine.reconcile_entries hw.1
    have hx' : x ∈ (e.reconcile fx items).entries := hx
    rw [hent] at hx'
    obtain ⟨-, -, -, hle, -⟩ := Engine.mem_stagedAll hx'
    omega

theorem Log.roomFor_append {evs evs' : List (Event K)} :
    l.RoomFor fx (evs ++ evs') ↔ l.RoomFor fx evs ∧ (l.run fx evs).RoomFor fx evs' := by
  induction evs generalizing l with
  | nil => exact ⟨fun h => ⟨trivial, h⟩, fun h => h.2⟩
  | cons ev evs ih => exact (and_congr_right fun _ => ih).trans and_assoc.symm

theorem Log.Good.step (g : l.Good fx) {ev : Event K} (ha : ev.Allowed l)
    (hw : ev.Room fx l.engine) : (l.step fx ev).Good fx := by
  cases ev with
  | hook h =>
    have hp : h.Proper := by
      cases h with
      | reconcile items => exact ha
      | _ => trivial
    exact ⟨g.sane.apply hp hw, fun c hc => (g.named c hc).apply g.sane hw⟩
  | sample q =>
    refine ⟨g.sane, fun c hc => ?_⟩
    cases List.mem_append.mp hc with
    | inl hc => exact g.named c hc
    | inr hc => exact .of_intact g.sane (Sample.mem_take hc)

theorem Log.Good.run (g : l.Good fx) {evs : List (Event K)} (hf : l.Fits fx evs)
    (hw : l.RoomFor fx evs) : (l.run fx evs).Good fx := by
  induction evs generalizing l with
  | nil => exact g
  | cons ev evs ih => exact ih (g.step hf.1 hw.1) hf.2 hw.2

omit [DecidableEq K] in
theorem Log.Good.new : (Log.new K).Good fx :=
  ⟨.new, fun _ h => absurd h List.not_mem_nil⟩

omit [DecidableEq K] in
theorem Intact.kept {e' : Engine K} {x : Entry K} (hx : x ∈ e'.entries) (he : e'.epoch = e.epoch)
    (hc : c = e.candidate fx x) : Intact fx e' c := by
  refine ⟨x, hx, ?_⟩
  rw [hc]
  unfold Engine.candidate
  rw [he]

theorem Intact.step (g : l.Good fx) (h : Intact fx l.engine c) {ev : Event K} (ha : ev.Allowed l)
    (ht : ¬ ev.Touches l.engine c.key) (hr : ¬ ev.Repairs) : Intact fx (l.step fx ev).engine c := by
  obtain ⟨x, hx, hc⟩ := h
  have hkey : c.key = x.key := congrArg EvictionCandidate.key hc
  cases ev with
  | sample q => exact ⟨x, hx, hc⟩
  | hook h =>
    cases h with
    | insert k w b =>
      have hne : x.key ≠ k := fun he => ht (he.symm.trans hkey.symm)
      exact .kept ((Engine.mem_recordInsert g.sane.keys w b x).mpr (.inl ⟨hx, hne⟩))
        (Engine.recordInsert_fields w b).2.1 hc
    | read k b =>
      apply Intact.kept _ (Engine.recordRead_fields b).1 hc
      apply (Engine.mem_recordRead b x).mpr
      cases b with
      | false => exact hx
      | true =>
        rw [if_pos rfl]
        exact .inl ⟨hx, fun he => ht ⟨rfl, he.symm.trans hkey.symm⟩⟩
    | remove k =>
      have hne : x.key ≠ k := fun he => ht (he.symm.trans hkey.symm)
      exact .kept ((Engine.mem_recordRemove g.sane.keys x).mpr ⟨hx, hne⟩)
        (Engine.drop_fields _ _).2.1 hc
    | evict d =>
      have hmem : x ∈ (l.engine.recordEviction fx d).entries := by
        apply (Engine.mem_recordEviction g.sane.keys g.sane.incarnations x).mpr
        refine ⟨hx, fun he => ht ?_⟩
        have hdk := (g.named d ha).sole x hx he.2
        exact ⟨hdk.symm.trans hkey.symm, x, hx, hkey.symm, he.2⟩
      exact .kept hmem (Engine.recordEviction_same d).1 hc
    | mutation => exact ⟨x, hx, hc⟩
    | markDirty => exact ⟨x, hx, hc⟩
    | reconcile items => exact absurd trivial hr

/-- Whatever touches the entry changes its incarnation or raises its access stamp. -/
theorem Intact.touched (g : l.Good fx) (h : Intact fx l.engine c) {ev : Event K} (ha : ev.Allowed l)
    (hw : ev.Room fx l.engine)
    (ht : ev.Touches l.engine c.key ∨ ev.Repairs) : Stale (l.step fx ev).engine c := by
  have nm := Names.of_intact g.sane h
  obtain ⟨x, hx, hc⟩ := h
  have hkey : c.key = x.key := congrArg EvictionCandidate.key hc
  have hinc : c.incarnation = x.incarnation := congrArg EvictionCandidate.incarnation hc
  cases ev with
  | sample q => exact absurd ht (by simp [Event.Touches, Event.Repairs])
  | hook h =>
    cases h with
    | insert k w b =>
      have hk : k = c.key := ht.resolve_right id
      refine .inr fun y hy he => ?_
      cases (Engine.mem_recordInsert g.sane.keys w b y).mp hy with
      | inl hy => exact absurd ((nm.sole y hy.1 he).trans hk.symm) hy.2
      | inr hy =>
        rw [hy, (Engine.written_stamps w b).1] at he
        have hlt := nm.incarnation
        omega
    | read k b =>
      obtain ⟨rfl, hk⟩ : b = true ∧ k = c.key := ht.resolve_right id
      refine .inr fun y hy he => ?_
      have hy' := (Engine.mem_recordRead true y).mp hy
      rw [if_pos rfl] at hy'
      cases hy' with
      | inl hy => exact absurd ((nm.sole y hy.1 he).trans hk.symm) hy.2
      | inr hy =>
        obtain ⟨z, -, -, rfl⟩ := hy
        exact Nat.lt_of_lt_of_le nm.accessed (Nat.le_max_right _ _)
    | remove k =>
      have hk : k = c.key := ht.resolve_right id
      refine .inr fun y hy he => ?_
      have hy' := (Engine.mem_recordRemove g.sane.keys y).mp hy
      exact absurd ((nm.sole y hy'.1 he).trans hk.symm) hy'.2
    | evict d =>
      obtain ⟨hdk, z, hz, hzk, hzi⟩ := ht.resolve_right id
      refine .inr fun y hy he => ?_
      have hy' := (Engine.mem_recordEviction g.sane.keys g.sane.incarnations y).mp hy
      have hyk := nm.sole y hy'.1 he
      have hyz : y = z := entry_ext g.sane.keys hy'.1 hz (hyk.trans hzk.symm)
      refine absurd ⟨?_, ?_⟩ hy'.2
      · rw [(g.named d ha).hash, hyk, hdk]
      · rw [hyz, hzi]
    | mutation => exact absurd ht (by simp [Event.Touches, Event.Repairs])
    | markDirty => exact absurd ht (by simp [Event.Touches, Event.Repairs])
    | reconcile items =>
      have hepoch : c.epoch = l.engine.epoch := congrArg EvictionCandidate.epoch hc
      have hnext : ((Hook.reconcile items).apply fx l.engine).epoch = l.engine.epoch + 1 :=
        wrapping_of_lt hw.2
      exact .inl (Nat.lt_of_lt_of_eq (Nat.lt_succ_of_le (Nat.le_of_eq hepoch)) hnext.symm)

theorem Stale.step (g : l.Good fx) (nm : Names fx l.engine c) (h : Stale l.engine c)
    {ev : Event K} (hw : ev.Room fx l.engine) :
    Stale (l.step fx ev).engine c := by
  cases ev with
  | sample q => exact h
  | hook hk =>
    cases hk with
    | insert k w b =>
      refine h.imp (fun h => Nat.lt_of_lt_of_eq h (Engine.recordInsert_fields w b).2.1.symm)
        fun h y hy he => ?_
      cases (Engine.mem_recordInsert g.sane.keys w b y).mp hy with
      | inl hy => exact h y hy.1 he
      | inr hy =>
        rw [hy, (Engine.written_stamps w b).1] at he
        have hlt := nm.incarnation
        omega
    | read k b =>
      refine h.imp (fun h => Nat.lt_of_lt_of_eq h (Engine.recordRead_fields b).1.symm)
        fun h y hy he => ?_
      have hy' := (Engine.mem_recordRead b y).mp hy
      cases b with
      | false => exact h y hy' he
      | true =>
        rw [if_pos rfl] at hy'
        cases hy' with
        | inl hy => exact h y hy.1 he
        | inr hy =>
          obtain ⟨z, hz, -, rfl⟩ := hy
          exact Nat.lt_of_lt_of_le (h z hz he) (Nat.le_max_left _ _)
    | remove k =>
      refine h.imp (fun h => Nat.lt_of_lt_of_eq h (Engine.drop_fields _ _).2.1.symm)
        fun h y hy he => ?_
      exact h y ((Engine.mem_recordRemove g.sane.keys y).mp hy).1 he
    | evict d =>
      refine h.imp (fun h => Nat.lt_of_lt_of_eq h (Engine.drop_fields _ _).2.1.symm)
        fun h y hy he => ?_
      exact h y ((Engine.mem_recordEviction g.sane.keys g.sane.incarnations y).mp hy).1 he
    | mutation => exact h
    | markDirty => exact h
    | reconcile items =>
      have hnext : ((Hook.reconcile items).apply fx l.engine).epoch = l.engine.epoch + 1 :=
        wrapping_of_lt hw.2
      exact .inl (Nat.lt_of_lt_of_eq (Nat.lt_succ_of_le nm.epoch) hnext.symm)

theorem Stale.run (g : l.Good fx) (nm : Names fx l.engine c) (h : Stale l.engine c)
    {evs : List (Event K)} (hf : l.Fits fx evs) (hw : l.RoomFor fx evs) :
    Stale (l.run fx evs).engine c := by
  induction evs generalizing l with
  | nil => exact h
  | cons ev evs ih =>
    have nm' : Names fx (l.step fx ev).engine c := by
      cases ev with
      | hook hk => exact nm.apply g.sane hw.1
      | sample q => exact nm
    exact ih (g.step hf.1 hw.1) nm' (h.step g nm hw.1) hf.2 hw.2

/-- A run whose events leave the entry alone leaves the candidate intact. -/
theorem Intact.run (g : l.Good fx) (h : Intact fx l.engine c) {evs : List (Event K)}
    (hf : l.Fits fx evs) (hw : l.RoomFor fx evs) (hr : ∀ ev ∈ evs, ¬ ev.Repairs)
    (hs : l.Spares fx c.key evs) : Intact fx (l.run fx evs).engine c := by
  induction evs generalizing l with
  | nil => exact h
  | cons ev evs ih =>
    have hi := h.step g hf.1 hs.1 (hr ev List.mem_cons_self)
    exact ih (g.step hf.1 hw.1) hi hf.2 hw.2
      (fun ev' hev => hr ev' (List.mem_cons_of_mem ev hev)) hs.2

/-- The first event that does not makes it stale for good. -/
theorem Intact.run_touched (g : l.Good fx) (h : Intact fx l.engine c) {evs : List (Event K)}
    (hf : l.Fits fx evs) (hw : l.RoomFor fx evs)
    (hs : ¬ ((∀ ev ∈ evs, ¬ ev.Repairs) ∧ l.Spares fx c.key evs)) :
    Stale (l.run fx evs).engine c := by
  induction evs generalizing l with
  | nil => exact absurd ⟨fun _ hev => absurd hev List.not_mem_nil, trivial⟩ hs
  | cons ev evs ih =>
    by_cases ht : ev.Touches l.engine c.key ∨ ev.Repairs
    · have nm : Names fx (l.step fx ev).engine c := by
        cases ev with
        | hook hk => exact (Names.of_intact g.sane h).apply g.sane hw.1
        | sample q => exact Names.of_intact g.sane h
      exact (h.touched g hf.1 hw.1 ht).run (g.step hf.1 hw.1) nm hf.2 hw.2
    · have hi := h.step g hf.1 (fun h => ht (.inl h)) fun h => ht (.inr h)
      apply ih (g.step hf.1 hw.1) hi hf.2 hw.2
      intro hrest
      apply hs
      refine ⟨fun ev' hev => ?_, fun h => ht (.inl h), hrest.2⟩
      cases List.mem_cons.mp hev with
      | inl he => exact he ▸ fun h => ht (.inr h)
      | inr hev => exact hrest.1 ev' hev

omit [DecidableEq K] in
theorem Intact.validate (h : Intact fx e c) : e.validate fx c = true ↔ e.dirty = false := by
  obtain ⟨x, hx, rfl⟩ := h
  unfold Engine.validate
  cases hd : e.dirty with
  | true => simp
  | false =>
    have hany : (e.bucket fx (e.candidate fx x).hash).any (fun y =>
        decide (y.incarnation = (e.candidate fx x).incarnation ∧
          y.weight = (e.candidate fx x).weight ∧ y.accessed = (e.candidate fx x).accessed ∧
          y.frequency = (e.candidate fx x).frequency)) = true := by
      apply List.any_eq_true.mpr
      refine ⟨x, List.mem_filter.mpr ⟨hx, decide_eq_true rfl⟩, decide_eq_true ?_⟩
      exact ⟨rfl, rfl, rfl, rfl⟩
    have hepoch : ((e.candidate fx x).epoch != e.epoch) = false := by simp [Engine.candidate]
    simp only [Bool.false_or, hepoch, Bool.false_eq_true, if_false, hany]

omit [DecidableEq K] in
theorem Stale.validate (h : Stale e c) : e.validate fx c = false := by
  unfold Engine.validate
  split
  · rfl
  · next hg =>
    have hepoch : c.epoch = e.epoch := by
      by_contra hne
      exact hg (by simp [hne])
    cases h with
    | inl h => omega
    | inr h =>
      apply Bool.eq_false_iff.mpr
      intro hany
      obtain ⟨y, hy, hp⟩ := List.any_eq_true.mp hany
      have hp' := of_decide_eq_true hp
      have hlt := h y (List.mem_filter.mp hy).1 hp'.1
      omega

/-- As long as no counter wraps, a candidate validates exactly when the metadata are clean,
nothing was rebuilt and nothing happened to the entry since it was sampled; and then
`record_eviction` removes that entry and no other. -/
theorem validate_iff_untouched (fx : K → Nat) (past : List (Event K))
    (hp : (Log.new K).Fits fx past) (q : Sample K) (c : EvictionCandidate K)
    (hc : c ∈ q.take fx ((Log.new K).run fx past).engine) (later : List (Event K))
    (hl : (((Log.new K).run fx past).step fx (.sample q)).Fits fx later)
    (hw : (Log.new K).RoomFor fx (past ++ .sample q :: later)) :
    let sampled := ((Log.new K).run fx past).step fx (.sample q)
    let now := (sampled.run fx later).engine
    (now.validate fx c = true ↔
      now.dirty = false ∧ (∀ ev ∈ later, ¬ ev.Repairs) ∧ sampled.Spares fx c.key later) ∧
    (now.validate fx c = true →
      ∃ x, x.key = c.key ∧ now.entries.Perm (x :: (now.recordEviction fx c).entries)) := by
  intro sampled now
  obtain ⟨hpast, -, hlater⟩ := Log.roomFor_append.mp hw
  have hallowed : (Event.sample q).Allowed ((Log.new K).run fx past) := trivial
  have g : sampled.Good fx := (Log.Good.new.run hp hpast).step hallowed trivial
  have hi : Intact fx sampled.engine c := Sample.mem_take hc
  by_cases hs : (∀ ev ∈ later, ¬ ev.Repairs) ∧ sampled.Spares fx c.key later
  · have hrun := hi.run g hl hlater hs.1 hs.2
    refine ⟨?_, fun _ => ?_⟩
    · rw [hrun.validate]
      exact ⟨fun h => ⟨h, hs⟩, fun h => h.1⟩
    · have gn : (sampled.run fx later).Good fx := g.run hl hlater
      obtain ⟨x, hx, he⟩ := hrun
      have hinc : (now.entries.map Entry.incarnation).Nodup :=
        (List.Nodup.of_map Entry.key gn.sane.keys).map_on fun a ha b hb h =>
          entry_ext gn.sane.keys ha hb (gn.sane.incarnations a ha b hb h)
      obtain ⟨pre, post, hsplit, hev, -⟩ := Engine.recordEviction_split fx hinc hx
      refine ⟨x, congrArg EvictionCandidate.key he.symm, ?_⟩
      rw [he, hev, hsplit]
      exact List.perm_middle
  · have hf : now.validate fx c = false := (hi.run_touched g hl hlater hs).validate
    constructor
    · constructor
      · intro h
        rw [hf] at h
        exact absurd h (by simp)
      · intro h
        exact absurd h.2 hs
    · intro h
      rw [hf] at h
      exact absurd h (by simp)

/-- Two keys of one bucket; the candidate of one survives a write of the other. -/
theorem validate_iff_untouched_collision :
    let sampled := ((Log.new Nat).run (fun _ => 0)
      [.hook (.insert 1 5 false), .hook (.insert 2 5 false)]).step (fun _ => 0)
        (.sample (.minimum .lru))
    (sampled.run (fun _ => 0) [.hook (.insert 2 5 true)]).engine.validate (fun _ => 0)
      ⟨1, 5, 0, 1, 1, 1, 1, 1⟩ = true := by
  apply ((validate_iff_untouched (fun _ => 0) [.hook (.insert 1 5 false), .hook (.insert 2 5 false)]
    ⟨trivial, trivial, trivial⟩ (.minimum .lru) ⟨1, 5, 0, 1, 1, 1, 1, 1⟩ ?_
    [.hook (.insert 2 5 true)] ⟨trivial, trivial⟩ ?_).1).mpr
  · refine ⟨rfl, ?_, ?_, trivial⟩
    · intro ev hev
      rw [List.mem_singleton.mp hev]
      exact id
    · intro h
      have he : 2 = 1 := h
      omega
  · exact List.mem_singleton.mpr rfl
  · exact ⟨(by decide : 1 + 1 < 2 ^ 64), (by decide : 2 + 1 < 2 ^ 64), trivial,
      (by decide : 3 + 1 < 2 ^ 64), trivial⟩

/-! ### A stamp that comes back -/

/-- The key is removed and inserted again, any number of times. -/
def rebirths (n : Nat) : List (Event Nat) :=
  (List.replicate n [.hook (.remove 1), .hook (.insert 1 5 false)]).flatten

/-- One entry of weight 5, whose insertion drew the given stamp. -/
structure Reborn (stamp : Nat) (e : Engine Nat) : Prop where
  entries : e.entries = [.fresh 1 (wrapping stamp) 5]
  sequence : e.sequence = wrapping (stamp + 1)
  epoch : e.epoch = 1
  dirtyEpoch : e.dirtyEpoch = 0
  repairedEpoch : e.repairedEpoch = 0

theorem Reborn.again {stamp : Nat} {e : Engine Nat} (h : Reborn stamp e) :
    Reborn (stamp + 1) ((e.recordRemove id 1).recordInsert id 1 5 false) := by
  obtain ⟨hent, hseq, hep, hd, hr⟩ := h
  have hgone : (e.recordRemove id 1).entries = [] := by
    simp [Engine.recordRemove, Engine.drop, Engine.bucket, hent, Entry.fresh]
  obtain ⟨hseq', hep', hd', hr'⟩ := (@Engine.drop_fields _ id
    { e with metrics := e.metrics.count .removes }) 1 fun x => decide (x.key = 1)
  obtain ⟨hs, he, hdi, hre⟩ := (@Engine.recordInsert_fields _ _ id (e.recordRemove id 1) 1) 5 false
  have hsame : (e.recordRemove id 1).sequence = wrapping (stamp + 1) := hseq'.trans hseq
  refine ⟨?_, ?_, he.trans (hep'.trans hep), hdi.trans (hd'.trans hd), hre.trans (hr'.trans hr)⟩
  · have hnew : ((e.recordRemove id 1).recordInsert id 1 5 false).entries =
        [.fresh 1 (e.recordRemove id 1).sequence 5] := by
      simp [Engine.recordInsert, Engine.find?, Engine.bucket, hgone]
    rw [hnew, hsame]
  · rw [hs, hsame, wrapping_wrapping_add]

theorem Reborn.run {stamp : Nat} (n : Nat) : ∀ l : Log Nat, Reborn stamp l.engine →
    Reborn (stamp + n) (l.run id (rebirths n)).engine ∧ l.Fits id (rebirths n) := by
  induction n generalizing stamp with
  | zero => exact fun _ h => ⟨h, trivial⟩
  | succ n ih =>
    intro l h
    obtain ⟨hrun, hfits⟩ := ih ((l.step id (.hook (.remove 1))).step id (.hook (.insert 1 5 false)))
      h.again
    rw [Nat.add_right_comm] at hrun
    exact ⟨hrun, trivial, trivial, hfits⟩

theorem Reborn.validate {stamp : Nat} {e : Engine Nat} (h : Reborn stamp e)
    (hs : wrapping stamp = 1) : e.validate id ⟨1, 5, 1, 1, 1, 1, 1, 1⟩ = true := by
  obtain ⟨hent, -, hep, hd, hr⟩ := h
  rw [hs] at hent
  simp [Engine.validate, Engine.dirty, Engine.bucket, hent, hep, hd, hr, Entry.fresh]

/-- After `2 ^ 64` insertions the key has the incarnation it was sampled with, and the stale
candidate validates. -/
theorem validate_wraps : ∃ (later : List (Event Nat)) (c : EvictionCandidate Nat),
    let sampled := ((Log.new Nat).run id [.hook (.insert 1 5 false)]).step id
      (.sample (.minimum .lru))
    c ∈ sampled.sampled ∧ sampled.Fits id later ∧
      (sampled.run id later).engine.validate id c = true ∧ ¬ sampled.Spares id c.key later := by
  have hfirst : Reborn 1 (((Log.new Nat).run id [.hook (.insert 1 5 false)]).step id
      (.sample (.minimum .lru))).engine := ⟨rfl, rfl, rfl, rfl, rfl⟩
  obtain ⟨hrun, hfits⟩ := hfirst.run (2 ^ 64 - 1 + 1)
  exact ⟨rebirths (2 ^ 64 - 1 + 1), ⟨1, 5, 1, 1, 1, 1, 1, 1⟩, List.mem_singleton.mpr rfl, hfits,
    hrun.validate (by decide), fun h => h.1 rfl⟩

end Starshard.Eviction
