import Starshard.Proof.Steps
import Starshard.Sync.Map

/-! Editing a shard under its lock: mutations, lifecycle records, and the commit
of the events that describe what happened. -/
namespace Starshard

open Data Concurrent
open Function (update)

variable {K V : Type} [DecidableEq K] {env : Env K V} {L : Lifecycle K V} {alone : Prop}
  {v v' v'' : View K V L.State}

/-- Nothing happened but lifecycle calls and counters, and the guards are `gs`. -/
structure Aside (env : Env K V) (v : View K V L.State) (gs : Guards K V) (cs : List Metric)
    (v' : View K V L.State) : Prop where
  settled : Settled env.hash v'
  guards : v'.gs = gs
  core : State.SameCore v.st v'.st
  abs : v'.abs = v.abs
  acc : v'.acc = v.acc
  fresh : v'.fresh = v.fresh
  spec : v'.spec = v.spec
  known : v'.known = v.known
  visible : visible v'.evs = visible v.evs
  counted : counted v'.evs = counted v.evs ++ cs
  published : Event.publish ∈ v'.evs → Event.publish ∈ v.evs

namespace Aside

variable {gs gs' : Guards K V} {cs cs' : List Metric}

theorem refl (hs : Settled env.hash v) : Aside env v v.gs [] v :=
  ⟨hs, rfl, .refl _, rfl, rfl, rfl, rfl, rfl, rfl, by simp, id⟩

theorem trans (h : Aside env v gs cs v') (h' : Aside env v' gs' cs' v'') :
    Aside env v gs' (cs ++ cs') v'' :=
  ⟨h'.settled, h'.guards, h.core.trans h'.core, h'.abs.trans h.abs, h'.acc.trans h.acc,
    h'.fresh.trans h.fresh, h'.spec.trans h.spec, h'.known.trans h.known,
    h'.visible.trans h.visible, by rw [h'.counted, h.counted, List.append_assoc],
    fun hp => h.published (h'.published hp)⟩

theorem push (hs : Settled env.hash v) {x : Guard K V} (hx : x.isPlain) :
    Aside env v (x :: v.gs) [] { v with gs := x :: v.gs } :=
  ⟨hs.push hx, rfl, .refl _, rfl, rfl, rfl, rfl, rfl, rfl, by simp, id⟩

theorem pop (hs : Settled env.hash v) {x : Guard K V} (hx : x.isPlain) (hg : v.gs = x :: gs) :
    Aside env v gs [] { v with gs := gs } :=
  ⟨hs.pop hx hg, rfl, .refl _, rfl, rfl, rfl, rfl, rfl, rfl, by simp, id⟩

theorem life (hs : Settled env.hash v) (e : L.State) :
    Aside env v v.gs [] { v with st := { v.st with life := e } } :=
  ⟨hs.frame (sameCore_life v.st e).tables (fun _ => rfl) rfl rfl rfl fun h => h, rfl,
    sameCore_life v.st e, rfl, rfl, rfl, rfl, rfl, rfl, by simp, id⟩

theorem count (hs : Settled env.hash v) (m : Metric) :
    Aside env v v.gs [m] { v with
      st := { v.st with metrics := v.st.metrics.count m }
      evs := v.evs ++ [Event.count m] } := by
  have hcore : State.SameCore v.st { v.st with metrics := v.st.metrics.count m } :=
    ⟨rfl, rfl, rfl, rfl, rfl, rfl, rfl, rfl, rfl⟩
  refine ⟨hs.frame hcore.tables (fun _ => rfl) rfl rfl rfl fun h => h, rfl, hcore, rfl, rfl, rfl,
    rfl, rfl, by simp, by simp, fun h => by simpa using h⟩

end Aside

section Lifecycle

variable {α : Type} {gs : Guards K V}

theorem wp_count {m : Metric} {f : Unit → Prog K V α} {Φ : α → View K V L.State → Prop}
    (hs : Settled env.hash v)
    (h : ∀ v', Aside env v v.gs [m] v' → (protocol env L alone).Wp (f ()) v' Φ) :
    (protocol env L alone).Wp (act (.count m) >>= f) v Φ :=
  wp_quiet rfl (rule_count (h _ (.count hs m)))

theorem wp_call {c : LifeCall K V} {f : c.Reply → Prog K V α} {Φ : α → View K V L.State → Prop}
    (hs : Settled env.hash v)
    (h : ∀ r v', Aside env v v.gs [] v' → (protocol env L alone).Wp (f r) v' Φ) :
    (protocol env L alone).Wp (act (.life c) >>= f) v Φ :=
  wp_life hs fun r e => h r _ (.life hs e)

theorem wp_push {x : Guard K V} {f : Unit → Prog K V α} {Φ : α → View K V L.State → Prop}
    (hs : Settled env.hash v) (hx : x.isPlain)
    (h : ∀ v', Aside env v (x :: v.gs) [] v' → (protocol env L alone).Wp (f ()) v' Φ) :
    (protocol env L alone).Wp (act (.push x) >>= f) v Φ :=
  wp_quiet rfl (rule_push (Guard.local_of_plain hx) (h _ (.push hs hx)))

theorem wp_pop {x : Guard K V} {f : Unit → Prog K V α} {Φ : α → View K V L.State → Prop}
    (hs : Settled env.hash v) (hx : x.isPlain) (hg : v.gs = x :: gs)
    (h : ∀ v', Aside env v gs [] v' → (protocol env L alone).Wp (f ()) v' Φ) :
    (protocol env L alone).Wp (act .pop >>= f) v Φ :=
  wp_quiet rfl (rule_pop hg (Guard.local_of_plain hx) (h _ (.pop hs hx hg)))

variable (hs : Settled env.hash v)

include hs

theorem wp_mutation : (protocol env L alone).Wp LifecycleState.mutation v fun _ v' =>
    Aside env v (.ticket :: v.gs) [] v' := by
  refine wp_call hs fun _ v₁ h₁ => wp_last (wp_push h₁.settled rfl fun v₂ h₂ => ?_)
  exact h₁.guards ▸ h₁.trans h₂

theorem wp_finish (hg : v.gs = .ticket :: gs) :
    (protocol env L alone).Wp LifecycleState.finish v fun _ v' => Aside env v gs [] v' :=
  wp_last (wp_pop hs rfl hg fun _ h => h)

theorem wp_prepareInsert (k : K) (x : V) :
    (protocol env L alone).Wp (LifecycleState.prepareInsert k x) v fun _ v' =>
      Aside env v (.prepared k :: v.gs) [] v' := by
  refine wp_call hs fun _ v₁ h₁ => wp_push h₁.settled rfl fun v₂ h₂ => ?_
  exact h₁.guards ▸ h₁.trans h₂

theorem wp_recordInsert (k : K) (weight : Nat) (replaced : Bool) :
    (protocol env L alone).Wp (LifecycleState.recordInsert k weight replaced) v fun _ v' =>
      Aside env v v.gs [Metric.inserts] v' := by
  refine wp_count hs fun v₁ h₁ => wp_last (wp_call h₁.settled fun _ v₂ h₂ => ?_)
  exact h₁.guards ▸ h₁.trans h₂

theorem wp_commitInsert {k : K} (weight : Nat) (replaced : Bool) (hg : v.gs = .prepared k :: gs) :
    (protocol env L alone).Wp (LifecycleState.commitInsert k weight replaced) v fun _ v' =>
      Aside env v gs [Metric.inserts] v' := by
  refine wp_pop hs rfl hg fun v₁ h₁ => (wp_recordInsert h₁.settled _ _ _).mono fun _ v₂ h₂ => ?_
  exact h₁.guards ▸ h₁.trans h₂

theorem wp_recordRemove (k : K) :
    (protocol env L alone).Wp (LifecycleState.recordRemove (V := V) k) v fun _ v' =>
      Aside env v v.gs [Metric.removes] v' := by
  refine wp_count hs fun v₁ h₁ => wp_last (wp_call h₁.settled fun _ v₂ h₂ => ?_)
  exact h₁.guards ▸ h₁.trans h₂

def readCounts (hit : Bool) : List Metric := [.gets, if hit then .hits else .misses]

theorem wp_recordRead (k : K) (hit : Bool) :
    (protocol env L alone).Wp (LifecycleState.recordRead (V := V) k hit) v fun _ v' =>
      Aside env v v.gs (readCounts hit) v' := by
  unfold LifecycleState.recordRead
  refine wp_count hs fun v₁ h₁ => ?_
  cases hit with
  | true =>
    refine wp_count h₁.settled fun v₂ h₂ => wp_last (wp_call h₂.settled fun _ v₃ h₃ => ?_)
    have h := (h₁.trans h₂).trans h₃
    rwa [h₂.guards, h₁.guards] at h
  | false =>
    refine wp_last (wp_count h₁.settled fun v₂ h₂ => ?_)
    have h := h₁.trans h₂
    rwa [h₁.guards] at h

end Lifecycle

/-- A task that edits what it locked in `v₀`: the tables now hold `c`, keys in
`P` have no previous entry, and nothing is committed yet. -/
structure Edit (env : Env K V) (v₀ : View K V L.State) (gs : Guards K V) (c : Contents K V)
    (P : K → Prop) (cs : List Metric) (touched : Bool) (v : View K V L.State) : Prop where
  settled : Settled env.hash v
  guards : v.gs = gs
  shards : v.st.shards = v₀.st.shards
  previous : v.st.previous = v₀.st.previous
  shardCount : v.st.shardCount = v₀.st.shardCount
  previousShardCount : v.st.previousShardCount = v₀.st.previousShardCount
  abs : v.abs = v₀.abs
  spec : v.spec = v₀.spec
  contents : v.st.contents env.hash = c
  prev : ∀ k, P k → v.st.prevLookup env.hash k = none
  visible : visible v.evs = visible v₀.evs
  counted : counted v.evs = counted v₀.evs ++ cs
  /-- What was not touched was not published, and will not be. -/
  quiet : touched = false → (Event.publish ∈ v.evs → Event.publish ∈ v₀.evs) ∧
    ∀ id m, Guard.opened gs id = some m → m.2 = false ∧ (v.st.heap id).size = m.1
  small : ∀ id m, Guard.opened gs id = some m → m.2 = false → (v.st.heap id).size ≤ m.1

namespace Edit

variable {v₀ : View K V L.State} {gs gs' : Guards K V} {c : Contents K V} {P : K → Prop}
  {cs cs' : List Metric} {touched : Bool}

theorem start (hs : Settled env.hash v) (hc : Closed v.gs) :
    Edit env v v.gs (v.st.contents env.hash) (fun k => v.st.prevLookup env.hash k = none) []
      false v := by
  refine ⟨hs, rfl, rfl, rfl, rfl, rfl, rfl, rfl, rfl, fun _ h => h, rfl, by simp,
    fun _ => ⟨id, fun id m hm => ?_⟩, fun id m hm => ?_⟩
  · rw [hc id] at hm
    cases hm
  · rw [hc id] at hm
    cases hm

theorem home (h : Edit env v₀ gs c P cs touched v) (k : K) :
    v.st.home env.hash k = v₀.st.home env.hash k := by
  simp only [State.home, h.shards, h.shardCount]

theorem prevHome (h : Edit env v₀ gs c P cs touched v) (k : K) :
    v.st.prevHome env.hash k = v₀.st.prevHome env.hash k := by
  simp only [State.prevHome, h.previous, h.previousShardCount]

theorem aside (h : Edit env v₀ gs c P cs touched v) (ha : Aside env v gs' cs' v')
    (hm : ∀ id, Guard.opened gs' id = Guard.opened gs id) :
    Edit env v₀ gs' c P (cs ++ cs') touched v' where
  settled := ha.settled
  guards := ha.guards
  shards := ha.core.shards.trans h.shards
  previous := ha.core.previous.trans h.previous
  shardCount := ha.core.shardCount.trans h.shardCount
  previousShardCount := ha.core.previousShardCount.trans h.previousShardCount
  abs := ha.abs.trans h.abs
  spec := ha.spec.trans h.spec
  contents := by
    rw [← h.contents]
    exact funext fun k => ha.core.tables.contents k
  prev k hk := (ha.core.tables.prevLookup k).trans (h.prev k hk)
  visible := ha.visible.trans h.visible
  counted := by rw [ha.counted, h.counted, List.append_assoc]
  quiet ht := by
    obtain ⟨h₁, h₂⟩ := h.quiet ht
    refine ⟨fun hp => h₁ (ha.published hp), fun id m ho => ?_⟩
    rw [ha.core.heap]
    exact h₂ id m (hm id ▸ ho)
  small id m ho := by
    rw [ha.core.heap]
    exact h.small id m (hm id ▸ ho)

theorem live (h : Edit env v₀ gs c P cs touched v) : v.st.live = v₀.st.live := by
  simp only [State.live, h.shards, h.previous]

variable {id n : Nat} {b : Bool} {k : K} {x : V}

/-- The active shard of a key without previous entry decides its contents. -/
theorem lookup (h : Edit env v₀ gs c P cs touched v) (hk : v.st.home env.hash k = some id)
    (hpk : v.st.prevLookup env.hash k = none) : (v.st.heap id).lookup k = c k := by
  rw [← h.contents, State.contents, hpk, State.activeLookup, hk]
  simp

theorem opened (h : Edit env v₀ gs c P cs touched v) (hc : Closed gs)
    (ho : OwnsExcl gs (.shard id)) (hp : Pinned gs)
    (hi : ∃ i : Nat, v.st.shards[i]? = some (some id)) :
    Edit env v₀ (.mutation id (v.st.heap id).size false :: gs) c P cs touched
      { v with gs := .mutation id (v.st.heap id).size false :: v.gs } := by
  have hg := h.guards
  refine ⟨h.settled.opened (hg ▸ hc) (hg ▸ ho) (hg ▸ hp) hi rfl, by rw [← hg], h.shards,
    h.previous, h.shardCount, h.previousShardCount, h.abs, h.spec, h.contents, h.prev, h.visible,
    h.counted, fun ht => ⟨(h.quiet ht).1, fun id' m hm => ?_⟩, fun id' m hm _ => ?_⟩
  · rw [Guard.opened_mutation] at hm
    split at hm
    · next heq =>
      cases hm
      exact ⟨rfl, heq ▸ rfl⟩
    · rw [hc id'] at hm
      cases hm
  · rw [Guard.opened_mutation] at hm
    split at hm
    · next heq =>
      cases hm
      exact Nat.le_of_eq (heq ▸ rfl)
    · rw [hc id'] at hm
      cases hm

theorem mark (h : Edit env v₀ gs c P cs touched v) (id : Nat) :
    Edit env v₀ (gs.map (Guard.mark id)) c P cs true
      { v with gs := v.gs.map (Guard.mark id) } := by
  refine ⟨h.settled.mark id, by rw [← h.guards], h.shards, h.previous, h.shardCount,
    h.previousShardCount, h.abs, h.spec, h.contents, h.prev, h.visible, h.counted,
    (by simp), fun id' m hm hf => ?_⟩
  rw [Guard.opened_map_mark, Option.map_eq_some_iff] at hm
  obtain ⟨m', hm', rfl⟩ := hm
  refine h.small id' m' hm' ?_
  have hf : (m'.2 || decide (id' = id)) = false := hf
  exact (Bool.or_eq_false_iff.mp hf).1

theorem table (h : Edit env v₀ gs c P cs touched v) (hm : Guard.opened gs id = some (n, b))
    (hk : v.st.home env.hash k = some id) (hpk : v.st.prevLookup env.hash k = none)
    {m : Assoc K V} (hdiff : ∀ k', k' ≠ k → m.lookup k' = (v.st.heap id).lookup k')
    (hd : (b = true ∨ m.size ≠ n) ∨
      (∀ k', m.lookup k' = (v.st.heap id).lookup k') ∧ m.size = (v.st.heap id).size)
    (touched' : Bool) (ht : touched' = false → touched = false ∧ m.size = (v.st.heap id).size)
    (hsmall : b = false → m.size ≤ n) :
    Edit env v₀ gs (update c k (m.lookup k)) P cs touched'
      { v with st := { v.st with heap := update v.st.heap id m } } := by
  have hm' : Guard.opened v.gs id = some (n, b) := h.guards ▸ hm
  obtain ⟨-, hpin⟩ := h.settled.ordered.opened hm'
  have hw := h.settled.wellFormed hpin.owns
  have heq : ∀ k', m.lookup k' ≠ (v.st.heap id).lookup k' → k' = k := fun k' hne =>
    by_contra fun hk' => hne (hdiff k' hk')
  have hheap : ∀ id' m', Guard.opened gs id' = some m' → id' ≠ id →
      update v.st.heap id m id' = v.st.heap id' := fun id' _ _ hne =>
    Function.update_of_ne hne _ _
  refine ⟨h.settled.edit hm' (fun k' hne => heq k' hne ▸ hk)
    (fun k' hne hold => heq k' (by rwa [hold]) ▸ hpk) hd, h.guards, h.shards, h.previous,
    h.shardCount, h.previousShardCount, h.abs, h.spec, ?_, fun k' hk' => ?_, h.visible,
    h.counted, fun hf => ⟨(h.quiet (ht hf).1).1, fun id' m' hm'' => ?_⟩,
    fun id' m' hm'' hf => ?_⟩
  · rw [← h.contents]
    exact State.contents_update hk hpk hw hdiff
  · exact (State.prevLookup_home (m := m)
      (hw.active_ne_previous (State.home_eq_some.mp hk))).trans (h.prev k' hk')
  · obtain ⟨h₁, h₂⟩ := (h.quiet (ht hf).1).2 id' m' hm''
    refine ⟨h₁, ?_⟩
    show (update v.st.heap id m id').size = m'.1
    by_cases hid : id' = id
    · subst hid
      rw [Function.update_self, (ht hf).2, h₂]
    · rw [hheap id' m' hm'' hid, h₂]
  · show (update v.st.heap id m id').size ≤ m'.1
    by_cases hid : id' = id
    · subst hid
      rw [hm] at hm''
      cases hm''
      rw [Function.update_self]
      exact hsmall hf
    · rw [hheap id' m' hm'' hid]
      exact h.small id' m' hm'' hf

theorem put (h : Edit env v₀ gs c P cs true v) (hm : Guard.opened gs id = some (n, true))
    (hk : v.st.home env.hash k = some id) (hpk : v.st.prevLookup env.hash k = none) :
    Edit env v₀ gs (update c k (some x)) P cs true
      { v with st := { v.st with heap := update v.st.heap id ((v.st.heap id).insert k x) } } := by
  have := h.table hm hk hpk (m := (v.st.heap id).insert k x)
    (fun k' hk' => AList.lookup_insert_ne hk') (.inl (.inl rfl)) true (by simp) (by simp)
  rwa [AList.lookup_insert] at this

theorem take (h : Edit env v₀ gs c P cs touched v) (hm : Guard.opened gs id = some (n, b))
    (hk : v.st.home env.hash k = some id) (hpk : v.st.prevLookup env.hash k = none) :
    Edit env v₀ gs (update c k none) P cs (touched || (c k).isSome)
      { v with st := { v.st with heap := update v.st.heap id ((v.st.heap id).erase k) } } := by
  have hlookup := h.lookup hk hpk
  have hsize : Assoc.size ((v.st.heap id).erase k) =
      if (c k).isSome then (v.st.heap id).size - 1 else (v.st.heap id).size := by
    rw [← hlookup]
    exact Assoc.size_erase _ _
  have hsmall : b = false → (v.st.heap id).size ≤ n := h.small id (n, b) hm
  have := h.table hm hk hpk (m := (v.st.heap id).erase k)
    (fun k' hk' => AList.lookup_erase_ne hk') ?_ (touched || (c k).isSome) (fun ht => ?_)
    (fun hb => ?_)
  · rwa [AList.lookup_erase] at this
  · cases hck : c k with
    | none =>
      refine .inr ⟨fun k' => ?_, by rw [hsize, hck]; rfl⟩
      by_cases hk' : k' = k
      · subst hk'
        rw [AList.lookup_erase, hlookup, hck]
      · exact AList.lookup_erase_ne hk'
    | some y =>
      have hpos := Assoc.size_pos_of_lookup (hlookup.trans hck)
      rw [hck, Option.isSome_some, if_pos rfl] at hsize
      cases b with
      | true => exact .inl (.inl rfl)
      | false =>
        have := hsmall rfl
        exact .inl (.inr (by omega))
  · obtain ⟨h₁, h₂⟩ := Bool.or_eq_false_iff.mp ht
    rw [hsize, h₂]
    exact ⟨h₁, rfl⟩
  · have := hsmall hb
    rw [hsize]
    split <;> omega

theorem dropped (h : Edit env v₀ (.mutation id n b :: gs) c P cs touched v) {gs' : Guards K V}
    (hd : Dropped env v gs' (dirty v id n b) v') (hgs : gs' = gs) (hc : Closed gs) :
    Edit env v₀ gs c P cs touched v' := by
  subst hgs
  have hev : ∀ {β : Type} (F : List (Event K V) → List β),
      (∀ es fs, F (es ++ fs) = F es ++ F fs) → F [] = [] → F [Event.publish] = [] →
      F v'.evs = F v.evs := by
    intro β F happ hnil hpub
    rw [hd.evs, happ]
    split <;> simp [hnil, hpub]
  refine ⟨hd.settled, hd.guards, hd.tables.shards.trans h.shards,
    hd.tables.previous.trans h.previous, hd.tables.shardCount.trans h.shardCount,
    hd.tables.previousShardCount.trans h.previousShardCount, hd.abs.trans h.abs,
    hd.spec.trans h.spec, ?_, fun k hk => (hd.tables.prevLookup k).trans (h.prev k hk),
    (hev Starshard.visible visible_append rfl rfl).trans h.visible,
    (hev Starshard.counted counted_append rfl rfl).trans h.counted,
    fun ht => ⟨fun hp => ?_, fun id' m hm => ?_⟩, fun id' m hm => ?_⟩
  · rw [← h.contents]
    exact funext fun k => hd.tables.contents k
  · obtain ⟨h₁, h₂⟩ := h.quiet ht
    obtain ⟨hb, hs⟩ := h₂ id (n, b) (by rw [Guard.opened_mutation, if_pos rfl])
    have hclean : dirty v id n b = false := by
      have hb : b = false := hb
      have hs : (v.st.heap id).size = n := hs
      simp [dirty, hb, hs]
    rw [hd.evs, hclean] at hp
    exact h₁ (by simpa using hp)
  · rw [hc id'] at hm
    cases hm
  · rw [hc id'] at hm
    cases hm

/-- Promotion is a move, and brings its key into the active generation. -/
theorem promote {dst src : Nat} (h : Edit env v₀ gs c P cs touched v) (hc : Closed gs)
    (hp : Pinned gs) (hd : OwnsExcl gs (.shard dst)) (hsrc : OwnsExcl gs (.shard src))
    (hkd : v.st.home env.hash k = some dst) (hks : v.st.prevHome env.hash k = some src) :
    Edit env v₀ gs c (fun k' => P k' ∨ k' = k) cs touched { v with
      st := { v.st with heap := promoted v.st.heap dst src k }
      acc := promotedAcc v.st.heap v.acc dst src k } := by
  have hg := h.guards
  have hw := h.settled.wellFormed (hg ▸ hp.owns)
  have hne : dst ≠ src := fun heq => hw.home_ne_prevHome hkd (heq ▸ hks)
  have hnone : ∀ id m, Guard.opened gs id ≠ some m := fun id m hm => by
    rw [hc id] at hm
    cases hm
  refine ⟨h.settled.promote (hg ▸ hc) (hg ▸ hp) (hg ▸ hd) (hg ▸ hsrc) hkd hks, hg, h.shards,
    h.previous, h.shardCount, h.previousShardCount, h.abs, h.spec, ?_, fun k' hk' => ?_,
    h.visible, h.counted, fun ht => ⟨(h.quiet ht).1, fun id m hm => absurd hm (hnone id m)⟩,
    fun id m hm => absurd hm (hnone id m)⟩
  · rw [← h.contents]
    exact State.contents_promoted hw hkd hks
  · by_cases hkk : k' = k
    · subst hkk
      exact State.prevLookup_promoted hne hks
    · have hold := h.prev k' (hk'.resolve_right hkk)
      rw [← hold]
      refine State.prevLookup_congr (h := promoted v.st.heap dst src k) fun j => ?_
      rw [State.lookup_promoted hne]
      simp [hkk]

end Edit

section Programs

variable {v₀ : View K V L.State} {gs : Guards K V} {c : Contents K V} {P : K → Prop}
  {cs : List Metric} {touched : Bool} {id n : Nat} {b : Bool} {k : K}

theorem wp_new (h : Edit env v₀ gs c P cs touched v) (hc : Closed gs)
    (ho : OwnsExcl gs (.shard id)) (hp : Pinned gs)
    (hi : ∃ i : Nat, v.st.shards[i]? = some (some id)) :
    (protocol env L alone).Wp (ShardMutation.new id) v fun _ v' =>
      ∃ n, Edit env v₀ (.mutation id n false :: gs) c P cs touched v' := by
  have ho' : OwnsExcl v.gs (.shard id) := h.guards ▸ ho
  refine wp_quiet rfl (rule_len (.inr ho'.owns) (wp_last (wp_quiet rfl (rule_push rfl ?_))))
  exact ⟨_, h.opened hc ho hp hi⟩

theorem wp_close (h : Edit env v₀ (.mutation id n b :: gs) c P cs touched v) (hc : Closed gs) :
    (protocol env L alone).Wp (ShardMutation.drop id) v fun _ v' =>
      Edit env v₀ gs c P cs touched v' :=
  (wp_drop h.settled h.guards).mono fun _ _ hd => h.dropped hd rfl hc

theorem wp_takeEntry {α : Type} {f : Option V → Prog K V α} {Φ : α → View K V L.State → Prop}
    (h : Edit env v₀ gs c P cs touched v) (hm : Guard.opened gs id = some (n, b))
    (hk : v.st.home env.hash k = some id) (hpk : v.st.prevLookup env.hash k = none)
    (hΦ : ∀ v', Edit env v₀ gs (update c k none) P cs (touched || (c k).isSome) v' →
      (protocol env L alone).Wp (f (c k)) v' Φ) :
    (protocol env L alone).Wp (act (.take id k) >>= f) v Φ := by
  obtain ⟨hown, hpin⟩ := h.settled.ordered.opened (h.guards ▸ hm)
  refine wp_quiet rfl (rule_take hpin hown (fun _ => hk) ?_)
  rw [h.lookup hk hpk]
  exact hΦ _ (h.take hm hk hpk)

theorem wp_putEntry {α : Type} {f : Option V → Prog K V α} {Φ : α → View K V L.State → Prop}
    {x : V} (h : Edit env v₀ gs c P cs true v) (hm : Guard.opened gs id = some (n, true))
    (hk : v.st.home env.hash k = some id) (hpk : v.st.prevLookup env.hash k = none)
    (hΦ : ∀ v', Edit env v₀ gs (update c k (some x)) P cs true v' →
      (protocol env L alone).Wp (f (c k)) v' Φ) :
    (protocol env L alone).Wp (act (.put id k x) >>= f) v Φ := by
  refine wp_put h.settled (h.guards ▸ hm) hk hpk ?_
  rw [h.lookup hk hpk]
  exact hΦ _ (h.put hm hk hpk)

theorem wp_trackedInsert (h : Edit env v₀ (.mutation id n b :: gs) c P cs touched v)
    (hc : Closed gs) (hk : v₀.st.home env.hash k = some id) (hP : P k) (x : V) :
    (protocol env L alone).Wp (Sync.trackedInsert id k x) v fun r v' => r = c k ∧
      Edit env v₀ (.mutation id n true :: gs) (update c k (some x)) P (cs ++ [Metric.inserts])
        true v' := by
  unfold Sync.trackedInsert
  refine Protocol.Wp.bind ((wp_mutation h.settled).mono fun _ v₁ h₁ => ?_)
  refine Protocol.Wp.bind ((wp_prepareInsert h₁.settled k x).mono fun weight v₂ h₂ => ?_)
  have ha := h₁.trans h₂
  rw [h₁.guards, h.guards] at ha
  have e₂ := h.aside ha fun _ => rfl
  have e₃ := e₂.mark id
  have hgs : (.prepared k :: .ticket :: .mutation id n b :: gs).map (Guard.mark id) =
      .prepared k :: .ticket :: .mutation id n true :: gs := by
    simp [Guard.mark, hc.map_mark]
  rw [hgs] at e₃
  have hm : Guard.opened (.prepared k :: .ticket :: .mutation id n true :: gs) id =
      some (n, true) := by
    rw [Guard.opened_plain rfl, Guard.opened_plain rfl, Guard.opened_mutation, if_pos rfl]
  refine Protocol.Wp.bind (wp_quiet rfl (rule_mark ?_))
  refine wp_putEntry e₃ hm ((e₃.home k).trans hk) (e₃.prev k hP) fun v₄ e₄ => ?_
  refine wp_user e₄.settled ?_
  refine Protocol.Wp.bind ((wp_commitInsert e₄.settled _ _ e₄.guards).mono fun _ v₅ h₅ => ?_)
  refine Protocol.Wp.bind ((wp_finish h₅.settled h₅.guards).mono fun _ v₆ h₆ => ?_)
  refine ⟨rfl, ?_⟩
  have e₆ := e₄.aside (h₅.trans h₆) fun _ => rfl
  simpa using e₆

theorem wp_trackedRemove (h : Edit env v₀ (.mutation id n b :: gs) c P cs touched v)
    (hk : v₀.st.home env.hash k = some id) (hP : P k) :
    (protocol env L alone).Wp (Sync.trackedRemove id k) v fun r v' => r = c k ∧
      Edit env v₀ (.mutation id n b :: gs) (update c k none) P
        (cs ++ if (c k).isSome then [Metric.removes] else []) (touched || (c k).isSome) v' := by
  unfold Sync.trackedRemove
  refine Protocol.Wp.bind ((wp_mutation h.settled).mono fun _ v₁ h₁ => ?_)
  have ha := h₁
  rw [h.guards] at ha
  have e₁ := h.aside ha fun _ => rfl
  have hm : Guard.opened (.ticket :: .mutation id n b :: gs) id = some (n, b) := by
    rw [Guard.opened_plain rfl, Guard.opened_mutation, if_pos rfl]
  refine Protocol.Wp.bind (wp_user e₁.settled ?_)
  refine wp_takeEntry e₁ hm ((e₁.home k).trans hk) (e₁.prev k hP) fun v₂ e₂ => ?_
  refine wp_user e₂.settled ?_
  cases hck : c k with
  | none =>
    rw [hck] at e₂
    refine Protocol.Wp.bind ((wp_finish e₂.settled e₂.guards).mono fun _ v₃ h₃ => ⟨rfl, ?_⟩)
    simpa using e₂.aside h₃ fun _ => rfl
  | some y =>
    rw [hck] at e₂
    refine Protocol.Wp.bind ((wp_recordRemove e₂.settled k).mono fun _ v₃ h₃ => ?_)
    rw [e₂.guards] at h₃
    refine Protocol.Wp.bind ((wp_finish h₃.settled h₃.guards).mono fun _ v₄ h₄ => ⟨rfl, ?_⟩)
    simpa using e₂.aside (h₃.trans h₄) fun _ => rfl

theorem wp_promoteEntry {dst src : Nat} (h : Edit env v₀ gs c P cs touched v) (hc : Closed gs)
    (hp : Pinned gs) (hd : OwnsExcl gs (.shard dst)) (hsrc : OwnsExcl gs (.shard src))
    (hkd₀ : v₀.st.home env.hash k = some dst) (hks₀ : v₀.st.prevHome env.hash k = some src) :
    (protocol env L alone).Wp (promoteEntry dst src k) v fun _ v' =>
      Edit env v₀ gs c (fun k' => P k' ∨ k' = k) cs touched v' := by
  have hg := h.guards
  have hkd := (h.home k).trans hkd₀
  have hks := (h.prevHome k).trans hks₀
  have hw := h.settled.wellFormed (hg ▸ hp.owns)
  have hsrc' : OwnsExcl v.gs (.shard src) := hg ▸ hsrc
  have hacc := h.settled.acc (hg ▸ hp) src hsrc'.owns (hg ▸ hc src)
  refine wp_user h.settled (wp_quiet rfl (rule_promote (hg ▸ hp) (hg ▸ hd) hsrc' hw hkd hks
    hacc ?_))
  have h' := h.promote hc hp hd hsrc hkd hks
  exact wp_last (wp_user h'.settled h')

theorem wp_retireValue (hs : Settled env.hash v) (value : Option V) :
    (protocol env L alone).Wp (Sync.retireValue env value) v fun r v' =>
      r = value.isSome ∧ v' = v := by
  unfold Sync.retireValue
  by_cases he : env.eviction.isNone
  · rw [if_pos he]
    exact wp_user hs ⟨rfl, rfl⟩
  · rw [if_neg he]
    exact ⟨rfl, rfl⟩

theorem Edit.active (h : Edit env v₀ gs c P cs touched v)
    (hk : v₀.st.home env.hash k = some id) : ∃ i : Nat, v.st.shards[i]? = some (some id) :=
  ⟨_, State.home_eq_some.mp ((h.home k).trans hk)⟩

theorem wp_insertLocked (h : Edit env v₀ gs c P cs touched v) (hc : Closed gs) (hp : Pinned gs)
    (ho : OwnsExcl gs (.shard id)) (hk : v₀.st.home env.hash k = some id) (hP : P k) (x : V) :
    (protocol env L alone).Wp (Sync.insertLocked env id k x) v fun _ v' =>
      Edit env v₀ gs (update c k (some x)) P (cs ++ [Metric.inserts]) true v' := by
  refine wp_user h.settled ?_
  refine Protocol.Wp.bind ((wp_new h hc ho hp (h.active hk)).mono fun _ v₁ ⟨n, e₁⟩ => ?_)
  refine Protocol.Wp.bind ((wp_trackedInsert e₁ hc hk hP x).mono fun r v₂ ⟨_, e₂⟩ => ?_)
  refine Protocol.Wp.bind ((wp_retireValue e₂.settled r).mono fun _ v₃ ⟨_, he⟩ => ?_)
  subst he
  exact wp_close e₂ hc

theorem wp_removeLocked (h : Edit env v₀ gs c P cs touched v) (hc : Closed gs) (hp : Pinned gs)
    (ho : OwnsExcl gs (.shard id)) (hk : v₀.st.home env.hash k = some id) (hP : P k) :
    (protocol env L alone).Wp (Sync.removeLocked env id k) v fun _ v' =>
      Edit env v₀ gs (update c k none) P (cs ++ if (c k).isSome then [Metric.removes] else [])
        (touched || (c k).isSome) v' := by
  refine wp_user h.settled ?_
  refine Protocol.Wp.bind ((wp_new h hc ho hp (h.active hk)).mono fun _ v₁ ⟨n, e₁⟩ => ?_)
  refine Protocol.Wp.bind ((wp_trackedRemove e₁ hk hP).mono fun r v₂ ⟨_, e₂⟩ => ?_)
  refine Protocol.Wp.bind ((wp_retireValue e₂.settled r).mono fun _ v₃ ⟨_, he⟩ => ?_)
  subst he
  exact wp_close e₂ hc

end Programs

end Starshard
