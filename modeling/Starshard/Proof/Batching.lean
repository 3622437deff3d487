import Starshard.Data.Grouping
import Starshard.Proof.Transacting

/-! Batches: the items of a bucket take effect under one lock, in their order, and
buckets follow each other in any order. During a migration the items are applied
one by one. -/
namespace Starshard

open Data Concurrent
open Function (update)

variable {K V : Type} [DecidableEq K] {env : Env K V} {L : Lifecycle K V} {alone : Prop}
  {v v' v₀ : View K V L.State} {α β : Type} {Φ : β → View K V L.State → Prop}
  {sp : List (Event K V) → Prop} {gs : Guards K V} {ds : List (Event K V)}
  {cs : List Metric} {k : K} {id n index : Nat}

section Idle

/-- No migration is going on, and the map has `n` shards. -/
structure Idle (n : Nat) (v : View K V L.State) : Prop where
  idle : v.st.previousShardCount = 0
  count : v.st.shardCount = n

theorem Idle.keeps (h : Idle n v) (k : Keeps env gs v v') (hr : Owns gs .routing) : Idle n v' :=
  ⟨(k.previousShardCount hr).trans h.idle, (k.shardCount hr).trans h.count⟩

omit [DecidableEq K] in
theorem Idle.of_st (h : Idle n v) (hst : v'.st = v.st) : Idle n v' :=
  ⟨hst ▸ h.idle, hst ▸ h.count⟩

theorem Idle.edit {c : Contents K V} {P : K → Prop} {touched : Bool} (h : Idle n v₀)
    (e : Edit env v₀ gs c P cs touched v) : Idle n v :=
  ⟨e.previousShardCount.trans h.idle, e.shardCount.trans h.count⟩

theorem Idle.prevLookup (h : Idle n v) (hw : v.st.WellFormed env.hash) (k : K) :
    v.st.prevLookup env.hash k = none := by
  rw [State.prevLookup, State.prevHome, hw.previous_none.mpr h.idle, slotAt_none]
  rfl

theorem Idle.contents (h : Idle n v) (hw : v.st.WellFormed env.hash) (k : K) :
    v.st.contents env.hash k = v.st.activeLookup env.hash k := by
  rw [State.contents, h.prevLookup hw]
  cases v.st.activeLookup env.hash k <;> rfl

end Idle

section Buckets

theorem Calm.wp_bucketize (h : Calm env sp gs ds cs v) (hr : Owns gs .routing) (key : α → K)
    (items : List α) :
    (protocol env L alone).Wp (bucketize env key items) v fun r v' =>
      r = items.map (fun x => (env.hash (key x) % v.st.shardCount, x)) ∧ v' = v := by
  induction items with
  | nil => exact ⟨rfl, rfl⟩
  | cons x items ih =>
    refine Protocol.Wp.bind ((h.wp_shardIndex hr (key x)).mono fun index v₁ ⟨hindex, he⟩ => ?_)
    subst he hindex
    refine Protocol.Wp.bind (ih.mono fun r v₂ ⟨hr, he⟩ => ?_)
    subst he hr
    exact ⟨rfl, rfl⟩

omit [DecidableEq K] in
theorem bucket_map (f : α → Nat) (items : List α) (index : Nat) :
    bucket (items.map fun x => (f x, x)) index = items.filter fun x => f x = index := by
  unfold bucket
  rw [List.filter_map, List.map_map]
  exact List.map_id _

/-- The buckets of a batch, in any order, rearrange it. -/
theorem rearranged_grouped {f : K → Nat} {key : α → K} {items : List α} {classes : List Nat}
    (hn : classes.Nodup) (hc : ∀ x ∈ items, f (key x) ∈ classes) :
    Rearranged key items (grouped (fun x => f (key x)) classes items) := fun k =>
  filter_grouped (c := f k) hn hc fun x hx => by rw [of_decide_eq_true hx]

theorem Calm.wp_observeAll (h : Calm env sp gs ds cs v) (hp : Pinned gs) (ks : List K)
    (hk : ∀ k ∈ ks, Reads env.hash gs v.st k)
    (hsp : sp (ds ++ ks.map fun k => Event.read k (v.st.contents env.hash k))) {l : LockId}
    (hl : l ≠ .routing) {f : Unit → Prog K V β}
    (hΦ : ∀ v', Calm env sp (without gs l)
      (ds ++ ks.map fun k => Event.read k (v.st.contents env.hash k)) cs v' → v'.st = v.st →
      (protocol env L alone).Wp (f ()) v' Φ) :
    (protocol env L alone).Wp (act (.unlock l) >>= f) v Φ := by
  have hstart := Edit.start h.settled (h.guards.symm ▸ h.closed)
  rw [h.guards] at hstart
  have heff : ∀ ks : List K, Event.effects (ks.map fun k => Event.read k (v.st.contents env.hash k))
      (v.st.contents env.hash) (v.st.contents env.hash) := by
    intro ks
    induction ks with
    | nil => rfl
    | cons k ks ih => exact ⟨_, ⟨rfl, rfl⟩, ih⟩
  refine h.wp_commit hp hstart (by simp [Event.isData]) (fun e he k hk' => ?_) (heff ks) (by simp)
    hsp hl fun v₁ h₁ hst => ?_
  · obtain ⟨k', hk'', rfl⟩ := List.mem_map.mp he
    have hk' : k = k' := hk'
    exact hk' ▸ hk k' hk''
  · rw [List.append_nil] at h₁
    exact hΦ v₁ h₁ hst

/-- The slot of a bucket is read; without a shard, none of the bucket's keys is stored. -/
theorem Calm.wp_bucketSlot (h : Calm env sp gs ds cs v) (hi : Idle n v) (hp : Pinned gs)
    (ha : ¬ Owns gs .active) (hlt : index < n) (ks : List K) (hks : ∀ k ∈ ks, env.hash k % n = index)
    (hsp : sp (ds ++ ks.map fun k => Event.read k none)) {f : Slots → Prog K V β}
    (hsome : ∀ slots id v', slots[index]? = some (some id) →
      v'.st.shards[index]? = some (some id) → Calm env sp gs ds cs v' → Idle n v' →
      (protocol env L alone).Wp (f slots) v' Φ)
    (hnone : ∀ slots v', slots[index]? = some none →
      Calm env sp gs (ds ++ ks.map fun k => Event.read k none) cs v' → Idle n v' →
      (protocol env L alone).Wp (f slots) v' Φ) :
    (protocol env L alone).Wp (activeSlots >>= f) v Φ := by
  refine wp_lock_calm h (fun _ => hp.owns) (free_of_not_owns ha) (fun he => by cases he)
    (fun _ he => by cases he) fun v₁ h₁ k₁ _ => ?_
  have hp₁ : Pinned (.lock .active .shared :: gs) := List.mem_cons_of_mem _ hp
  have ha₁ : Owns (.lock .active .shared :: gs) .active := ⟨.shared, by simp⟩
  have hi₁ := hi.keeps k₁ hp.owns
  have hw₁ := h₁.wellFormed hp₁.owns
  refine wp_quiet rfl (rule_shards (.inr ⟨h₁.owns hp₁.owns, h₁.owns ha₁⟩) ?_)
  have hlt₁ : index < v₁.st.shards.length := by
    rw [hw₁.length, hi₁.count]
    exact hlt
  have hslot := List.getElem?_eq_getElem hlt₁
  cases hid : v₁.st.shards[index] with
  | some id =>
    rw [hid] at hslot
    refine wp_unlock_calm h₁ (fun he => by cases he) fun v₂ h₂ w₂ _ => ?_
    rw [without_lock] at h₂
    have hst : v₂.st = v₁.st := congrArg World.st w₂
    exact hsome _ id v₂ hslot (hst ▸ hslot) h₂ (hi₁.of_st hst)
  | none =>
    rw [hid] at hslot
    have hhome : ∀ k ∈ ks, v₁.st.home env.hash k = none := fun k hk => by
      rw [State.home, hi₁.count, hks k hk, hslot]
      rfl
    have hmiss : (ks.map fun k => Event.read k (v₁.st.contents env.hash k)) =
        ks.map fun k => Event.read k none := List.map_congr_left fun k hk => by
      rw [hi₁.contents hw₁, State.activeLookup, hhome k hk]
      rfl
    refine h₁.wp_observeAll hp₁ ks (fun k hk => .inr ⟨hp₁, ?_⟩) (hmiss ▸ hsp)
      (l := .active) (fun he => by cases he) fun v₂ h₂ hst => ?_
    · rw [hhome k hk]
      exact ha₁
    · rw [without_lock, hmiss] at h₂
      exact hnone _ v₂ hslot h₂ (hi₁.of_st hst)

/-- The specification allows every part of a batch. -/
def AllowsParts (sp : List (Event K V) → Prop) (ds : List (Event K V)) (key : α → K)
    (items : List α) (event : α × Option V → Event K V) : Prop :=
  ∀ (done : List (α × Option V)) rest, Rearranged key items (done.map Prod.fst ++ rest) →
    sp (ds ++ done.map event)

/-- The specification allows every part of a batch, and evictions after the whole. -/
structure AllowsBatch (env : Env K V) (sp : List (Event K V) → Prop) (ds : List (Event K V))
    (key : α → K) (items : List α) (event : α × Option V → Event K V) : Prop where
  part : AllowsParts sp ds key items event
  whole : ∀ done : List (α × Option V), Rearranged key items (done.map Prod.fst) →
    Lenient env sp (ds ++ done.map event)

/-- The buckets of a batch, one after the other. -/
theorem wp_buckets {key : α → K} {items : List α} {event : α × Option V → Event K V}
    (counts : α × Option V → List Metric) {γ : Type} (result : γ → List (α × Option V) → Prop)
    {f : γ → Nat → Prog K V γ} {order : List Nat} {n : Nat} (hn : 0 < n)
    (horder : order.Perm ((items.map fun x => env.hash (key x) % n).dedup))
    (hsp : AllowsParts sp ds key items event)
    (hstep : ∀ b index v (done : List (α × Option V)), index < n →
      (∀ e ∈ done, e.1 ∈ items ∧ env.hash (key e.1) % n ≠ index) → Calm env sp gs (ds ++ done.map event)
      (cs ++ done.flatMap counts) v → Idle n v → result b done →
      (∀ done' : List (α × Option V),
        done'.map Prod.fst = (items.filter fun x => env.hash (key x) % n = index) →
        sp (ds ++ (done ++ done').map event)) →
      (protocol env L alone).Wp (f b index) v fun b' v' => Idle n v' ∧ ∃ done' : List (α × Option V),
        done'.map Prod.fst = (items.filter fun x => env.hash (key x) % n = index) ∧
        result b' (done ++ done') ∧ Calm env sp gs (ds ++ (done ++ done').map event)
          (cs ++ (done ++ done').flatMap counts) v')
    {b : γ} (hb : result b []) (h : Calm env sp gs ds cs v) (hi : Idle n v) :
    (protocol env L alone).Wp (order.foldlM f b) v fun b' v' => ∃ done : List (α × Option V),
      Rearranged key items (done.map Prod.fst) ∧ result b' done ∧
        Calm env sp gs (ds ++ done.map event) (cs ++ done.flatMap counts) v' := by
  have hnodup : order.Nodup := horder.nodup_iff.mpr (List.nodup_dedup _)
  have hmem : ∀ i, i ∈ order ↔ ∃ x ∈ items, env.hash (key x) % n = i := fun i => by
    rw [horder.mem_iff, List.mem_dedup, List.mem_map]
  have hall : Rearranged key items (grouped (fun x => env.hash (key x) % n) order items) :=
    rearranged_grouped (f := fun k => env.hash k % n) hnodup fun x hx => (hmem _).mpr ⟨x, hx, rfl⟩
  refine (Protocol.Wp.foldlM (P := protocol env L alone)
    (I := fun pre b (w : View K V L.State) => Idle n w ∧ ∃ done : List (α × Option V),
      done.map Prod.fst = grouped (fun x => env.hash (key x) % n) pre items ∧ result b done ∧
        Calm env sp gs (ds ++ done.map event) (cs ++ done.flatMap counts) w)
    ?_ ⟨hi, [], rfl, hb, by simpa using h⟩).mono ?_
  swap
  · rintro b' v' ⟨_, done, hdone, hres, hcalm⟩
    exact ⟨done, hdone ▸ hall, hres, hcalm⟩
  rintro pre index post b w hpost ⟨hw, done, hdone, hres, hcalm⟩
  obtain ⟨x, -, hx⟩ := (hmem index).mp (by rw [hpost]; simp)
  have hold : ∀ e ∈ done, e.1 ∈ items ∧ env.hash (key e.1) % n ≠ index := fun e he => by
    have hmem : e.1 ∈ grouped (fun x => env.hash (key x) % n) pre items :=
      hdone ▸ List.mem_map_of_mem he
    obtain ⟨hin, hpre⟩ := mem_grouped.mp hmem
    rw [hpost] at hnodup
    exact ⟨hin, fun heq => (List.nodup_append.mp hnodup).2.2 _ hpre index (by simp) heq⟩
  refine (hstep b index w done (hx ▸ Nat.mod_lt _ hn) hold hcalm hw hres
    fun done' hdone' => ?_).mono ?_
  · refine hsp _ (grouped (fun x => env.hash (key x) % n) post items) ?_
    rw [List.map_append, hdone, hdone']
    have hsplit : grouped (fun x => env.hash (key x) % n) order items =
        grouped (fun x => env.hash (key x) % n) pre items ++
          (items.filter fun x => env.hash (key x) % n = index) ++
            grouped (fun x => env.hash (key x) % n) post items := by
      rw [hpost, grouped, List.flatMap_append, List.flatMap_cons, ← List.append_assoc]
      rfl
    exact hsplit ▸ hall
  · rintro b' w' ⟨hi', done', hdone', hres', hcalm'⟩
    refine ⟨hi', done ++ done', ?_, hres', hcalm'⟩
    rw [List.map_append, hdone, hdone', grouped, grouped, List.flatMap_append]
    simp

theorem wp_items {key : α → K} {items : List α} {event : α × Option V → Event K V}
    (counts : α × Option V → List Metric) {γ : Type} (result : γ → List (α × Option V) → Prop)
    {f : γ → α → Prog K V γ} (hsp : AllowsParts sp ds key items event)
    (hstep : ∀ b x post v (done : List (α × Option V)), items = done.map Prod.fst ++ x :: post →
      Calm env sp gs (ds ++ done.map event) (cs ++ done.flatMap counts) v →
      result b done → (∀ old, sp (ds ++ (done ++ [(x, old)]).map event)) →
      (protocol env L alone).Wp (f b x) v fun b' v' => ∃ old, result b' (done ++ [(x, old)]) ∧
        Calm env sp gs (ds ++ (done ++ [(x, old)]).map event)
          (cs ++ (done ++ [(x, old)]).flatMap counts) v')
    {b : γ} (hb : result b []) (h : Calm env sp gs ds cs v) :
    (protocol env L alone).Wp (items.foldlM f b) v fun b' v' => ∃ done : List (α × Option V),
      Rearranged key items (done.map Prod.fst) ∧ result b' done ∧
        Calm env sp gs (ds ++ done.map event) (cs ++ done.flatMap counts) v' := by
  refine (Protocol.Wp.foldlM (P := protocol env L alone)
    (I := fun pre b (w : View K V L.State) => ∃ done : List (α × Option V),
      done.map Prod.fst = pre ∧ result b done ∧
        Calm env sp gs (ds ++ done.map event) (cs ++ done.flatMap counts) w)
    ?_ ⟨[], rfl, hb, by simpa using h⟩).mono ?_
  · rintro pre x post b w hpost ⟨done, hdone, hres, hcalm⟩
    refine (hstep b x post w done (hdone.symm ▸ hpost) hcalm hres fun old => hsp _ post ?_).mono ?_
    · intro k
      simp [hdone, hpost]
    · rintro b' w' ⟨old, hres', hcalm'⟩
      exact ⟨done ++ [(x, old)], by simp [hdone], hres', hcalm'⟩
  · rintro b' v' ⟨done, hdone, hres, hcalm⟩
    exact ⟨done, hdone ▸ fun _ => rfl, hres, hcalm⟩

/-- A batch took effect and answered `r`. -/
def Batched (env : Env K V) (sp : List (Event K V) → Prop) (ds : List (Event K V))
    (cs : List Metric) (key : α → K) (items : List α) (event : α × Option V → Event K V)
    (counts : α × Option V → List Metric) (tally : List (α × Option V) → Nat) (r : Nat)
    (v : View K V L.State) : Prop :=
  ∃ done : List (α × Option V), Rearranged key items (done.map Prod.fst) ∧ r = tally done ∧
    Maintained env sp [] (ds ++ done.map event) (cs ++ done.flatMap counts) v

theorem wp_leaveBatch {key : α → K} {items : List α} {event : α × Option V → Event K V}
    {counts : α × Option V → List Metric} {tally : List (α × Option V) → Nat}
    (hsp : AllowsBatch env sp ds key items event) {done : List (α × Option V)}
    (hdone : Rearranged key items (done.map Prod.fst))
    (h : Calm env sp (routed .shared) (ds ++ done.map event) (cs ++ done.flatMap counts) v) :
    (protocol env L alone).Wp (Sync.leave env (tally done)) v fun r v' =>
      Batched env sp ds cs key items event counts tally r v' :=
  (h.wp_leave (hsp.whole done hdone) _).mono fun _ _ ⟨hr, h'⟩ => ⟨done, hdone, hr, h'⟩

/-- A batch takes effect item by item during a migration, and bucket by bucket without one. -/
theorem Calm.wp_batch {key : α → K} {items : List α} {event : α × Option V → Event K V}
    (counts : α × Option V → List Metric) (p : Option V → Bool) {f : Nat → α → Prog K V Nat}
    {g : List (Nat × α) → Nat → Nat → Prog K V Nat} (h : Calm env sp [] ds cs v)
    (hsp : AllowsBatch env sp ds key items event)
    (hone : ∀ {ds cs} {w : View K V L.State} (r : Nat) (x : α), Calm env sp (routed .shared) ds cs w →
      (∀ old, sp (ds ++ [event (x, old)])) →
      (protocol env L alone).Wp (f r x) w fun r' w' => ∃ old,
        r' = r + [(x, old)].countP (fun e => p e.2) ∧
        Calm env sp (routed .shared) (ds ++ [event (x, old)]) (cs ++ counts (x, old)) w')
    (hmany : ∀ {ds cs n index tagged} {w : View K V L.State} (r : Nat),
      Calm env sp (routed .shared) ds cs w → Idle n w → index < n →
      (∀ x ∈ bucket tagged index, env.hash (key x) % n = index) →
      (∀ done : List (α × Option V), done.map Prod.fst = bucket tagged index →
        sp (ds ++ done.map event)) →
      (protocol env L alone).Wp (g tagged r index) w fun r' w' => Idle n w' ∧
        ∃ done : List (α × Option V), done.map Prod.fst = bucket tagged index ∧
          r' = r + done.countP (fun e => p e.2) ∧
          Calm env sp (routed .shared) (ds ++ done.map event) (cs ++ done.flatMap counts) w') :
    (protocol env L alone).Wp (do
      act (.push .operation)
      act .user
      act (.lock .routing .shared)
      let count : Nat ← act .previousShardCount
      if count ≠ 0 then
        let r ← items.foldlM f 0
        Sync.leave env r
      else
        let tagged ← bucketize env key items
        let r ← (← bucketOrder tagged).foldlM (g tagged) 0
        Sync.leave env r) v fun r v' =>
      Batched env sp ds cs key items event counts (fun done => done.countP fun e => p e.2) r v' := by
  refine h.wp_push rfl fun v₁ h₁ _ => wp_user h₁.settled ?_
  refine wp_lock_calm h₁ (fun he => by cases he) (by simp [Guard.excludes])
    (fun _ l _ => by simp [Owns]) (fun _ he => by cases he) fun v₂ h₂ _ _ => ?_
  have hp : Pinned (routed (K := K) (V := V) .shared) := List.mem_cons_self
  refine wp_quiet rfl (rule_previousShardCount (h₂.owns hp.owns) ?_)
  by_cases hidle : v₂.st.previousShardCount = 0
  · have hi : Idle v₂.st.shardCount v₂ := ⟨hidle, rfl⟩
    rw [if_neg (not_not.mpr hidle)]
    refine Protocol.Wp.bind ((h₂.wp_bucketize hp.owns key items).mono ?_)
    rintro tagged v₃ ⟨htagged, he⟩
    subst he htagged
    refine Protocol.Wp.bind (wp_last (wp_quiet rfl (rule_arrange fun order horder => ?_)))
    rw [List.map_map] at horder
    refine Protocol.Wp.bind ((wp_buckets counts (fun r done => r = done.countP fun e => p e.2)
      (h₂.wellFormed hp.owns).count_pos horder hsp.part
      (fun r index w done hlt _ hw hi hr hev => ?_) rfl h₂ hi).mono ?_)
    swap
    · rintro r w ⟨done, hdone, hr, hw⟩
      exact hr ▸ wp_leaveBatch hsp hdone hw
    have hbucket := bucket_map (fun x => env.hash (key x) % v₃.st.shardCount) items index
    refine (hmany r hw hi hlt (fun x hx => ?_) fun done' hdone' => ?_).mono ?_
    · rw [hbucket] at hx
      exact of_decide_eq_true (List.mem_filter.mp hx).2
    · rw [List.append_assoc, ← List.map_append]
      exact hev done' (hbucket ▸ hdone')
    · rintro r' w' ⟨hi', done', hdone', hr', hw'⟩
      rw [List.append_assoc, ← List.map_append, List.append_assoc, ← List.flatMap_append] at hw'
      refine ⟨hi', done', hbucket ▸ hdone', ?_, hw'⟩
      rw [hr', hr, List.countP_append]
  · rw [if_pos hidle]
    refine Protocol.Wp.bind ((wp_items counts (fun r done => r = done.countP fun e => p e.2)
      hsp.part (fun r x _ w done _ hw hr hev => ?_) rfl h₂).mono ?_)
    swap
    · rintro r w ⟨done, hdone, hr, hw⟩
      exact hr ▸ wp_leaveBatch hsp hdone hw
    refine (hone r x hw fun old => ?_).mono ?_
    · simpa using hev old
    · rintro r' w' ⟨old, hr', hw'⟩
      refine ⟨old, ?_, by simpa using hw'⟩
      rw [hr', hr, List.countP_append]

end Buckets

section Apply

variable {key : α → K} {event : α × Option V → Event K V} {counts : α × Option V → List Metric}
  {p : Option V → Bool} {f : Nat → α → Prog K V Nat} {es : List α}

/-- One item of a bucket is applied to its shard, whose mutation is open. -/
def Applies (env : Env K V) (alone : Prop) (gs : Guards K V) (v₀ : View K V L.State) (id : Nat)
    (key : α → K) (event : α × Option V → Event K V) (counts : α × Option V → List Metric)
    (p : Option V → Bool) (f : Nat → α → Prog K V Nat) (x : α) : Prop :=
  ∀ r n b c cs touched v,
    Edit env v₀ (.mutation id n b :: gs) c (fun k => v₀.st.prevLookup env.hash k = none) cs touched v →
    (protocol env L alone).Wp (f r x) v fun r' v' => r' = (if p (c (key x)) then r + 1 else r) ∧
      ∃ b' c' touched', Edit env v₀ (.mutation id n b' :: gs) c'
          (fun k => v₀.st.prevLookup env.hash k = none) (cs ++ counts (x, c (key x))) touched' v' ∧
        (event (x, c (key x))).effect c c' ∧
        (touched' → touched ∨ (event (x, c (key x))).changes)

theorem Calm.wp_applyBucket (key : α → K) (event : α × Option V → Event K V)
    (counts : α × Option V → List Metric) (p : Option V → Bool)
    (h : Calm env sp (.lock (.shard id) .excl :: gs) ds cs v) (hi : Idle n v)
    (hp : Pinned gs) (hid : v.st.shards[index]? = some (some id))
    (hes : ∀ x ∈ es, env.hash (key x) % n = index) (hdata : ∀ e, (event e).isData)
    (hkeys : ∀ e k, (event e).keys k → k = key e.1)
    (hf : ∀ x ∈ es, Applies env alone (.lock (.shard id) .excl :: gs) v id key event counts p f x)
    (hsp : ∀ done : List (α × Option V), done.map Prod.fst = es → sp (ds ++ done.map event))
    (r : Nat) :
    (protocol env L alone).Wp (do
      ShardMutation.new id
      let r ← es.foldlM f r
      ShardMutation.drop id
      act (.unlock (.shard id))
      return r) v fun r' v' => Idle n v' ∧ ∃ done : List (α × Option V),
        done.map Prod.fst = es ∧ r' = r + done.countP (fun e => p e.2) ∧
          Calm env sp gs (ds ++ done.map event) (cs ++ done.flatMap counts) v' := by
  have hp' : Pinned (.lock (.shard id) .excl :: gs) := List.mem_cons_of_mem _ hp
  have ho : OwnsExcl (.lock (.shard id) .excl :: gs) (.shard id) := List.mem_cons_self
  have hhome : ∀ x ∈ es, v.st.home env.hash (key x) = some id := fun x hx => by
    rw [State.home_eq_some, hi.count, hes x hx]
    exact hid
  have hstart := Edit.start h.settled (h.guards.symm ▸ h.closed)
  rw [h.guards] at hstart
  refine Protocol.Wp.bind ((wp_new hstart h.closed ho hp' ⟨_, hid⟩).mono ?_)
  rintro _ v₁ ⟨n₁, e₁⟩
  refine Protocol.Wp.bind ((Protocol.Wp.foldlM (P := protocol env L alone)
    (I := fun pre r' (w : View K V L.State) => ∃ done : List (α × Option V),
      done.map Prod.fst = pre ∧ r' = r + done.countP (fun e => p e.2) ∧
        ∃ b c touched, Edit env v (.mutation id n₁ b :: .lock (.shard id) .excl :: gs) c
            (fun k => v.st.prevLookup env.hash k = none) (done.flatMap counts) touched w ∧
          Event.effects (done.map event) (v.st.contents env.hash) c ∧
          (touched → ∃ e ∈ done.map event, e.changes))
    ?_ ⟨[], rfl, rfl, false, _, false, e₁, rfl, by simp⟩).mono ?_)
  · rintro pre x post r' w hpost ⟨done, hdone, hr, b, c, touched, hw, heff, ht⟩
    refine (hf x (by rw [hpost]; simp) r' n₁ b c _ touched w hw).mono ?_
    rintro r'' w' ⟨hr', b', c', touched', hw', heff', ht'⟩
    refine ⟨done ++ [(x, c (key x))], by simp [hdone], ?_, b', c', touched', ?_, ?_,
      fun htouch => ?_⟩
    · rw [hr', hr]
      cases hpx : p (c (key x)) <;> simp [List.countP_append, hpx, Nat.add_assoc]
    · simpa using hw'
    · rw [List.map_append]
      exact Event.effects_append heff ⟨_, heff', rfl⟩
    · rw [List.map_append]
      rcases ht' htouch with htouch | hch
      · obtain ⟨e, he, hc⟩ := ht htouch
        exact ⟨e, List.mem_append_left _ he, hc⟩
      · exact ⟨_, List.mem_append_right _ (List.mem_singleton_self _), hch⟩
  · rintro r' v₂ ⟨done, hdone, hr, b, c, touched, e₂, heff, ht⟩
    refine Protocol.Wp.bind ((wp_close e₂ h.closed).mono fun _ v₃ e₃ => ?_)
    refine h.wp_commit hp' e₃ (fun e he => ?_) (fun e he k hk => ?_) heff ht (hsp done hdone)
      (l := .shard id) (fun he => by cases he) fun v₄ h₄ hst => ?_
    · obtain ⟨x, _, rfl⟩ := List.mem_map.mp he
      exact hdata x
    · obtain ⟨x, hx, rfl⟩ := List.mem_map.mp he
      refine .inr ⟨hp', ?_⟩
      rw [hkeys x k hk, hhome x.1 (hdone ▸ List.mem_map_of_mem hx)]
      exact ho.owns
    · rw [without_lock] at h₄
      exact ⟨(hi.edit e₃).of_st hst, done, hdone, hr, h₄⟩

end Apply

section Insert

variable {items : List (Nat × (K × V))}

theorem Calm.wp_batchInsertBucket (h : Calm env sp gs ds cs v) (hi : Idle n v) (hp : Pinned gs)
    (hfree : ∀ l, l.inner → ¬ Owns gs l) (hlt : index < n)
    (hes : ∀ e ∈ bucket items index, env.hash e.1 % n = index)
    (hsp : ∀ done : List ((K × V) × Option V), done.map Prod.fst = bucket items index →
      sp (ds ++ done.map insertion)) (inserted : Nat) :
    (protocol env L alone).Wp (Sync.batchInsertBucket env items inserted index) v fun r v' =>
      Idle n v' ∧ ∃ done : List ((K × V) × Option V), done.map Prod.fst = bucket items index ∧
        r = inserted + done.countP (·.2.isNone) ∧
        Calm env sp gs (ds ++ done.map insertion) (cs ++ done.flatMap insertionCounts) v' := by
  refine Protocol.Wp.bind ((h.wp_getOrInitShard hp (hfree _ rfl) (hi.count.symm ▸ hlt)).mono
    fun id v₁ ⟨hid, h₁, k₁⟩ => ?_)
  have hi₁ := hi.keeps k₁ hp.owns
  refine wp_lock_calm h₁ (fun _ => hp.owns) (free_of_not_owns (hfree _ rfl)) (fun he => by cases he)
    (fun _ heq _ => LockId.shard.inj heq ▸ State.mem_live.mpr (.inl ⟨_, hid⟩)) fun v₂ h₂ k₂ _ => ?_
  have hi₂ := hi₁.keeps k₂ hp.owns
  have hid₂ := k₂.slots hp.owns index id hid
  have hp₂ : Pinned (.lock (.shard id) .excl :: gs) := List.mem_cons_of_mem _ hp
  have hw₂ := h₂.wellFormed hp₂.owns
  refine wp_user h₂.settled ?_
  refine h₂.wp_applyBucket Prod.fst insertion insertionCounts Option.isNone hi₂ hp hid₂ hes
    (fun _ => rfl) (fun _ _ hk => hk)
    (fun e he r m b c cs' touched w hw => ?_) hsp inserted
  have hhome : v₂.st.home env.hash e.1 = some id := by
    rw [State.home_eq_some, hi₂.count, hes e he]
    exact hid₂
  refine Protocol.Wp.bind ((wp_trackedInsert hw h₂.closed hhome (hi₂.prevLookup hw₂ e.1) e.2).mono
    fun old w₁ ⟨hold, e₁⟩ => ?_)
  refine Protocol.Wp.bind ((wp_retireValue e₁.settled old).mono fun replaced w₂ ⟨hrep, he⟩ => ?_)
  subst he hrep hold
  refine ⟨?_, true, _, true, e₁, ⟨rfl, rfl⟩, fun _ => .inr trivial⟩
  cases c e.1 <;> rfl

def insertedNew (done : List ((K × V) × Option V)) : Nat := done.countP (·.2.isNone)

theorem Calm.wp_batchInsert (h : Calm env sp [] ds cs v) {entries : List (K × V)}
    (hsp : AllowsBatch env sp ds Prod.fst entries insertion) :
    (protocol env L alone).Wp (Sync.batchInsert env entries) v fun r v' =>
      Batched env sp ds cs Prod.fst entries insertion insertionCounts insertedNew r v' := by
  have hp : Pinned (routed (K := K) (V := V) .shared) := List.mem_cons_self
  refine h.wp_batch insertionCounts Option.isNone hsp (fun r e hw hev => ?_)
    fun r hw hi hlt hes hev => hw.wp_batchInsertBucket hi hp (routed_free _) hlt hes hev r
  have hev : ∀ old, sp (_ ++ [Event.modify e.1 old (some e.2)]) := hev
  refine Protocol.Wp.bind ((hw.wp_insertInner hp (routed_free _) hev).mono fun old w₁ h₁ => ?_)
  refine Protocol.Wp.bind ((wp_retireValue h₁.settled old).mono ?_)
  rintro rep w₂ ⟨hrep, he⟩
  subst he hrep
  refine ⟨old, ?_, h₁⟩
  cases old <;> rfl

end Insert

section Remove

variable {items : List (Nat × K)}

theorem Calm.wp_containsAny (h : Calm env sp gs ds cs v) (ho : Owns gs (.shard id)) (ks : List K) :
    (protocol env L alone).Wp (Sync.containsAny id ks) v fun r v' => v' = v ∧
      (r = false → ∀ k ∈ ks, (v.st.heap id).lookup k = none) := by
  induction ks with
  | nil => exact ⟨rfl, by simp⟩
  | cons k ks ih =>
    refine wp_user h.settled (wp_quiet rfl (rule_get (.inr (h.owns ho)) ?_))
    cases hk : (v.st.heap id).lookup k with
    | some x => exact ⟨rfl, by simp⟩
    | none =>
      refine ih.mono fun r v₁ ⟨he, hr⟩ => ⟨he, fun hf => ?_⟩
      simpa [hk] using hr hf

theorem Calm.wp_batchRemoveBucket (h : Calm env sp gs ds cs v) (hi : Idle n v) (hp : Pinned gs)
    (hfree : ∀ l, l.inner → ¬ Owns gs l) (hlt : index < n)
    (hes : ∀ k ∈ bucket items index, env.hash k % n = index)
    (hsp : ∀ done : List (K × Option V), done.map Prod.fst = bucket items index →
      sp (ds ++ done.map removal)) (removed : Nat) :
    (protocol env L alone).Wp (Sync.batchRemoveBucket env items removed index) v fun r v' =>
      Idle n v' ∧ ∃ done : List (K × Option V), done.map Prod.fst = bucket items index ∧
        r = removed + done.countP (·.2.isSome) ∧
        Calm env sp gs (ds ++ done.map removal) (cs ++ done.flatMap removalCounts) v' := by
  -- nothing is found, nothing changes, and nothing is counted
  have hmiss : (((bucket items index).map fun k => (k, (none : Option V))).map removal) =
      (bucket items index).map fun k => Event.read k none := by
    rw [List.map_map]
    rfl
  have hend : ∀ w : View K V L.State,
      Calm env sp gs (ds ++ (bucket items index).map fun k => Event.read k none) cs w →
      Idle n w → Idle n w ∧ ∃ done : List (K × Option V), done.map Prod.fst = bucket items index ∧
        removed = removed + done.countP (·.2.isSome) ∧
        Calm env sp gs (ds ++ done.map removal) (cs ++ done.flatMap removalCounts) w := by
    intro w hw hiw
    refine ⟨hiw, (bucket items index).map fun k => (k, none), by simp [Function.comp_def], ?_, ?_⟩
    · simp [List.countP_map, Function.comp_def]
    · have hcounts : ((bucket items index).map fun k => (k, (none : Option V))).flatMap
          removalCounts = [] := by simp [removalCounts]
      rw [hmiss, hcounts, List.append_nil]
      exact hw
  have hspm : sp (ds ++ (bucket items index).map fun k => Event.read k none) :=
    hmiss ▸ hsp _ (by simp [Function.comp_def])
  refine h.wp_bucketSlot hi hp (hfree _ rfl) hlt _ hes hspm (fun slots id v₁ hslot hid h₁ hi₁ => ?_)
    fun slots v₁ hslot h₁ hi₁ => ?_
  · rw [hslot]
    refine wp_lock_calm h₁ (fun _ => hp.owns) (free_of_not_owns (hfree _ rfl)) (fun he => by cases he)
      (fun _ heq _ => LockId.shard.inj heq ▸ State.mem_live.mpr (.inl ⟨_, hid⟩))
      fun v₂ h₂ k₂ _ => ?_
    have hi₂ := hi₁.keeps k₂ hp.owns
    have hid₂ := k₂.slots hp.owns index id hid
    have hp₂ : Pinned (.lock (.shard id) .excl :: gs) := List.mem_cons_of_mem _ hp
    have ho₂ : Owns (.lock (.shard id) .excl :: gs) (.shard id) := ⟨.excl, by simp⟩
    have hw₂ := h₂.wellFormed hp₂.owns
    have hhome : ∀ k ∈ bucket items index, v₂.st.home env.hash k = some id := fun k hk => by
      rw [State.home_eq_some, hi₂.count, hes k hk]
      exact hid₂
    have hremove : (protocol env L alone).Wp (do
        act .user
        ShardMutation.new id
        let removed ← (bucket items index).foldlM (fun removed k => do
          let gone ← Sync.retireValue env (← Sync.trackedRemove id k)
          return if gone then removed + 1 else removed) removed
        ShardMutation.drop id
        act (.unlock (.shard id))
        return removed) v₂ fun r v' =>
          Idle n v' ∧ ∃ done : List (K × Option V), done.map Prod.fst = bucket items index ∧
            r = removed + done.countP (·.2.isSome) ∧
            Calm env sp gs (ds ++ done.map removal) (cs ++ done.flatMap removalCounts) v' := by
      refine wp_user h₂.settled ?_
      refine h₂.wp_applyBucket (fun k => k) removal removalCounts Option.isSome hi₂ hp hid₂ hes
        (by simp [removal])
        (fun _ _ hk => Event.keys_removal hk) (fun k hk r m b c cs' touched w hw => ?_) hsp removed
      refine Protocol.Wp.bind ((wp_trackedRemove hw (hhome k hk) (hi₂.prevLookup hw₂ k)).mono ?_)
      rintro old w₁ ⟨hold, e₁⟩
      refine Protocol.Wp.bind ((wp_retireValue e₁.settled old).mono ?_)
      rintro gone w₂ ⟨hgone, he⟩
      subst he hgone hold
      refine ⟨rfl, b, _, _, e₁, Event.effect_removal rfl, fun ht => ?_⟩
      exact (Bool.or_eq_true_iff.mp ht).imp_right Event.changes_removal
    have hmissed : (∀ k ∈ bucket items index, (v₂.st.heap id).lookup k = none) →
        (protocol env L alone).Wp (do
          act (.unlock (.shard id))
          return removed) v₂ fun r v' =>
            Idle n v' ∧ ∃ done : List (K × Option V), done.map Prod.fst = bucket items index ∧
              r = removed + done.countP (·.2.isSome) ∧
              Calm env sp gs (ds ++ done.map removal) (cs ++ done.flatMap removalCounts) v' := by
      intro hnone
      have hread : ((bucket items index).map fun k => Event.read k (v₂.st.contents env.hash k)) =
          (bucket items index).map fun k => Event.read k none := List.map_congr_left fun k hk => by
        rw [hi₂.contents hw₂, State.activeLookup, hhome k hk]
        exact congrArg _ (hnone k hk)
      refine h₂.wp_observeAll hp₂ _ (fun k hk => .inr ⟨hp₂, ?_⟩) (hread ▸ hspm) (l := .shard id)
        (fun he => by cases he) fun v₃ h₃ hst => ?_
      · rw [hhome k hk]
        exact ho₂
      · rw [without_lock, hread] at h₃
        exact hend v₃ h₃ (hi₂.of_st hst)
    dsimp only
    split
    · refine Protocol.Wp.bind ((h₂.wp_containsAny ho₂ _).mono ?_)
      rintro found v₃ ⟨he, hnone⟩
      subst he
      cases found with
      | true => exact hremove
      | false => exact hmissed (hnone rfl)
    · exact hremove
  · rw [hslot]
    exact hend v₁ h₁ hi₁

def removedOld (done : List (K × Option V)) : Nat := done.countP (·.2.isSome)

theorem Calm.wp_batchRemove (h : Calm env sp [] ds cs v) {keys : List K}
    (hsp : AllowsBatch env sp ds (fun k => k) keys removal) :
    (protocol env L alone).Wp (Sync.batchRemove env keys) v fun r v' =>
      Batched env sp ds cs (fun k => k) keys removal removalCounts removedOld r v' := by
  have hp : Pinned (routed (K := K) (V := V) .shared) := List.mem_cons_self
  refine h.wp_batch removalCounts Option.isSome hsp (fun r k hw hev => ?_)
    fun r hw hi hlt hes hev => hw.wp_batchRemoveBucket hi hp (routed_free _) hlt hes hev r
  refine Protocol.Wp.bind ((hw.wp_removeInner hp (routed_free _) hev).mono fun old w₁ h₁ => ?_)
  refine Protocol.Wp.bind ((wp_retireValue h₁.settled old).mono ?_)
  rintro gone w₂ ⟨hgone, he⟩
  subst he hgone
  refine ⟨old, ?_, h₁⟩
  cases old <;> rfl

end Remove

section Get

/-- The positions of the result vector that were written, and those that were not. -/
structure Gathered (m : Nat) (r : List (Option V)) (done : List ((Nat × K) × Option V)) : Prop where
  length : r.length = m
  written : ∀ e ∈ done, r[e.1.1]? = some e.2
  blank : ∀ i < m, (∀ e ∈ done, e.1.1 ≠ i) → r[i]? = some none

variable {m : Nat} {r : List (Option V)} {done : List ((Nat × K) × Option V)} {x : Nat × K}
  {keys : List K}

omit [DecidableEq K] in
theorem Gathered.start (m : Nat) : Gathered (K := K) (V := V) m (List.replicate m none) [] where
  length := List.length_replicate
  written := by simp
  blank i hi _ := by simp [hi]

omit [DecidableEq K] in
theorem Gathered.set (h : Gathered m r done) (hx : x.1 < m) (hnew : ∀ e ∈ done, e.1.1 ≠ x.1)
    (found : Option V) : Gathered m (r.set x.1 found) (done ++ [(x, found)]) where
  length := by rw [List.length_set, h.length]
  written e he := by
    rcases List.mem_append.mp he with he | he
    · rw [List.getElem?_set_ne (hnew e he).symm]
      exact h.written e he
    · rw [List.mem_singleton.mp he]
      exact List.getElem?_set_self (by rw [h.length]; exact hx)
  blank i hi hne := by
    have hxi : x.1 ≠ i := hne (x, found) (by simp)
    rw [List.getElem?_set_ne hxi]
    exact h.blank i hi fun e he => hne e (List.mem_append_left _ he)

omit [DecidableEq K] in
theorem Gathered.skip (h : Gathered m r done) {xs : List (Nat × K)}
    (hxs : ∀ x ∈ xs, x.1 < m ∧ ∀ e ∈ done, e.1.1 ≠ x.1) :
    Gathered m r (done ++ xs.map fun x => (x, none)) where
  length := h.length
  written e he := by
    rcases List.mem_append.mp he with he | he
    · exact h.written e he
    · obtain ⟨x, hx, rfl⟩ := List.mem_map.mp he
      exact h.blank x.1 (hxs x hx).1 (hxs x hx).2
  blank i hi hne := h.blank i hi fun e he => hne e (List.mem_append_left _ he)

omit [DecidableEq K] in
theorem mem_positions : x ∈ positions keys ↔ keys[x.1]? = some x.2 := by
  obtain ⟨i, k⟩ := x
  rw [List.mem_map]
  constructor
  · rintro ⟨⟨k', i'⟩, hmem, heq⟩
    cases heq
    exact List.mem_zipIdx_iff_getElem?.mp hmem
  · exact fun h => ⟨(k, i), List.mem_zipIdx_iff_getElem?.mpr h, rfl⟩

omit [DecidableEq K] in
theorem lt_of_mem_positions (hx : x ∈ positions keys) : x.1 < keys.length :=
  (List.getElem?_eq_some_iff.mp (mem_positions.mp hx)).1

omit [DecidableEq K] in
theorem nodup_positions (keys : List K) : ((positions keys).map Prod.fst).Nodup := by
  rw [List.map_map]
  have hfst : (Prod.fst ∘ Prod.swap : K × Nat → Nat) = Prod.snd := rfl
  rw [hfst, List.zipIdx_map_snd]
  exact List.nodup_range'

omit [DecidableEq K] in
theorem Idle.core (h : Idle n v) (hs : State.SameCore v.st v'.st) : Idle n v' :=
  ⟨hs.previousShardCount.trans h.idle, hs.shardCount.trans h.count⟩

theorem Calm.wp_recordMisses (h : Calm env sp gs ds cs v) (hi : Idle n v) (xs : List (Nat × K)) :
    (protocol env L alone).Wp (xs.mapM fun x => LifecycleState.recordRead (V := V) x.2 false) v
      fun _ v' => Idle n v' ∧ Calm env sp gs ds
        (cs ++ (xs.map fun x => (x, (none : Option V))).flatMap readingCounts) v' := by
  refine Protocol.Wp.mapM (P := protocol env L alone) (I := fun pre _ (w : View K V L.State) =>
    Idle n w ∧ Calm env sp gs ds
      (cs ++ (pre.map fun x => (x, (none : Option V))).flatMap readingCounts) w) ?_
    ⟨hi, by simpa using h⟩
  rintro pre x post _ w _ ⟨hiw, hw⟩
  refine (hw.wp_recordRead x.2 false).mono ?_
  rintro _ w₁ ⟨h₁, s₁⟩
  refine ⟨hiw.core s₁, ?_⟩
  rw [List.map_append, List.flatMap_append, ← List.append_assoc]
  simpa [readingCounts, lookupCounts, readCounts] using h₁

theorem Calm.wp_batchGetBucket {items : List (Nat × (Nat × K))} (h : Calm env sp gs ds cs v)
    (hi : Idle n v) (hp : Pinned gs) (hfree : ∀ l, l.inner → ¬ Owns gs l) (hlt : index < n)
    (hes : ∀ x ∈ bucket items index, env.hash x.2 % n = index)
    (hpos : ((bucket items index).map Prod.fst).Nodup)
    (hnew : ∀ x ∈ bucket items index, x.1 < m ∧ ∀ e ∈ done, e.1.1 ≠ x.1)
    (hg : Gathered m r done)
    (hsp : ∀ done : List ((Nat × K) × Option V), done.map Prod.fst = bucket items index →
      sp (ds ++ done.map reading)) :
    (protocol env L alone).Wp (Sync.batchGetBucket items r index) v fun r' v' =>
      Idle n v' ∧ ∃ done' : List ((Nat × K) × Option V), done'.map Prod.fst = bucket items index ∧
        Gathered m r' (done ++ done') ∧
        Calm env sp gs (ds ++ done'.map reading) (cs ++ done'.flatMap readingCounts) v' := by
  have hmiss : (((bucket items index).map fun x => (x, (none : Option V))).map reading) =
      ((bucket items index).map Prod.snd).map fun k => Event.read k none := by
    rw [List.map_map, List.map_map]
    rfl
  refine h.wp_bucketSlot hi hp (hfree _ rfl) hlt ((bucket items index).map Prod.snd)
    (fun k hk => ?_) (hmiss ▸ hsp _ (by simp [Function.comp_def]))
    (fun slots id v₁ hslot hid h₁ hi₁ => ?_) fun slots v₁ hslot h₁ hi₁ => ?_
  · obtain ⟨x, hx, rfl⟩ := List.mem_map.mp hk
    exact hes x hx
  · rw [hslot]
    refine wp_lock_calm h₁ (fun _ => hp.owns) (free_of_not_owns (hfree _ rfl)) (fun he => by cases he)
      (fun _ heq _ => LockId.shard.inj heq ▸ State.mem_live.mpr (.inl ⟨_, hid⟩))
      fun v₂ h₂ k₂ _ => ?_
    have hi₂ := hi₁.keeps k₂ hp.owns
    have hid₂ := k₂.slots hp.owns index id hid
    have hp₂ : Pinned (.lock (.shard id) .shared :: gs) := List.mem_cons_of_mem _ hp
    have ho₂ : Owns (.lock (.shard id) .shared :: gs) (.shard id) := ⟨.shared, by simp⟩
    have hhome : ∀ x ∈ bucket items index, v₂.st.home env.hash x.2 = some id := fun x hx => by
      rw [State.home_eq_some, hi₂.count, hes x hx]
      exact hid₂
    have hlookup : ∀ x ∈ bucket items index,
        (v₂.st.heap id).lookup x.2 = v₂.st.contents env.hash x.2 := fun x hx => by
      rw [hi₂.contents (h₂.wellFormed hp₂.owns), State.activeLookup, hhome x hx]
      rfl
    refine Protocol.Wp.bind ((Protocol.Wp.foldlM (P := protocol env L alone)
      (I := fun pre r' (w : View K V L.State) =>
        Gathered m r' (done ++ pre.map fun x => (x, v₂.st.contents env.hash x.2)) ∧
          State.SameCore v₂.st w.st ∧ Calm env sp (.lock (.shard id) .shared :: gs) ds
            (cs ++ (pre.map fun x => (x, v₂.st.contents env.hash x.2)).flatMap readingCounts) w)
      ?_ ⟨by simpa using hg, .refl _, by simpa using h₂⟩).mono ?_)
    · rintro pre x post r' w hpost ⟨hg', sw, hw⟩
      have hx : x ∈ bucket items index := by
        rw [hpost]
        simp
      refine wp_user hw.settled (wp_quiet rfl (rule_get (.inr (hw.owns ho₂)) ?_))
      have hget : (w.st.heap id).lookup x.2 = v₂.st.contents env.hash x.2 := by
        rw [sw.heap]
        exact hlookup x hx
      rw [hget]
      refine Protocol.Wp.bind ((hw.wp_trackedRead x.2 _ _).mono ?_)
      rintro value w₁ ⟨hval, h₁, s₁⟩
      have hval : value = v₂.st.contents env.hash x.2 := by simpa using hval
      have hfresh : ∀ e ∈ done ++ pre.map fun x => (x, v₂.st.contents env.hash x.2),
          e.1.1 ≠ x.1 := by
        intro e he
        rcases List.mem_append.mp he with he | he
        · exact (hnew x hx).2 e he
        · obtain ⟨y, hy, rfl⟩ := List.mem_map.mp he
          rw [hpost, List.map_append] at hpos
          exact (List.nodup_append.mp hpos).2.2 _ (List.mem_map_of_mem hy) _ (by simp)
      refine ⟨?_, sw.trans s₁, ?_⟩
      · rw [List.map_append, ← List.append_assoc, hval]
        exact hg'.set (hnew x hx).1 hfresh _
      · rw [List.map_append, List.flatMap_append, ← List.append_assoc]
        simpa [readingCounts, lookupCounts, readCounts] using h₁
    · rintro r' v₃ ⟨hg', s₃, h₃⟩
      have hevents : (((bucket items index).map Prod.snd).map fun k =>
          Event.read k (v₃.st.contents env.hash k)) =
            ((bucket items index).map fun x => (x, v₂.st.contents env.hash x.2)).map reading := by
        rw [List.map_map, List.map_map]
        exact List.map_congr_left fun x _ => congrArg _ (s₃.tables.contents x.2)
      refine h₃.wp_observeAll hp₂ ((bucket items index).map Prod.snd) (fun k hk => .inr ⟨hp₂, ?_⟩)
        (hevents ▸ hsp _ (by simp [Function.comp_def])) (l := .shard id)
        (fun he => by cases he) fun v₄ h₄ hst => ?_
      · obtain ⟨x, hx, rfl⟩ := List.mem_map.mp hk
        rw [s₃.tables.home, hhome x hx]
        exact ho₂
      · rw [without_lock, hevents] at h₄
        exact ⟨(hi₂.core s₃).of_st hst, _, by simp [Function.comp_def], hg', h₄⟩
  · rw [hslot]
    refine Protocol.Wp.bind ((h₁.wp_recordMisses hi₁ _).mono ?_)
    rintro _ v₂ ⟨hi₂, h₂⟩
    refine ⟨hi₂, (bucket items index).map fun x => (x, none), by simp [Function.comp_def],
      hg.skip hnew, ?_⟩
    rw [hmiss]
    exact h₂

/-- Lookups of a batch: every position holds what was found for its key. -/
def Looked (env : Env K V) (sp : List (Event K V) → Prop) (ds : List (Event K V))
    (cs : List Metric) (keys : List K) (r : List (Option V)) (v : View K V L.State) : Prop :=
  ∃ done, Rearranged Prod.snd (positions keys) (done.map Prod.fst) ∧ Gathered keys.length r done ∧
    Calm env sp [] (ds ++ done.map reading) (cs ++ done.flatMap readingCounts) v

theorem Calm.wp_batchGet (h : Calm env sp [] ds cs v)
    (hsp : AllowsParts sp ds Prod.snd (positions keys) reading) :
    (protocol env L alone).Wp (Sync.batchGet env keys) v fun r v' =>
      Looked env sp ds cs keys r v' := by
  refine wp_lock_calm h (fun he => by cases he) (by simp) (fun _ l _ => by simp [Owns])
    (fun _ he => by cases he) fun v₁ h₁ _ _ => ?_
  have hp : Pinned ([.lock .routing .shared] : Guards K V) := List.mem_cons_self
  have hfree := pinned_free (K := K) (V := V) [] (by simp)
  have hend : ∀ r (w : View K V L.State) (done : List ((Nat × K) × Option V)),
      Rearranged Prod.snd (positions keys) (done.map Prod.fst) → Gathered keys.length r done →
      Calm env sp [.lock .routing .shared] (ds ++ done.map reading)
        (cs ++ done.flatMap readingCounts) w →
      (protocol env L alone).Wp (do
        act (.unlock .routing)
        return r) w fun r v' => Looked env sp ds cs keys r v' := by
    intro r w done hdone hr hw
    refine wp_unlock_calm hw (fun _ => hfree) fun w₁ h₁ _ _ => ?_
    rw [without_lock] at h₁
    exact ⟨done, hdone, hr, h₁⟩
  have hnodup := nodup_positions keys
  refine wp_quiet rfl (rule_previousShardCount (h₁.owns hp.owns) ?_)
  by_cases hidle : v₁.st.previousShardCount = 0
  · have hi : Idle v₁.st.shardCount v₁ := ⟨hidle, rfl⟩
    rw [if_neg (not_not.mpr hidle)]
    refine Protocol.Wp.bind ((h₁.wp_bucketize hp.owns Prod.snd (positions keys)).mono ?_)
    rintro items v₂ ⟨hitems, he⟩
    subst he hitems
    refine Protocol.Wp.bind (wp_last (wp_quiet rfl (rule_arrange fun order horder => ?_)))
    rw [List.map_map] at horder
    refine Protocol.Wp.bind ((wp_buckets readingCounts (Gathered keys.length)
      (h₁.wellFormed hp.owns).count_pos horder hsp (fun r index w done hlt hold hw hi hg hev => ?_) (.start _) h₁ hi).mono ?_)
    swap
    · rintro r w ⟨done, hdone, hr, hw⟩
      exact hend r w done hdone hr hw
    have hbucket := bucket_map (fun x : Nat × K => env.hash x.2 % v₂.st.shardCount)
      (positions keys) index
    refine (hw.wp_batchGetBucket hi hp hfree hlt (fun x hx => ?_) ?_ (fun x hx => ?_) hg
      fun done' hdone' => ?_).mono ?_
    · rw [hbucket] at hx
      exact of_decide_eq_true (List.mem_filter.mp hx).2
    · rw [hbucket]
      exact hnodup.sublist (List.filter_sublist.map _)
    · rw [hbucket] at hx
      obtain ⟨hx, hhash⟩ := List.mem_filter.mp hx
      refine ⟨lt_of_mem_positions hx, fun e he heq => ?_⟩
      -- the same position would be the same key, and the same bucket
      obtain ⟨hmem, hne⟩ := hold e he
      have hkey := (mem_positions.mp hmem).symm.trans ((congrArg (keys[·]?) heq).trans
        (mem_positions.mp hx))
      rw [Option.some.inj hkey] at hne
      exact hne (of_decide_eq_true hhash)
    · rw [List.append_assoc, ← List.map_append]
      exact hev done' (hbucket ▸ hdone')
    · rintro r' w' ⟨hi', done', hdone', hg', hw'⟩
      rw [List.append_assoc, ← List.map_append, List.append_assoc, ← List.flatMap_append] at hw'
      exact ⟨hi', done', hbucket ▸ hdone', hg', hw'⟩
  · rw [if_pos hidle]
    have hloop : (keys.zipIdx.foldlM (fun result e => do
          let value ← Sync.readInner env e.1 fun v => v
          return result.set e.2 value) (List.replicate keys.length none) :
            Prog K V (List (Option V))) =
        (positions keys).foldlM (fun result x => do
          let value ← Sync.readInner env x.2 fun v => v
          return result.set x.1 value) (List.replicate keys.length none) := by
      rw [positions, List.foldlM_map]
      rfl
    refine Protocol.Wp.bind (hloop ▸ ?_)
    refine (wp_items readingCounts (Gathered keys.length) hsp
      (fun r x post w done hpost hw hg hev => ?_) (.start _) h₁).mono ?_
    swap
    · rintro r w ⟨done, hdone, hr, hw⟩
      exact hend r w done hdone hr hw
    refine Protocol.Wp.bind ((hw.wp_readInner hp hfree (fun found => ?_) _).mono ?_)
    · simpa [reading] using hev found
    · rintro value w₁ ⟨found, hval, h₁⟩
      have hval : value = found := by simpa using hval
      rw [hpost, List.map_append, List.map_map] at hnodup
      have hnew : ∀ e ∈ done, e.1.1 ≠ x.1 := fun e he =>
        (List.nodup_append.mp hnodup).2.2 _ (List.mem_map_of_mem he) _ (by simp)
      refine ⟨found, ?_, ?_⟩
      · rw [hval]
        exact hg.set (lt_of_mem_positions (hpost ▸ by simp)) hnew found
      · simpa [reading, readingCounts, lookupCounts, readCounts] using h₁

end Get

end Starshard
