import Starshard.Locking.Capture
import Starshard.Proof.Capturing

/-! Transactions: every shard that a transaction needs is locked before its first
operation, and everything it did is committed in one step. -/
namespace Starshard

open Data Concurrent
open Function (update)

variable {K V : Type} [DecidableEq K] {env : Env K V} {L : Lifecycle K V} {alone : Prop}
  {v v' v₀ : View K V L.State} {α : Type} {Φ : α → View K V L.State → Prop}
  {sp : List (Event K V) → Prop} {gs : Guards K V} {ds : List (Event K V)}
  {cs : List Metric} {k : K} {id : Nat} {m : Mode}

section Search

variable {indices guards : List Nat} {i n index guard : Nat}

theorem searchBetween_eq (hs : indices.Pairwise (· < ·)) (hat : indices[i]? = some index)
    {fuel lo hi : Nat} (hlo : lo ≤ i) (hhi : i < hi) (hf : hi ≤ lo + fuel)
    (hlen : hi ≤ indices.length) : searchBetween indices index fuel lo hi = some i := by
  induction fuel generalizing lo hi with
  | zero => omega
  | succ fuel ih =>
    have hmid : (lo + hi) / 2 < indices.length := by omega
    obtain ⟨hin, rfl⟩ := List.getElem?_eq_some_iff.mp hat
    have hlt : ∀ {a b : Nat} (ha : a < indices.length) (hb : b < indices.length), a < b →
        indices[a] < indices[b] := fun ha hb hab => List.pairwise_iff_getElem.mp hs _ _ ha hb hab
    rw [searchBetween, if_pos (by omega)]
    simp only [List.getElem?_eq_getElem hmid]
    rcases Nat.lt_trichotomy ((lo + hi) / 2) i with h | h | h
    · have hv := hlt hmid hin h
      rw [if_neg hv.ne, if_pos hv]
      exact ih (by omega) (by omega) (by omega) hlen
    · subst h
      rw [if_pos rfl]
    · have hv := hlt hin hmid h
      rw [if_neg hv.ne', if_neg (Nat.lt_asymm hv)]
      exact ih hlo h (by omega) (by omega)

theorem binarySearch_eq (hs : indices.Pairwise (· < ·)) (hi : indices[i]? = some index) :
    binarySearch indices index = some i := by
  have hlt := (List.getElem?_eq_some_iff.mp hi).1
  exact searchBetween_eq hs hi (Nat.zero_le _) hlt (by omega) le_rfl

theorem guardAt_eq {p : Nat → Nat → Prop} (hs : indices.Pairwise (· < ·))
    (hg : List.Forall₂ p indices guards) (hi : index ∈ indices) :
    ∃ guard, Sync.guardAt indices guards index = some guard ∧ guard ∈ guards ∧ p index guard := by
  obtain ⟨n, hn⟩ := List.mem_iff_getElem?.mp hi
  have hlt := (List.getElem?_eq_some_iff.mp hn).1
  have hlt' : n < guards.length := hg.length_eq ▸ hlt
  refine ⟨guards[n], ?_, List.getElem_mem hlt', ?_⟩
  · rw [Sync.guardAt, binarySearch_eq hs hn]
    exact List.getElem?_eq_getElem hlt'
  · have := hg.get hlt hlt'
    obtain ⟨_, hn⟩ := List.getElem?_eq_some_iff.mp hn
    simpa [hn] using this

theorem mem_sortedIndices : i ∈ sortedIndices indices ↔ i ∈ indices := by
  rw [sortedIndices, List.mem_dedup, List.mem_mergeSort]

end Search

section Resolving

theorem Calm.wp_transactionIndices (h : Calm env sp gs ds cs v) (hr : Owns gs .routing)
    (previousCount : Nat) (ops : List (TxnOp K V)) :
    (protocol env L alone).Wp (Sync.transactionIndices env previousCount ops) v fun r v' =>
      r.1 = ops.map (fun op => env.hash op.key % v.st.shardCount) ∧
        r.2 = (if previousCount ≠ 0 then ops.map (fun op => env.hash op.key % previousCount)
          else []) ∧ v' = v := by
  induction ops with
  | nil => exact ⟨rfl, by simp, rfl⟩
  | cons op ops ih =>
    refine Protocol.Wp.bind ((h.wp_shardIndex hr op.key).mono fun index v₁ ⟨hindex, he⟩ => ?_)
    subst he
    refine Protocol.Wp.bind (ih.mono fun r v₂ ⟨h₁, h₂, he⟩ => ?_)
    subst he
    obtain ⟨actives, previous⟩ := r
    dsimp only at h₁ h₂ ⊢
    subst hindex h₁ h₂
    split
    · exact ⟨rfl, rfl, rfl⟩
    · exact ⟨rfl, rfl, rfl⟩

theorem Calm.wp_getOrInitShards (h : Calm env sp gs ds cs v) (hp : Pinned gs)
    (ha : ¬ Owns gs .active) {indices : List Nat} (hi : ∀ i ∈ indices, i < v.st.shardCount) :
    (protocol env L alone).Wp (indices.mapM getOrInitShard) v fun ids v' =>
      Calm env sp gs ds cs v' ∧ Keeps env gs v v' ∧
        List.Forall₂ (fun (i id : Nat) => v'.st.shards[i]? = some (some id)) indices ids := by
  refine Protocol.Wp.mapM (P := protocol env L alone) (I := fun pre ids (w : View K V L.State) =>
    Calm env sp gs ds cs w ∧ Keeps env gs v w ∧
      List.Forall₂ (fun (i id : Nat) => w.st.shards[i]? = some (some id)) pre ids)
    (fun pre i post ids w hpost ⟨hw, kw, hids⟩ => ?_) ⟨h, .refl _, .nil⟩
  have hlt : i < w.st.shardCount := by
    rw [kw.shardCount hp.owns]
    exact hi i (hpost ▸ by simp)
  refine (hw.wp_getOrInitShard hp ha hlt).mono fun id w₁ ⟨hid, h₁, k₁⟩ => ⟨h₁, kw.trans k₁, ?_⟩
  exact List.rel_append (hids.imp fun i id hslot => k₁.slots hp.owns i id hslot) (.cons hid .nil)

theorem wp_resolvePrevious {slots : Option Slots}
    {indices : List Nat} (hi : ∀ i ∈ indices, ∀ l, slots = some l → i < l.length) :
    (protocol env L alone).Wp (Sync.resolvePrevious slots indices) v fun found v' => v' = v ∧
      (∀ x ∈ found, slotAt slots x.1 = some x.2) ∧ (found.map Prod.fst).Sublist indices ∧
      ∀ i ∈ indices, ∀ id, slotAt slots i = some id → (i, id) ∈ found := by
  induction indices with
  | nil => exact ⟨rfl, by simp, .slnil, by simp⟩
  | cons i indices ih =>
    have ih := ih fun j hj => hi j (List.mem_cons_of_mem _ hj)
    cases slots with
    | none =>
      refine ih.mono ?_
      rintro found v₁ ⟨he, h₁, h₂, _⟩
      exact ⟨he, h₁, h₂.cons _, fun j _ id hid => absurd hid (by simp [slotAt])⟩
    | some l =>
      have hlt := hi i List.mem_cons_self l rfl
      have hslot := List.getElem?_eq_getElem hlt
      have hat : slotAt (some l) i = l[i] := by
        simp only [slotAt, Option.bind_some, hslot, Option.join_some]
      unfold Sync.resolvePrevious
      dsimp only
      rw [hslot]
      cases hid : l[i] with
      | none =>
        refine ih.mono ?_
        rintro found v₁ ⟨he, h₁, h₂, h₃⟩
        refine ⟨he, h₁, h₂.cons _, fun j hj id hj' => ?_⟩
        rcases List.mem_cons.mp hj with rfl | hj
        · rw [hat, hid] at hj'
          cases hj'
        · exact h₃ j hj id hj'
      | some shard =>
        refine Protocol.Wp.bind (ih.mono ?_)
        rintro found v₁ ⟨he, h₁, h₂, h₃⟩
        refine ⟨he, fun x hx => ?_, h₂.cons_cons _, fun j hj id hj' => ?_⟩
        · rcases List.mem_cons.mp hx with rfl | hx
          · exact hat.trans hid
          · exact h₁ x hx
        · rcases List.mem_cons.mp hj with rfl | hj
          · rw [hat, hid] at hj'
            cases hj'
            exact List.mem_cons_self
          · exact List.mem_cons_of_mem _ (h₃ j hj id hj')

end Resolving

section Executing

variable {previousCount : Nat} {indices guards : List Nat} {previous : List (Nat × Nat)}
  {c : Contents K V} {P : K → Prop} {touched : Bool}

/-- The shards of a key are locked, and are found where a transaction looks for them. -/
structure Resolved (env : Env K V) (gs : Guards K V) (previousCount : Nat)
    (indices guards : List Nat) (previous : List (Nat × Nat)) (s : State K V L.State) (k : K) :
    Prop where
  active : ∃ id, Sync.guardAt indices guards (env.hash k % s.shardCount) = some id ∧
    s.home env.hash k = some id ∧ OwnsExcl gs (.shard id)
  missing : s.prevHome env.hash k = none → previousCount ≠ 0 →
    previous.find? (·.1 = env.hash k % previousCount) = none
  previous : ∀ src, s.prevHome env.hash k = some src → previousCount ≠ 0 ∧
    (previous.find? (·.1 = env.hash k % previousCount)).map Prod.snd = some src ∧
    OwnsExcl gs (.shard src)

theorem Edit.extend (h : Edit env v₀ gs c P cs touched v)
    (hk : v.st.prevLookup env.hash k = none) :
    Edit env v₀ gs c (fun k' => P k' ∨ k' = k) cs touched v :=
  { h with prev := fun k' hk' => hk'.elim (h.prev k') fun he => he ▸ hk }

theorem wp_promoteLocked (h : Edit env v₀ gs c P cs touched v) (hc : Closed gs) (hp : Pinned gs)
    (hk : Resolved env gs previousCount indices guards previous v₀.st k)
    (hid : v₀.st.home env.hash k = some id) (ho : OwnsExcl gs (.shard id)) :
    (protocol env L alone).Wp (Sync.promoteLocked env previousCount previous id k) v fun _ v' =>
      Edit env v₀ gs c (fun k' => P k' ∨ k' = k) cs touched v' := by
  have hph := h.prevHome k
  cases hsrc : v₀.st.prevHome env.hash k with
  | none =>
    have hnone : v.st.prevLookup env.hash k = none := by
      rw [State.prevLookup, hph, hsrc]
      rfl
    have hskip := hk.missing hsrc
    unfold Sync.promoteLocked
    split
    · next hcount =>
      refine wp_user h.settled ?_
      rw [hskip hcount]
      exact h.extend hnone
    · exact h.extend hnone
  | some src =>
    obtain ⟨hcount, hfind, hsrc'⟩ := hk.previous src hsrc
    have hlookup : v.st.prevLookup env.hash k = (v.st.heap src).lookup k := by
      rw [State.prevLookup, hph, hsrc]
      rfl
    have hown : OwnsExcl v.gs (.shard src) := h.guards ▸ hsrc'
    unfold Sync.promoteLocked
    split
    · refine wp_user h.settled ?_
      split
      · next hnone =>
        rw [hnone] at hfind
        cases hfind
      · next i shard hsome =>
        rw [hsome] at hfind
        obtain rfl : shard = src := by simpa using hfind
        refine wp_quiet rfl (rule_get (.inr hown.owns) ?_)
        cases hfound : (v.st.heap shard).lookup k with
        | none => exact h.extend (hlookup.trans hfound)
        | some x => exact wp_promoteEntry h hc hp ho hsrc' hid hsrc
    · next hidle => exact absurd hcount hidle

theorem wp_transactionOp (h : Edit env v₀ gs c P cs touched v) (hc : Closed gs) (hp : Pinned gs)
    (op : TxnOp K V) (hid : v₀.st.home env.hash op.key = some id) (ho : OwnsExcl gs (.shard id))
    (hP : P op.key) :
    (protocol env L alone).Wp (Sync.transactionOp env id op) v fun _ v' =>
      Edit env v₀ gs (applyOp c op) P (cs ++ txnCounts op (c op.key))
        (touched || Event.touches op (c op.key)) v' := by
  have hlookup := h.lookup ((h.home op.key).trans hid) (h.prev op.key hP)
  have hown : Owns v.gs (.shard id) := h.guards.symm ▸ ho.owns
  cases op with
  | read k =>
    have hlookup : (v.st.heap id).lookup k = c k := hlookup
    refine wp_user h.settled (wp_quiet rfl (rule_get (.inr hown) ?_))
    rw [hlookup]
    refine (wp_recordRead h.settled k (c k).isSome).mono fun _ v₁ ha => ?_
    show Edit env v₀ gs c P (cs ++ readCounts (c k).isSome) (touched || false) v₁
    rw [Bool.or_false]
    exact h.aside (h.guards ▸ ha) fun _ => rfl
  | write k x =>
    refine (wp_insertLocked h hc hp ho hid hP x).mono fun _ v₁ h₁ => ?_
    show Edit env v₀ gs (update c k (some x)) P (cs ++ [Metric.inserts]) (touched || true) v₁
    rw [Bool.or_true]
    exact h₁
  | remove k =>
    have hlookup : (v.st.heap id).lookup k = c k := hlookup
    refine wp_user h.settled (wp_quiet rfl (rule_get (.inr hown) ?_))
    rw [hlookup]
    split
    · next hmiss =>
      have hnone : c k = none := by simpa using hmiss.2
      have hsame : update c k none = c := by
        rw [← hnone, Function.update_eq_self]
      show Edit env v₀ gs (update c k none) P
        (cs ++ if (c k).isSome then [Metric.removes] else []) (touched || (c k).isSome) v
      rw [hsame, hnone, Option.isSome_none, Bool.or_false, if_neg Bool.false_ne_true,
        List.append_nil]
      exact h
    · exact wp_removeLocked h hc hp ho hid hP

/-- The operations in their order, while every shard they need stays locked. -/
theorem wp_executeOps (hc : Closed gs) (hp : Pinned gs) {ops : List (TxnOp K V)}
    (hops : ∀ op ∈ ops, Resolved env gs previousCount indices guards previous v₀.st op.key)
    (h : Edit env v₀ gs c P cs touched v) :
    (protocol env L alone).Wp (Sync.executeOps env previousCount indices guards previous ops) v
      fun _ v' => ∃ P, Edit env v₀ gs (applyOps c ops) P
        (cs ++ (ops.zip (foundBy c ops)).flatMap fun e => txnCounts e.1 e.2)
        (touched || (ops.zip (foundBy c ops)).any fun e => Event.touches e.1 e.2) v' := by
  induction ops generalizing v c P cs touched with
  | nil =>
    refine ⟨P, ?_⟩
    simpa [foundBy, applyOps] using h
  | cons op ops ih =>
    obtain ⟨id, hguard, hid, ho⟩ := (hops op List.mem_cons_self).active
    refine Protocol.Wp.bind ((wp_shardIndex h.settled (h.guards.symm ▸ hp.owns) op.key).mono ?_)
    rintro index v₁ ⟨hindex, he⟩
    subst he hindex
    rw [h.shardCount, hguard]
    refine Protocol.Wp.bind ((wp_promoteLocked h hc hp (hops op List.mem_cons_self) hid ho).mono
      fun _ v₂ h₂ => ?_)
    refine Protocol.Wp.bind ((wp_transactionOp h₂ hc hp op hid ho (.inr rfl)).mono
      fun _ v₃ h₃ => ?_)
    refine (ih (fun op' hop' => hops op' (List.mem_cons_of_mem _ hop')) h₃).mono ?_
    rintro _ v₄ ⟨P', h₄⟩
    refine ⟨P', ?_⟩
    simpa [foundBy, applyOps, List.append_assoc, Bool.or_assoc] using h₄

end Executing

section Layout

variable {s : State K V L.State} {indices ids : List Nat} {found : List (Nat × Nat)}

theorem related_left {β γ : Type} {R : β → γ → Prop} {xs : List β} {ys : List γ}
    (h : List.Forall₂ R xs ys) : ∀ y ∈ ys, ∃ x, R x y := by
  induction h with
  | nil => simp
  | cons hxy _ ih =>
    intro y hy
    rcases List.mem_cons.mp hy with rfl | hy
    · exact ⟨_, hxy⟩
    · exact ih y hy

theorem State.WellFormed.nodup_active (hw : s.WellFormed env.hash) (hi : indices.Nodup)
    (h : List.Forall₂ (fun (i id : Nat) => s.shards[i]? = some (some id)) indices ids) :
    ids.Nodup :=
  (List.rel_nodup (r := fun (i id : Nat) => s.shards[i]? = some (some id))
    ⟨fun _ _ _ hi hj => slot_unique (List.nodup_append'.mp hw.nodup).1 hi hj,
    fun _ _ _ hi hj => Option.some.inj (Option.some.inj (hi.symm.trans hj))⟩ h).mp hi

theorem State.WellFormed.nodup_previous (hw : s.WellFormed env.hash)
    (hi : (found.map Prod.fst).Nodup) (h : ∀ x ∈ found, slotAt s.previous x.1 = some x.2) :
    (found.map Prod.snd).Nodup := by
  refine List.Nodup.map_on (fun x hx y hy he => ?_) (hi.of_map _)
  have hx' := h x hx
  have hy' := h y hy
  obtain ⟨slots, hs, hxs⟩ := slotAt_eq_some.mp hx'
  have hys : slots[y.1]? = some (some y.2) := by
    obtain ⟨slots', hs', hys⟩ := slotAt_eq_some.mp hy'
    obtain rfl : slots = slots' := Option.some.inj (hs.symm.trans hs')
    exact hys
  have hn := (List.nodup_append'.mp hw.nodup).2.1
  rw [hs] at hn
  exact Prod.ext (slot_unique hn hxs (he ▸ hys)) he

/-- Every key of a transaction finds the shards it needs among the locked ones. -/
theorem State.WellFormed.resolved (hw : s.WellFormed env.hash) (hsort : indices.Pairwise (· < ·))
    (hids : List.Forall₂ (fun (i id : Nat) => s.shards[i]? = some (some id)) indices ids)
    (hfound : ∀ x ∈ found, slotAt s.previous x.1 = some x.2) (gs : Guards K V)
    (hactive : ∀ id ∈ ids, OwnsExcl gs (.shard id))
    (hprevious : ∀ x ∈ found, OwnsExcl gs (.shard x.2))
    (hk : env.hash k % s.shardCount ∈ indices)
    (hkp : s.previousShardCount ≠ 0 → ∀ id,
      slotAt s.previous (env.hash k % s.previousShardCount) = some id →
      (env.hash k % s.previousShardCount, id) ∈ found) :
    Resolved env gs s.previousShardCount indices ids found s k where
  active := by
    obtain ⟨id, hguard, hid, hslot⟩ := guardAt_eq hsort hids hk
    exact ⟨id, hguard, State.home_eq_some.mpr hslot, hactive id hid⟩
  missing hnone _ := by
    rw [List.find?_eq_none]
    intro x hx hi
    have hx' := hfound x hx
    rw [of_decide_eq_true hi] at hx'
    have hnone : slotAt s.previous (env.hash k % s.previousShardCount) = none := hnone
    rw [hnone] at hx'
    cases hx'
  previous src hsrc := by
    have hsrc : slotAt s.previous (env.hash k % s.previousShardCount) = some src := hsrc
    have hcount : s.previousShardCount ≠ 0 := fun hz => by
      rw [hw.previous_none.mpr hz] at hsrc
      cases hsrc
    have hmem := hkp hcount src hsrc
    refine ⟨hcount, ?_, hprevious _ hmem⟩
    cases hfind : found.find? (·.1 = env.hash k % s.previousShardCount) with
    | none =>
      have := List.find?_eq_none.mp hfind _ hmem
      simp at this
    | some x =>
      have hx := hfound x (List.mem_of_find?_eq_some hfind)
      have hi : x.1 = env.hash k % s.previousShardCount := by simpa using List.find?_some hfind
      rw [hi, hsrc] at hx
      exact hx.symm

end Layout

section Transaction

variable {ops : List (TxnOp K V)}

/-- The event of a transaction, and the counters it advances. -/
def Transacted (env : Env K V) (sp : List (Event K V) → Prop) (ds : List (Event K V))
    (cs : List Metric) (ops : List (TxnOp K V)) (v : View K V L.State) : Prop :=
  ∃ found, Maintained env sp [] (ds ++ [Event.transact ops found])
    (cs ++ (ops.zip found).flatMap fun e => txnCounts e.1 e.2) v

omit [DecidableEq K] in
/-- The end of a transaction always has a lock to release. -/
theorem transaction_ends (env : Env K V) (xs ys : List Nat) {β : Type} (result : β) :
    ∃ a f, (do
      Sync.unlockAll xs
      Sync.unlockAll ys
      Sync.leave env result : Prog K V β) = .step a f := by
  cases xs with
  | cons x xs => exact ⟨_, _, rfl⟩
  | nil =>
    cases ys with
    | cons y ys => exact ⟨_, _, rfl⟩
    | nil => exact ⟨_, _, rfl⟩

/-- With every shard locked, the operations are executed, committed and released. -/
theorem Calm.wp_locked (xs ys : List Nat) (hx : xs.Nodup) (hy : ys.Nodup)
    (h : Calm env sp (shardGuards .excl xs (shardGuards .excl ys (routed .shared))) ds cs v)
    (hsp : ∀ found, Lenient env sp (ds ++ [Event.transact ops found])) {previousCount : Nat}
    {indices guards : List Nat} {previous : List (Nat × Nat)}
    (hops : ∀ op ∈ ops, Resolved env (shardGuards .excl xs (shardGuards .excl ys
      (routed .shared))) previousCount indices guards previous v.st op.key) :
    (protocol env L alone).Wp (do
      Sync.executeOps env previousCount indices guards previous ops
      Sync.unlockAll xs
      Sync.unlockAll ys
      Sync.leave env TransactionResult.committed) v fun r v' => r = .committed ∧
        Transacted env sp ds cs ops v' := by
  have hp : Pinned (shardGuards .excl xs (shardGuards .excl ys (routed (K := K) (V := V) .shared))) :=
    mem_shardGuards.mpr (.inr (mem_shardGuards.mpr (.inr List.mem_cons_self)))
  have hstart := Edit.start h.settled (h.guards.symm ▸ h.closed)
  rw [h.guards] at hstart
  refine Protocol.Wp.bind ((wp_executeOps h.closed hp hops hstart).mono ?_)
  rintro _ v₁ ⟨P, e₁⟩
  obtain ⟨a, f, hprog⟩ := transaction_ends env xs ys TransactionResult.committed
  rw [hprog]
  refine Protocol.Shift.wp (h.commit hp e₁ (by simp [Event.isData]) (fun e he k hk => ?_)
    (show Event.effects [Event.transact ops _] _ _ from ⟨_, ⟨rfl, rfl⟩, rfl⟩)
    (fun ht => ⟨_, List.mem_singleton_self _, ?_⟩)
    (by simpa using hsp _ [] ⟨fun _ => rfl, by simp⟩) fun v₂ h₂ _ => ?_)
  · rw [List.mem_singleton.mp he] at hk
    obtain ⟨op, hop, rfl⟩ := hk
    obtain ⟨id, -, hid, ho⟩ := (hops op hop).active
    exact .inr ⟨hp, by rw [hid]; exact ho.owns⟩
  · simpa [Event.changes] using ht
  · rw [← hprog]
    refine Protocol.Wp.bind ((h₂.wp_unlockAll hx).mono ?_)
    rintro _ v₃ ⟨h₃, _⟩
    refine Protocol.Wp.bind ((h₃.wp_unlockAll hy).mono ?_)
    rintro _ v₄ ⟨h₄, _⟩
    refine (h₄.wp_leave (hsp _) _).mono ?_
    rintro r v₅ ⟨hr, h₅⟩
    exact ⟨hr, foundBy (v.st.contents env.hash) ops, h₅⟩

/-- All operations take effect in one step, between the locks and the releases. -/
theorem Calm.wp_executeTransaction (h : Calm env sp [] ds cs v)
    (hsp : ∀ found, Lenient env sp (ds ++ [Event.transact ops found])) :
    (protocol env L alone).Wp (Sync.executeTransaction env ops) v fun r v' => r = .committed ∧
      Transacted env sp ds cs ops v' := by
  refine h.wp_enter fun v₁ h₁ => ?_
  have hp : Pinned (routed (K := K) (V := V) .shared) := List.mem_cons_self
  refine wp_quiet rfl (rule_previousShardCount (h₁.owns hp.owns) ?_)
  have hw₁ := h₁.wellFormed hp.owns
  refine Protocol.Wp.bind ((h₁.wp_transactionIndices hp.owns _ ops).mono
    fun r v₂ ⟨hactives, hprevious, he⟩ => ?_)
  subst he
  obtain ⟨actives, previous⟩ := r
  dsimp only at hactives hprevious ⊢
  refine Protocol.Wp.bind ((h₁.wp_getOrInitShards hp (routed_free _ _ rfl) fun i hi => ?_).mono
    fun ids v₃ ⟨h₃, k₃, hids⟩ => ?_)
  · rw [mem_sortedIndices, hactives] at hi
    obtain ⟨op, -, rfl⟩ := List.mem_map.mp hi
    exact Nat.mod_lt _ hw₁.count_pos
  refine wp_lock_calm h₃ (fun _ => hp.owns) (free_of_not_owns (routed_free _ _ rfl))
    (fun he => by cases he) (fun _ he => by cases he) fun v₄ h₄ k₄ _ => ?_
  have hp₄ : Pinned (.lock .previous .shared :: routed (K := K) (V := V) .shared) :=
    List.mem_cons_of_mem _ hp
  refine wp_quiet rfl (rule_previous (h₄.owns hp₄.owns) ?_)
  have k₅ : Keeps env (routed .shared) v₃ v₄ := k₄
  have k₄ : Keeps env (routed .shared) v₂ v₄ := k₃.trans k₄
  have hw₄ := h₄.wellFormed hp₄.owns
  refine Protocol.Wp.bind ((wp_resolvePrevious fun i hi slots hslots => ?_).mono
    fun found v₅ ⟨he, hfound, hsub, hcomplete⟩ => ?_)
  · rw [mem_sortedIndices, hprevious] at hi
    rw [hw₄.previous_length slots hslots, k₄.previousShardCount hp.owns]
    split at hi
    · next hcount =>
      obtain ⟨op, -, rfl⟩ := List.mem_map.mp hi
      exact Nat.mod_lt _ (Nat.pos_of_ne_zero hcount)
    · cases hi
  subst he
  refine wp_unlock_calm h₄ (fun he => by cases he) fun v₆ h₆ w₆ _ => ?_
  rw [without_lock] at h₆
  have hst₆ : v₆.st = v₅.st := congrArg World.st w₆
  have hw₆ := h₆.wellFormed hp.owns
  have hids₆ : List.Forall₂ (fun (i id : Nat) => v₆.st.shards[i]? = some (some id))
      (sortedIndices actives) ids :=
    hids.imp fun i id hslot => hst₆ ▸ k₅.slots hp.owns i id hslot
  have hfound₆ : ∀ x ∈ found, slotAt v₆.st.previous x.1 = some x.2 := hst₆ ▸ hfound
  have hsorted := Locking.sortedIndices_pairwise actives
  have hnodup := hw₆.nodup_active (hsorted.imp Nat.ne_of_lt) hids₆
  have hnodup' := hw₆.nodup_previous
    (((Locking.sortedIndices_pairwise previous).imp Nat.ne_of_lt).sublist hsub) hfound₆
  refine Protocol.Wp.bind (Protocol.Wp.bind ((h₆.wp_lockShards hp.owns hnodup
    (fun id _ => routed_free _ _ rfl) fun id hid =>
      State.mem_live.mpr (.inl (related_left hids₆ id hid))).mono fun _ v₇ ⟨h₇, k₇, _⟩ => ?_))
  have hr₇ : Owns (shardGuards .excl ids (routed (K := K) (V := V) .shared)) .routing :=
    owns_shardGuards.mpr (.inr hp.owns)
  have hlive : ∀ id ∈ found.map Prod.snd, id ∈ v₆.st.live := fun id hid => by
    obtain ⟨x, hx, rfl⟩ := List.mem_map.mp hid
    exact State.mem_live.mpr (.inr ⟨_, hfound₆ x hx⟩)
  have hdisjoint : ∀ id ∈ found.map Prod.snd,
      ¬ Owns (shardGuards .excl ids (routed (K := K) (V := V) .shared)) (.shard id) := by
    intro id hid ho
    obtain ⟨x, hx, rfl⟩ := List.mem_map.mp hid
    rcases owns_shardGuards.mp ho with ⟨j, hj, he⟩ | ho
    · obtain ⟨i, hi⟩ := related_left hids₆ j hj
      exact hw₆.active_ne_previous hi (LockId.shard.inj he ▸ hfound₆ x hx)
    · exact routed_free _ _ rfl ho
  refine Protocol.Wp.bind (Protocol.Wp.bind ((h₇.wp_lockShards hr₇ hnodup' hdisjoint
    fun id hid => Agree.live k₇ hp.owns (hlive id hid)).mono fun _ v₈ ⟨h₈, k₈, _⟩ => ?_))
  have k₈ : Keeps env (routed .shared) v₅ v₈ := (Keeps.of_eq w₆).trans
    (k₇.trans (k₈.mono fun l m hm => mem_shardGuards.mpr (.inr hm)))
  have hcount : v₈.st.previousShardCount = v₂.st.previousShardCount :=
    (k₈.previousShardCount hp.owns).trans (k₄.previousShardCount hp.owns)
  have hshards : v₈.st.shardCount = v₂.st.shardCount :=
    (k₈.shardCount hp.owns).trans (k₄.shardCount hp.owns)
  refine h₈.wp_locked _ _ hnodup' hnodup hsp fun op hop => ?_
  have hres := (h₈.wellFormed (owns_shardGuards.mpr (.inr hr₇))).resolved (k := op.key) hsorted
    (hids.imp fun i id hslot => k₈.slots hp.owns i id (k₅.slots hp.owns i id hslot))
    (show ∀ x ∈ found, slotAt v₈.st.previous x.1 = some x.2 from
      fun x hx => (k₈.previous hp.owns).symm ▸ hfound x hx)
    (shardGuards .excl (found.map Prod.snd) (shardGuards .excl ids (routed .shared)))
    (fun id hid => mem_shardGuards.mpr (.inr (mem_shardGuards.mpr (.inl ⟨id, hid, rfl⟩))))
    (fun x hx => mem_shardGuards.mpr (.inl ⟨x.2, List.mem_map_of_mem hx, rfl⟩)) ?_ ?_
  · rwa [hcount] at hres
  · rw [mem_sortedIndices, hactives, hshards]
    exact List.mem_map_of_mem hop
  · intro hne id hid
    rw [hcount] at hne hid ⊢
    rw [k₈.previous hp.owns] at hid
    refine hcomplete _ ?_ id hid
    rw [mem_sortedIndices, hprevious, if_pos hne]
    exact List.mem_map_of_mem hop

end Transaction

end Starshard
