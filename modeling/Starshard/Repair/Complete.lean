import Starshard.Data.Grouping
import Starshard.Repair.Machine
import Starshard.Retirement.Once

/-! A reconciliation publishes complete metadata or leaves the old one in place. -/
namespace Starshard.Repair

open Data Retirement

variable {K : Type}

def Metadata.others (hash : UInt64) (m : Metadata K) : List (Entry K) :=
  (Assoc.items (m.buckets.erase hash)).flatMap Prod.snd

theorem contents_of_insert {m m' : Metadata K} {hash : UInt64} {l : List (Entry K)}
    (h : m'.buckets = m.buckets.insert hash l) : m'.contents = l ++ m.others hash := by
  unfold Metadata.contents Metadata.others
  rw [h, Assoc.items_insert, List.flatMap_cons]

theorem contents_perm_bucket (hash : UInt64) (m : Metadata K) :
    m.contents.Perm (m.bucket hash ++ m.others hash) := by
  unfold Metadata.contents Metadata.bucket Metadata.others
  cases h : m.buckets.lookup hash with
  | none => rw [Assoc.erase_of_lookup_none h]; exact .refl _
  | some l => exact (Assoc.items_erase h).flatMap_right _

theorem contents_push (hash : UInt64) (x : Entry K) (m : Metadata K) :
    (m.push hash x).contents.Perm (m.contents ++ [x]) := by
  have hpush : (m.push hash x).contents = m.bucket hash ++ [x] ++ m.others hash :=
    contents_of_insert rfl
  rw [hpush, List.append_assoc]
  refine List.Perm.trans ?_ ((contents_perm_bucket hash m).append_right [x]).symm
  rw [List.append_assoc]
  exact List.Perm.append_left _ List.perm_append_comm

theorem Metadata.mem_contents {m : Metadata K} {x : Entry K} :
    x ∈ m.contents ↔ ∃ hash l, m.buckets.lookup hash = some l ∧ x ∈ l := by
  unfold Metadata.contents
  rw [List.mem_flatMap]
  constructor
  · intro ⟨⟨hash, l⟩, hm, hx⟩
    exact ⟨hash, l, Assoc.mem_items.mp hm, hx⟩
  · intro ⟨hash, l, hl, hx⟩
    exact ⟨(hash, l), Assoc.mem_items.mpr hl, hx⟩

/-- Every entry of a bucket has the hash of the bucket, in the stripe of the hash. -/
def Indexed (fx : K → UInt64) (i : Stripe) (m : Metadata K) : Prop :=
  ∀ hash l, m.buckets.lookup hash = some l → ∀ x ∈ l, fx x.key.key = hash ∧ stripeOf hash = i

theorem indexed_push {fx : K → UInt64} {i : Stripe} {m : Metadata K} (h : Indexed fx i m)
    {x : Entry K} (hi : stripeOf (fx x.key.key) = i) : Indexed fx i (m.push (fx x.key.key) x) := by
  intro hash l hl y hy
  change (m.buckets.insert (fx x.key.key) _).lookup hash = some l at hl
  by_cases hh : hash = fx x.key.key
  · subst hh
    rw [AList.lookup_insert] at hl
    cases hl
    rcases List.mem_append.mp hy with hy | hy
    · unfold Metadata.bucket at hy
      cases hb : m.buckets.lookup (fx x.key.key) with
      | none =>
        rw [hb] at hy
        cases hy
      | some l =>
        rw [hb] at hy
        exact h _ l hb y hy
    · rw [List.mem_singleton.mp hy]
      exact ⟨rfl, hi⟩
  · rw [AList.lookup_insert_ne hh] at hl
    exact h hash l hl y hy

def Engine.contents (e : Engine K) : List (Entry K) :=
  (List.finRange Retirement.stripes).flatMap fun i => (e.stripes i).contents

def totalMarks (marks : Nat → Nat) (n : Nat) : Nat := ((List.range n).map marks).sum

theorem totalMarks_succ (marks : Nat → Nat) (n : Nat) :
    totalMarks marks (n + 1) = totalMarks marks n + marks n := by
  simp [totalMarks, List.range_succ]

theorem Engine.marked_marked (e : Engine K) (a b : Nat) :
    (e.marked a).marked b = e.marked (a + b) := by
  simp [Engine.marked, UInt64.ofNat_add, UInt64.add_assoc]

@[simp] theorem rebuilt_key (key : Handle K) (weight : Nat) (stamp : UInt64)
    (old : Option (Entry K)) : (rebuilt key weight stamp old).key = key := by
  cases old <;> rfl

@[simp] theorem rebuilt_weight (key : Handle K) (weight : Nat) (stamp : UInt64)
    (old : Option (Entry K)) : (rebuilt key weight stamp old).weight = weight := by
  cases old <;> rfl

variable [DecidableEq K] {fx : K → UInt64}

def Engine.find? (fx : K → UInt64) (k : K) (e : Engine K) : Option (Entry K) :=
  ((e.stripes (stripeOf (fx k))).bucket (fx k)).find? fun x => decide (x.key.key = k)

theorem findEntry_run (panics : Nat → Bool) (k : K) (e : Engine K) (l : List (Entry K)) :
    ∀ n, (findEntry panics k n l).run e = (.ok (l.find? fun x => decide (x.key.key = k)), e) ∨
      (findEntry panics k n l).run e = (.error .user, e) ∧ ∃ j, panics j = true := by
  induction l with
  | nil => exact fun n => .inl rfl
  | cons x xs ih =>
    intro n
    unfold findEntry
    cases hp : panics n with
    | true => exact .inr ⟨rfl, n, hp⟩
    | false =>
      by_cases hx : x.key.key = k
      · left
        simp [hx]
        rfl
      · simpa [hx] using ih (n + 1)

/-- What an interrupted reconciliation changed: the sequence, and what tickets marked. -/
def Aside (e e' : Engine K) (marked : Nat) : Prop :=
  ∃ sequence, e' = { e.marked marked with sequence := sequence }

/-- A rebuilt entry goes on where the old one of its key stands. -/
def Continues (fx : K → UInt64) (e : Engine K) (x : Entry K) : Prop :=
  match e.find? fx x.key.key with
  | none => x.inserted = x.incarnation ∧ x.accessed = x.incarnation ∧ x.frequency = 1
  | some old => x.inserted = old.inserted ∧ x.accessed = old.accessed ∧
      x.frequency = old.frequency

/-- An entry in the bucket of its hash is the one found, when no other has its key. -/
theorem find?_of_mem {e : Engine K} (hi : ∀ i, Indexed fx i (e.stripes i))
    (hd : (e.contents.map fun x => x.key.key).Nodup) {old : Entry K} (ho : old ∈ e.contents) :
    e.find? fx old.key.key = some old := by
  obtain ⟨i, _, hold⟩ := List.mem_flatMap.mp ho
  obtain ⟨hash, l, hl, hmem⟩ := Metadata.mem_contents.mp hold
  obtain ⟨rfl, rfl⟩ := hi i hash l hl old hmem
  have hbucket : (e.stripes (stripeOf (fx old.key.key))).bucket (fx old.key.key) = l := by
    unfold Metadata.bucket
    rw [hl]
    rfl
  unfold Engine.find?
  rw [hbucket]
  cases hf : l.find? fun x => decide (x.key.key = old.key.key) with
  | none =>
    have := List.find?_eq_none.mp hf old hmem
    simp at this
  | some x =>
    have hkey : x.key.key = old.key.key := by simpa using List.find?_some hf
    have hx : x ∈ e.contents := List.mem_flatMap.mpr
      ⟨_, List.mem_finRange _, Metadata.mem_contents.mpr ⟨_, l, hl, List.mem_of_find?_eq_some hf⟩⟩
    rw [List.inj_on_of_nodup_map hd hx ho hkey]

theorem Continues.kept {e : Engine K} {x old : Entry K} (h : Continues fx e x)
    (hi : ∀ i, Indexed fx i (e.stripes i)) (hd : (e.contents.map fun x => x.key.key).Nodup)
    (ho : old ∈ e.contents) (hk : old.key.key = x.key.key) :
    x.inserted = old.inserted ∧ x.accessed = old.accessed ∧ x.frequency = old.frequency := by
  unfold Continues at h
  rw [← hk, find?_of_mem hi hd ho] at h
  exact h

theorem continues_rebuilt (e : Engine K) (key : Handle K) (weight : Nat) (stamp : UInt64) :
    Continues fx e (rebuilt key weight stamp (e.find? fx key.key)) := by
  unfold Continues
  rw [rebuilt_key]
  cases h : e.find? fx key.key with
  | none => exact ⟨rfl, rfl, rfl⟩
  | some old => exact ⟨rfl, rfl, rfl⟩

/-- The invariant of the staging, after the items `pre`. -/
structure Staging (fx : K → UInt64) (e₀ : Engine K) (marks : Nat → Nat)
    (pre : List ((Handle K × Nat) × Nat)) (staged : Stripe → Metadata K) (e : Engine K) : Prop where
  aside : Aside e₀ e (totalMarks marks pre.length)
  built : ∃ built : List (Entry K), built.map (fun x => (x.key, x.weight)) = pre.map Prod.fst ∧
    (∀ x ∈ built, Continues fx e₀ x) ∧
    ∀ i, (staged i).contents.Perm (built.filter fun x => stripeOf (fx x.key.key) = i)
  weight : ∀ i, (staged i).weight = ((staged i).contents.map Entry.weight).sum
  retired : ∀ i, (staged i).retired = []
  indexed : ∀ i, Indexed fx i (staged i)

theorem find?_aside {e e' : Engine K} {n : Nat} (h : Aside e e' n) (k : K) :
    e'.find? fx k = e.find? fx k := by
  obtain ⟨sequence, rfl⟩ := h
  rfl

theorem Staging.snoc {e₀ e e' : Engine K} {marks : Nat → Nat}
    {pre : List ((Handle K × Nat) × Nat)} {staged : Stripe → Metadata K}
    (h : Staging fx e₀ marks pre staged e) (item : (Handle K × Nat) × Nat) {x : Entry K}
    (hx : (x.key, x.weight) = item.1) (hc : Continues fx e₀ x)
    (ha : Aside e₀ e' (totalMarks marks (pre.length + 1))) :
    Staging fx e₀ marks (pre ++ [item])
      (Function.update staged (stripeOf (fx x.key.key))
        ((staged (stripeOf (fx x.key.key))).push (fx x.key.key) x)) e' where
  aside := by
    rw [List.length_append]
    exact ha
  built := by
    obtain ⟨built, hlisted, hcont, hperm⟩ := h.built
    refine ⟨built ++ [x], ?_, fun y hy => ?_, ?_⟩
    · rw [List.map_append, List.map_append, hlisted, List.map_singleton, List.map_singleton, hx]
    · rcases List.mem_append.mp hy with hy | hy
      · exact hcont y hy
      · rwa [List.mem_singleton.mp hy]
    · rw [Function.forall_update_iff staged (p := fun i m =>
        m.contents.Perm ((built ++ [x]).filter fun x => stripeOf (fx x.key.key) = i))]
      refine ⟨?_, fun i hi => ?_⟩
      · rw [List.filter_append, List.filter_singleton]
        simp only [decide_true, cond_true]
        exact (contents_push _ _ _).trans ((hperm _).append_right _)
      · rw [List.filter_append, List.filter_singleton]
        simp only [Ne.symm hi, decide_false, cond_false, List.append_nil]
        exact hperm i
  weight := by
    rw [Function.forall_update_iff staged (p := fun _ m =>
      m.weight = (m.contents.map Entry.weight).sum)]
    refine ⟨?_, fun i _ => h.weight i⟩
    rw [((contents_push _ _ _).map Entry.weight).sum_nat, List.map_append, List.sum_append,
      ← h.weight]
    simp [Metadata.push]
  retired := by
    rw [Function.forall_update_iff staged (p := fun _ m => m.retired = [])]
    exact ⟨h.retired _, fun i _ => h.retired i⟩
  indexed := by
    rw [Function.forall_update_iff staged (p := fun i m => Indexed fx i m)]
    exact ⟨indexed_push (h.indexed _) rfl, fun i _ => h.indexed i⟩

/-- The engine after the tickets dropped before an item, and after its stamp. -/
def Engine.stamped (n : Nat) (e : Engine K) : Engine K :=
  { e.marked n with sequence := e.sequence + 1 }

theorem stageItem_panics (panics : Nat → Nat → Bool) (marks : Nat → Nat)
    (staged : Stripe → Metadata K) (item : (Handle K × Nat) × Nat) (e : Engine K)
    (h : panics item.2 0 = true) : ExceptT.run (stageItem fx panics marks staged item) e =
      (.error .user, e.marked (marks item.2)) := by
  unfold stageItem
  rw [if_pos h]
  rfl

theorem stageItem_eq (panics : Nat → Nat → Bool) (marks : Nat → Nat)
    (staged : Stripe → Metadata K) (item : (Handle K × Nat) × Nat) (e : Engine K)
    (h : panics item.2 0 = false) : ExceptT.run (stageItem fx panics marks staged item) e =
      match ExceptT.run (findEntry (fun j => panics item.2 (j + 1)) item.1.1.key 0
          ((e.stripes (stripeOf (fx item.1.1.key))).bucket (fx item.1.1.key)))
          (e.stamped (marks item.2)) with
      | (.ok old, e') => (.ok (Function.update staged (stripeOf (fx item.1.1.key))
          ((staged (stripeOf (fx item.1.1.key))).push (fx item.1.1.key)
            (rebuilt item.1.1 item.1.2 e.sequence old))), e')
      | (.error err, e') => (.error err, e') := by
  have hmark : ExceptT.run (modify (·.marked (marks item.2)) : Program K PUnit) e =
      (.ok ⟨⟩, e.marked (marks item.2)) := rfl
  have hstamp : ExceptT.run (stamp : Program K UInt64) (e.marked (marks item.2)) =
      (.ok e.sequence, e.stamped (marks item.2)) := rfl
  have hget : ExceptT.run (get : Program K (Engine K)) (e.stamped (marks item.2)) =
      (.ok (e.stamped (marks item.2)), e.stamped (marks item.2)) := rfl
  have hpass : ¬ panics item.2 0 = true := by simp [h]
  unfold stageItem
  rw [Failing.run_bind_ok hmark, if_neg hpass]
  dsimp only
  rw [Failing.run_bind_ok hstamp, Failing.run_bind_ok hget, Failing.run_bind]
  have hstripes : (e.stamped (marks item.2)).stripes = e.stripes := rfl
  rw [hstripes]
  rcases ExceptT.run (findEntry (fun j => panics item.2 (j + 1)) item.1.1.key 0
    ((e.stripes (stripeOf (fx item.1.1.key))).bucket (fx item.1.1.key)))
    (e.stamped (marks item.2)) with ⟨old, e'⟩
  cases old <;> rfl

/-- One item is staged, or user code unwinds and only the sequence moved. -/
theorem stageItem_run {e₀ : Engine K} (panics : Nat → Nat → Bool) (marks : Nat → Nat)
    {pre : List ((Handle K × Nat) × Nat)} {staged : Stripe → Metadata K} {e : Engine K}
    (h : Staging fx e₀ marks pre staged e) {item : (Handle K × Nat) × Nat}
    (hn : item.2 = pre.length) :
    (∃ staged' e', ExceptT.run (stageItem fx panics marks staged item) e = (.ok staged', e') ∧
        Staging fx e₀ marks (pre ++ [item]) staged' e') ∨
      ∃ err e', ExceptT.run (stageItem fx panics marks staged item) e = (.error err, e') ∧
        (∃ n, Aside e₀ e' (totalMarks marks n)) ∧ ∃ n j, panics n j = true := by
  obtain ⟨q, hq⟩ := h.aside
  have hmarked : Aside e₀ (e.marked (marks item.2)) (totalMarks marks (pre.length + 1)) := by
    refine ⟨q, ?_⟩
    rw [totalMarks_succ, ← Engine.marked_marked, hn, hq]
    rfl
  have hstamped : Aside e₀ (e.stamped (marks item.2)) (totalMarks marks (pre.length + 1)) := by
    obtain ⟨q', hq'⟩ := hmarked
    refine ⟨e.sequence + 1, ?_⟩
    unfold Engine.stamped
    rw [hq']
  cases hp : panics item.2 0 with
  | true =>
    exact .inr ⟨_, _, stageItem_panics panics marks staged item e hp, ⟨_, hmarked⟩, _, _, hp⟩
  | false =>
    rw [stageItem_eq panics marks staged item e hp]
    rcases findEntry_run (fun j => panics item.2 (j + 1)) item.1.1.key (e.stamped (marks item.2))
      ((e.stripes (stripeOf (fx item.1.1.key))).bucket (fx item.1.1.key)) 0 with
      hrun | ⟨hrun, j, hj⟩
    · have hfind : ((e.stripes (stripeOf (fx item.1.1.key))).bucket (fx item.1.1.key)).find?
          (fun x => decide (x.key.key = item.1.1.key)) = e₀.find? fx item.1.1.key := by
        rw [← find?_aside h.aside]
        rfl
      rw [hrun, hfind]
      have hnext := h.snoc item (Prod.ext (rebuilt_key _ _ _ _) (rebuilt_weight _ _ _ _))
        (continues_rebuilt e₀ item.1.1 item.1.2 e.sequence) hstamped
      rw [rebuilt_key] at hnext
      exact .inl ⟨_, _, rfl, hnext⟩
    · rw [hrun]
      exact .inr ⟨_, _, rfl, ⟨_, hstamped⟩, _, _, hj⟩

section Publication

def replaced (staged : Stripe → Metadata K) (e : Engine K) (i : Stripe) : Metadata K :=
  { staged i with
    retired := (staged i).retired ++ (e.stripes i).retired ++
      (e.stripes i).contents.map Entry.key }

omit [DecidableEq K] in
theorem getLsbD_mark (mask : BitVec 64) (a i : Stripe) (skip : Bool) :
    (if skip then mask else mask ||| bit a).getLsbD i =
      (mask.getLsbD i || (!skip && decide (i = a))) := by
  cases skip with
  | true => rw [if_pos rfl, Bool.not_true, Bool.false_and, Bool.or_false]
  | false =>
    rw [if_neg Bool.false_ne_true, BitVec.getLsbD_or, getLsbD_bit, Bool.not_false, Bool.true_and]

omit [DecidableEq K] in
/-- All stripes are replaced, and the mask names those with retired keys. -/
theorem publish_run (staged : Stripe → Metadata K) (e : Engine K) : ∃ mask : BitVec 64,
    ExceptT.run ((List.finRange stripes).foldlM (publishStripe staged) 0#64) e =
      (.ok mask, { e with stripes := replaced staged e }) ∧
    ∀ i : Stripe, mask.getLsbD i = !(replaced staged e i).retired.isEmpty := by
  let inv : List Stripe → BitVec 64 → Engine K → Prop := fun pre mask e' =>
    e' = { e with stripes := fun i => if i ∈ pre then replaced staged e i else e.stripes i } ∧
      ∀ i : Stripe, mask.getLsbD i = (decide (i ∈ pre) && !(replaced staged e i).retired.isEmpty)
  have hnil : inv [] 0#64 e := ⟨by simp, fun i => by simp⟩
  have hstep : ∀ pre a post mask s, List.finRange stripes = pre ++ a :: post → inv pre mask s →
      (∃ mask' s', ExceptT.run (publishStripe staged mask a) s = (.ok mask', s') ∧
        inv (pre ++ [a]) mask' s') ∨
      ∃ err s', ExceptT.run (publishStripe staged mask a) s = (.error err, s') ∧ False := by
    rintro pre a post mask s hall ⟨hs, hmask⟩
    have hfresh : a ∉ pre := by
      have hn := List.nodup_finRange stripes
      rw [hall, List.nodup_append] at hn
      exact fun ha => hn.2.2 a ha a List.mem_cons_self rfl
    have hguard : s.stripes a = e.stripes a := by
      rw [hs]
      exact if_neg hfresh
    refine .inl ⟨if (replaced staged e a).retired.isEmpty then mask else mask ||| bit a,
      { s with stripes := Function.update s.stripes a (replaced staged e a) }, ?_, ?_, fun i => ?_⟩
    · unfold replaced
      rw [← hguard]
      rfl
    · rw [hs]
      congr 1
      funext i
      by_cases hi : i = a
      · subst hi
        simp
      · simp [hi]
    · rw [getLsbD_mark, hmask]
      by_cases hi : i = a
      · subst hi
        simp [hfresh]
      · simp [hi]
  rcases Failing.run_foldlM hstep hnil with ⟨mask, e', hrun, he, hmask⟩ | ⟨_, _, _, hf⟩
  · refine ⟨mask, ?_, fun i => ?_⟩
    · rw [hrun, he]
      simp
    · simpa using hmask i
  · exact hf.elim

end Publication

/-- What a reconciliation that returns has published. -/
structure Complete (fx : K → UInt64) (e : Engine K) (items : List (Handle K × Nat)) (marks : Nat)
    (e' : Engine K) : Prop where
  listed : (e'.contents.map fun x => (x.key, x.weight)).Perm items
  sole : (e'.contents.map fun x => x.key.key).Nodup
  indexed : ∀ i, Indexed fx i (e'.stripes i)
  weight : ∀ i, (e'.stripes i).weight = ((e'.stripes i).contents.map Entry.weight).sum
  counted : e'.entries = items.length
  continues : ∀ x ∈ e'.contents, Continues fx e x
  kept : (∀ i, Indexed fx i (e.stripes i)) → (e.contents.map fun x => x.key.key).Nodup →
    ∀ x ∈ e'.contents, ∀ old ∈ e.contents, old.key.key = x.key.key →
      x.inserted = old.inserted ∧ x.accessed = old.accessed ∧ x.frequency = old.frequency
  retired : ∀ i, (e'.stripes i).retired =
    (e.stripes i).retired ++ (e.stripes i).contents.map Entry.key
  pending : ∀ i : Stripe, (e'.stripes i).retired ≠ [] → e'.retiredStripes.getLsbD i = true
  clean : marks = 0 → e'.dirty = false
  marked : 0 < marks → marks < 2 ^ 64 → e'.dirty = true

/-- What a reconciliation that unwound left: the tickets dropped meanwhile are counted. -/
structure Unchanged (e e' : Engine K) (marks : Nat) : Prop where
  stripes : e'.stripes = e.stripes
  entries : e'.entries = e.entries
  retiredStripes : e'.retiredStripes = e.retiredStripes
  epoch : e'.epoch = e.epoch
  repairedEpoch : e'.repairedEpoch = e.repairedEpoch
  dirtyEpoch : e'.dirtyEpoch = e.dirtyEpoch + UInt64.ofNat marks
  workEpoch : e'.workEpoch = e.workEpoch + UInt64.ofNat marks
  reconciliations : e'.reconciliations = e.reconciliations

omit [DecidableEq K] in
theorem Aside.unchanged {e e' : Engine K} {n : Nat} (h : Aside e e' n) : Unchanged e e' n := by
  obtain ⟨sequence, rfl⟩ := h
  exact ⟨rfl, rfl, rfl, rfl, rfl, rfl, rfl, rfl⟩

theorem dirty_add (d : UInt64) (n : Nat) (h : n < 2 ^ 64) :
    (d + UInt64.ofNat n != d) = decide (0 < n) := by
  have hn : (UInt64.ofNat n).toNat = n := UInt64.toNat_ofNat_of_lt' h
  have hd := d.toNat_lt
  rw [Bool.eq_iff_iff, bne_iff_ne, decide_eq_true_iff, Ne, ← UInt64.toNat_inj, UInt64.toNat_add, hn]
  omega

/-- The contents of the published stripes are the entries that were built. -/
theorem Staging.contents_perm {e e₁ e' : Engine K} {marks : Nat → Nat}
    {pre : List ((Handle K × Nat) × Nat)} {staged : Stripe → Metadata K}
    (h : Staging fx e marks pre staged e₁)
    (hc : ∀ i, (e'.stripes i).contents = (staged i).contents) : ∃ built : List (Entry K),
      e'.contents.Perm built ∧
      built.map (fun x => (x.key, x.weight)) = pre.map Prod.fst ∧
      ∀ x ∈ built, Continues fx e x := by
  obtain ⟨built, hlisted, hcont, hperm⟩ := h.built
  refine ⟨built, ?_, hlisted, hcont⟩
  refine List.Perm.trans ?_ (grouped_perm (f := fun x : Entry K => stripeOf (fx x.key.key))
    (List.nodup_finRange _) built fun x _ => List.mem_finRange _)
  unfold Engine.contents grouped
  refine List.Perm.flatMap_left _ fun i _ => ?_
  rw [hc i]
  exact hperm i

/-- The engine after the last write, from the one before the publication. -/
def published (staged : Stripe → Metadata K) (e : Engine K) (count : Nat) (mask : BitVec 64)
    (e₂ : Engine K) : Engine K :=
  { e₂ with
    stripes := replaced staged e
    entries := count
    retiredStripes := e₂.retiredStripes ||| mask
    epoch := e₂.epoch + 1
    repairedEpoch := e.dirtyEpoch
    reconciliations := e₂.reconciliations + 1 }

/-- What the staging prepared is complete once it is published. -/
theorem Staging.complete {e e₁ e₂ : Engine K} {marks : Nat → Nat} {items : List (Handle K × Nat)}
    {staged : Stripe → Metadata K} (h : Staging fx e marks items.zipIdx staged e₁)
    (hd : (items.map fun item => item.1.key).Nodup) {mask : BitVec 64}
    (hmask : ∀ i : Stripe, mask.getLsbD i = !(replaced staged e i).retired.isEmpty) {total : Nat}
    (hdirty : e₂.dirtyEpoch = e.dirtyEpoch + UInt64.ofNat total) :
    Complete fx e items total (published staged e items.length mask e₂) := by
  have hc : ∀ i, ((published staged e items.length mask e₂).stripes i).contents =
    (staged i).contents := fun _ => rfl
  obtain ⟨built, hperm, hlisted, hcont⟩ := h.contents_perm hc
  rw [List.zipIdx_map_fst] at hlisted
  have hcontinues : ∀ x ∈ (published staged e items.length mask e₂).contents, Continues fx e x :=
    fun x hx => hcont x (hperm.mem_iff.mp hx)
  refine ⟨?_, ?_, h.indexed, h.weight, rfl, hcontinues,
    fun hi hn x hx old ho hk => (hcontinues x hx).kept hi hn ho hk, fun i => ?_,
    fun i hi => ?_, fun h0 => ?_, fun hpos hlt => ?_⟩
  · rw [← hlisted]
    exact hperm.map _
  · refine ((hperm.map fun x => x.key.key).nodup_iff).mpr ?_
    have hkeys : built.map (fun x => x.key.key) = items.map fun item => item.1.key := by
      rw [← hlisted, List.map_map]
      rfl
    rw [hkeys]
    exact hd
  · change (staged i).retired ++ _ ++ _ = _
    rw [h.retired i]
    rfl
  · change (e₂.retiredStripes ||| mask).getLsbD i = true
    rw [BitVec.getLsbD_or, hmask i, Bool.or_eq_true]
    right
    cases hr : (replaced staged e i).retired with
    | nil => exact absurd hr hi
    | cons a as => rfl
  · change (e₂.dirtyEpoch != e.dirtyEpoch) = false
    rw [hdirty, dirty_add _ _ (by omega), h0]
    rfl
  · change (e₂.dirtyEpoch != e.dirtyEpoch) = true
    rw [hdirty, dirty_add _ _ hlt]
    exact decide_eq_true hpos

/-- Every bucket is in the stripe of its hash. -/
def Striped (i : Stripe) (m : Metadata K) : Prop :=
  ∀ hash l, m.buckets.lookup hash = some l → stripeOf hash = i

omit [DecidableEq K] in
theorem striped_push {i : Stripe} {m : Metadata K} (h : Striped i m) {hash : UInt64}
    (hi : stripeOf hash = i) (x : Entry K) : Striped i (m.push hash x) := by
  intro hash' l hl
  change (m.buckets.insert hash _).lookup hash' = some l at hl
  by_cases hh : hash' = hash
  · rwa [hh]
  · rw [AList.lookup_insert_ne hh] at hl
    exact h hash' l hl

theorem stageItem_striped (panics : Nat → Nat → Bool) (marks : Nat → Nat)
    {staged staged' : Stripe → Metadata K} {item : (Handle K × Nat) × Nat} {e e' : Engine K}
    (h : ∀ i, Striped i (staged i))
    (hrun : ExceptT.run (stageItem fx panics marks staged item) e = (.ok staged', e')) :
    ∀ i, Striped i (staged' i) := by
  cases hp : panics item.2 0 with
  | true =>
    rw [stageItem_panics panics marks staged item e hp] at hrun
    cases hrun
  | false =>
    rw [stageItem_eq panics marks staged item e hp] at hrun
    split at hrun
    · cases hrun
      rw [Function.forall_update_iff staged (p := Striped)]
      exact ⟨striped_push (h _) rfl _, fun i _ => h i⟩
    · cases hrun

/-- Both ways in which a reconciliation ends. -/
theorem reconcile_run (e : Engine K) (panics : Nat → Nat → Bool) (marks : Nat → Nat)
    (items : List (Handle K × Nat)) :
    (∃ staged e₁ mask, Staging fx e marks items.zipIdx staged e₁ ∧ (∀ i, Striped i (staged i)) ∧
      (∀ i : Stripe, mask.getLsbD i = !(replaced staged e i).retired.isEmpty) ∧
      ExceptT.run (reconcile fx panics marks items) e =
        (.ok (), published staged e items.length mask (e₁.marked (marks items.length)))) ∨
    ∃ n j err e' m, panics n j = true ∧
      ExceptT.run (reconcile fx panics marks items) e = (.error err, e') ∧
      Aside e e' (totalMarks marks m) := by
  have hget : ExceptT.run (get : Program K (Engine K)) e = (.ok e, e) := rfl
  have hnil : Staging fx e marks [] (fun _ => .default) e := by
    refine ⟨⟨e.sequence, ?_⟩, ⟨[], rfl, nofun, fun _ => .refl _⟩, fun _ => rfl, fun _ => rfl,
      fun _ hash l hl => ?_⟩
    · simp [totalMarks, Engine.marked]
    · cases hl
  have hempty : ∀ i, Striped i (.default : Metadata K) := fun _ _ _ hl => by cases hl
  have hstep : ∀ pre item post staged s, items.zipIdx = pre ++ item :: post →
      Staging fx e marks pre staged s ∧ (∀ i, Striped i (staged i)) →
      (∃ staged' s', ExceptT.run (stageItem fx panics marks staged item) s = (.ok staged', s') ∧
        Staging fx e marks (pre ++ [item]) staged' s' ∧ ∀ i, Striped i (staged' i)) ∨
      ∃ err s', ExceptT.run (stageItem fx panics marks staged item) s = (.error err, s') ∧
        (∃ n, Aside e s' (totalMarks marks n)) ∧ ∃ n j, panics n j = true := by
    intro pre item post staged s hall ⟨h, hs⟩
    rcases stageItem_run panics marks h (Failing.index_of_zipIdx hall) with
      ⟨staged', s', hrun, h'⟩ | hfail
    · exact .inl ⟨staged', s', hrun, h', stageItem_striped panics marks hs hrun⟩
    · exact .inr hfail
  unfold reconcile
  rw [Failing.run_bind_ok hget]
  rcases Failing.run_foldlM hstep ⟨hnil, hempty⟩ with
    ⟨staged, e₁, hrun, hst, hs⟩ | ⟨err, e', hrun, ⟨m, haside⟩, n, j, hp⟩
  · left
    have hmark : ExceptT.run (modify (·.marked (marks items.length)) : Program K PUnit) e₁ =
      (.ok ⟨⟩, e₁.marked (marks items.length)) := rfl
    obtain ⟨mask, hpub, hmask⟩ := publish_run staged (e₁.marked (marks items.length))
    have hreplaced : replaced staged (e₁.marked (marks items.length)) = replaced staged e := by
      obtain ⟨q, rfl⟩ := hst.aside
      rfl
    rw [hreplaced] at hpub hmask
    refine ⟨staged, e₁, mask, hst, hs, hmask, ?_⟩
    rw [Failing.run_bind_ok hrun, Failing.run_bind_ok hmark, Failing.run_bind_ok hpub]
    rfl
  · right
    rw [Failing.run_bind_error hrun]
    exact ⟨n, j, err, e', m, hp, rfl, haside⟩

/-- A reconciliation that returns has published complete metadata; one whose user code
unwinds has changed nothing. -/
theorem reconcile_complete_or_unchanged (e : Engine K) (panics : Nat → Nat → Bool)
    (marks : Nat → Nat) (items : List (Handle K × Nat))
    (hd : (items.map fun item => item.1.key).Nodup) :
    (∃ e', ExceptT.run (reconcile fx panics marks items) e = (.ok (), e') ∧
      Complete fx e items (totalMarks marks (items.length + 1)) e') ∨
    ∃ n j err e' m, panics n j = true ∧
      ExceptT.run (reconcile fx panics marks items) e = (.error err, e') ∧
      Unchanged e e' (totalMarks marks m) := by
  rcases @reconcile_run K _ fx e panics marks items with
    ⟨staged, e₁, mask, hst, _, hmask, hrun⟩ | ⟨n, j, err, e', m, hp, hrun, haside⟩
  · have hdirty : (e₁.marked (marks items.length)).dirtyEpoch =
        e.dirtyEpoch + UInt64.ofNat (totalMarks marks (items.length + 1)) := by
      obtain ⟨q, hq⟩ := hst.aside
      rw [List.length_zipIdx] at hq
      rw [totalMarks_succ, UInt64.ofNat_add, ← UInt64.add_assoc, hq]
      rfl
    exact .inl ⟨_, hrun, hst.complete hd hmask hdirty⟩
  · exact .inr ⟨n, j, err, e', m, hp, hrun, haside.unchanged⟩

/-- The live key 0 is tracked, and so is the key 7, which is not live. -/
def drifted : Engine Nat where
  stripes := Function.update (Function.update (fun _ => .default)
    0 (Metadata.default.push 0 ⟨⟨1, 0⟩, 5, 3, 4, 2, 9⟩))
    7 (Metadata.default.push 7 ⟨⟨2, 7⟩, 6, 6, 6, 1, 1⟩)
  entries := 2
  retiredStripes := 0
  sequence := 8
  epoch := 1
  dirtyEpoch := 1
  repairedEpoch := 0
  workEpoch := 1
  reconciliations := 0

theorem reconcile_complete_or_unchanged_drifted : ∃ e',
    ExceptT.run (reconcile (fun k : Nat => UInt64.ofNat k) (fun _ _ => false) (fun _ => 0)
      [(⟨3, 0⟩, 5), (⟨4, 1⟩, 6)]) drifted = (.ok (), e') ∧ e'.dirty = false ∧
      (e'.contents.map fun x => (x.key, x.weight)).Perm [(⟨3, 0⟩, 5), (⟨4, 1⟩, 6)] ∧
      (∀ x ∈ e'.contents, x.key.key = 0 → x.inserted = 3 ∧ x.accessed = 4 ∧ x.frequency = 2) ∧
      (∀ x ∈ e'.contents, x.key.key = 1 → x.inserted = x.incarnation ∧ x.frequency = 1) ∧
      (e'.stripes 7).retired = [⟨2, 7⟩] ∧ e'.retiredStripes.getLsbD 7 = true := by
  rcases @reconcile_complete_or_unchanged Nat _ (fun k => UInt64.ofNat k) drifted
    (fun _ _ => false) (fun _ => 0) [(⟨3, 0⟩, 5), (⟨4, 1⟩, 6)] (by decide) with
    ⟨e', hrun, hc⟩ | ⟨_, _, _, _, _, hp, _⟩
  · have hretired : (e'.stripes 7).retired = [⟨2, 7⟩] := hc.retired 7
    refine ⟨e', hrun, hc.clean rfl, hc.listed, fun x hx hk => ?_, fun x hx hk => ?_, hretired,
      hc.pending 7 (by rw [hretired]; exact List.cons_ne_nil _ _)⟩
    · have hold := hc.continues x hx
      unfold Continues at hold
      rw [hk] at hold
      exact hold
    · have hnew := hc.continues x hx
      unfold Continues at hnew
      rw [hk] at hnew
      exact ⟨hnew.1, hnew.2.2⟩
  · cases hp

end Starshard.Repair
