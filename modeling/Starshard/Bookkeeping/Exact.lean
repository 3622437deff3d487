import Starshard.Bookkeeping.Keeps
import Starshard.Migration.Sound

/-! The sums of the metadata are exact after every run of hooks, and no subtraction on them
goes below zero. -/
namespace Starshard.Bookkeeping

open Data Retirement
open Concurrent (Replay)
open Repair (Entry Metadata Engine Striped contents_perm_bucket)

variable {K : Type} {fx : K → UInt64} {u : Prop} {e : Engine K}

section Repair

variable [DecidableEq K] {entries : List (Handle K × UInt64)}

theorem Exact.published {items : List (Handle K × Nat)} {staged : Stripe → Metadata K}
    {e₁ e₂ : Engine K} {mask : BitVec 64}
    (hst : Repair.Staging fx e marks items.zipIdx staged e₁) (hs : ∀ i, Striped i (staged i))
    (hw : ∀ item ∈ items, item.2 < 2 ^ 64) (hd : u → (items.map fun item => item.1.key).Nodup)
    (hroom : (Repair.published staged e items.length mask e₂).contents.length < 2 ^ 64) :
    Exact fx u (Repair.published staged e items.length mask e₂) := by
  let e' := Repair.published staged e items.length mask e₂
  have hc : ∀ i, (e'.stripes i).contents = (staged i).contents := fun _ => rfl
  obtain ⟨built, hperm, hlisted, _⟩ := hst.contents_perm hc
  rw [List.zipIdx_map_fst] at hlisted
  have hlen : e'.contents.length = items.length := by
    rw [hperm.length_eq, ← hlisted, List.length_map]
  have hkeys : u → (e'.contents.map fun x => x.key.key).Nodup := by
    intro hu
    have hbuilt : built.map (fun x => x.key.key) = items.map fun item => item.1.key := by
      rw [← hlisted, List.map_map]
      rfl
    refine ((hperm.map fun x => x.key.key).nodup_iff).mpr ?_
    rw [hbuilt]
    exact hd hu
  refine ⟨fun i hash l hl => ⟨hs i hash l hl, fun x hx => (hst.indexed i hash l hl x hx).1,
    fun x hx => ?_, fun hu => ?_⟩, hst.weight, hlen.symm, hroom⟩
  · have hmem : x ∈ e'.contents := List.mem_flatMap.mpr
      ⟨i, List.mem_finRange i, Repair.Metadata.mem_contents.mpr ⟨hash, l, hl, hx⟩⟩
    refine hw (x.key, x.weight) ?_
    rw [← hlisted]
    exact List.mem_map.mpr ⟨x, hperm.mem_iff.mp hmem, rfl⟩
  · have hbucket : (e'.stripes i).bucket hash = l := by
      unfold Metadata.bucket
      rw [hl]
      rfl
    have hsplit := (contents_perm_stripe i e').trans
      ((contents_perm_bucket hash (e'.stripes i)).append_right _)
    have hnodup := ((hsplit.map fun x => x.key.key).nodup_iff).mp (hkeys hu)
    rw [hbucket, List.map_append, List.map_append] at hnodup
    exact (hnodup.of_append_left).of_append_left

theorem reconcile_ends (h : Exact fx u e)
    (hd : u → (entries.map fun item => item.1.key).Nodup) (panics : Nat → Nat → Bool)
    (marks : Nat → Nat) :
    Failing.Ends (fun _ e' => e'.contents.length < 2 ^ 64 → Exact fx u e')
      (fun _ e' => Exact fx u e')
      (Repair.reconcile fx panics marks (entries.map fun item => (item.1, item.2.toNat))) e := by
  have hw : ∀ item ∈ entries.map fun item => (item.1, item.2.toNat), item.2 < 2 ^ 64 := by
    intro item hi
    obtain ⟨item, _, rfl⟩ := List.mem_map.mp hi
    exact item.2.toNat_lt
  have hd' : u → ((entries.map fun item => (item.1, item.2.toNat)).map
      fun item => item.1.key).Nodup := by
    intro hu
    rw [List.map_map]
    exact hd hu
  unfold Failing.Ends
  rcases @Repair.reconcile_run K _ fx e panics marks
      (entries.map fun item => (item.1, item.2.toNat)) with
    ⟨staged, e₁, mask, hst, hs, _, hrun⟩ | ⟨_, _, _, e', _, _, hrun, _, rfl⟩
  · rw [hrun]
    exact fun hroom => .published hst hs hw hd' hroom
  · rw [hrun]
    exact h.congr (fun _ => rfl) (fun _ => rfl) rfl

end Repair

/-- The invariant of a run, with the prepared insertions. -/
structure Sound (fx : K → UInt64) (u : Prop) (s : System K) : Prop where
  exact : Exact fx u s.engine
  hashed : ∀ p ∈ s.prepared, fx p.key.key = p.hash

section Calls

variable {ps : List (Prepared K)} {s s' : System K} {cs : List (Call K)}

theorem sound_of_ends {x : Hook K Unit} (hps : ∀ p ∈ ps, fx p.key.key = p.hash)
    (h : Failing.Ends (fun _ e' => e'.contents.length < 2 ^ 64 → Exact fx u e')
      (fun c e' => c = .user ∧ Exact fx u e') x e) :
    (ExceptT.run x e).1 ≠ .error .underflow ∧
      ((ExceptT.run x e).2.contents.length < 2 ^ 64 → Sound fx u ⟨(ExceptT.run x e).2, ps⟩) := by
  unfold Failing.Ends at h
  rcases hx : ExceptT.run x e with ⟨r, e'⟩
  rw [hx] at h
  cases r with
  | ok a => exact ⟨nofun, fun hroom => ⟨h hroom, hps⟩⟩
  | error c =>
    obtain ⟨rfl, h⟩ := h
    exact ⟨nofun, fun _ => ⟨h, hps⟩⟩

theorem sound_of_keeps {x : Hook K Unit} (hps : ∀ p ∈ ps, fx p.key.key = p.hash)
    (h : Keeps fx u x e) :
    (ExceptT.run x e).1 ≠ .error .underflow ∧
      ((ExceptT.run x e).2.contents.length < 2 ^ 64 → Sound fx u ⟨(ExceptT.run x e).2, ps⟩) :=
  sound_of_ends hps (h.mono (fun _ _ h _ => h) fun _ _ h => h)

theorem Sound.new : Sound fx u (System.new K) := by
  have hcontents : (System.new K).engine.contents = [] :=
    List.flatMap_eq_nil_iff.mpr fun _ _ => rfl
  have hnone : ∀ i hash l, ((System.new K).engine.stripes i).buckets.lookup hash ≠ some l :=
    fun _ _ _ hl => by cases hl
  refine ⟨⟨fun i hash l hl => absurd hl (hnone i hash l), fun _ => rfl, ?_, ?_⟩, nofun⟩
  · rw [hcontents]
    rfl
  · rw [hcontents]
    exact Nat.two_pow_pos 64

variable [DecidableEq K]

/-- One call subtracts only what is there, and keeps the invariant. -/
theorem Sound.exec (h : Sound fx u s) (c : Call K) (hd : u → c.Distinct) :
    (exec fx c s).1 ≠ .error .underflow ∧
      ((exec fx c s).2.engine.contents.length < 2 ^ 64 → Sound fx u (exec fx c s).2) := by
  have hkept : ∀ n, ∀ p ∈ s.prepared.eraseIdx n, fx p.key.key = p.hash :=
    fun n p hp => h.hashed p (List.mem_of_mem_eraseIdx hp)
  cases c with
  | prepareInsert k weighed allocation panics =>
    have hends := prepareInsert_ends panics h.exact k weighed allocation
    unfold Bookkeeping.exec
    dsimp only
    unfold Failing.Ends at hends
    rcases hx : ExceptT.run (prepareInsert panics fx k weighed allocation) s.engine with ⟨r, e'⟩
    rw [hx] at hends
    cases r with
    | ok p =>
      refine ⟨nofun, fun _ => ⟨hends.2, fun q hq => ?_⟩⟩
      rcases List.mem_append.mp hq with hq | hq
      · exact h.hashed q hq
      · rw [List.mem_singleton.mp hq]
        exact hends.1
    | error c =>
      obtain ⟨rfl, he⟩ := hends
      exact ⟨nofun, fun _ => ⟨he, h.hashed⟩⟩
  | recordInsert n replaced panics =>
    unfold Bookkeeping.exec
    dsimp only
    cases hp : s.prepared[n]? with
    | none => exact ⟨nofun, fun _ => h⟩
    | some p =>
      exact sound_of_ends (hkept n)
        (recordInsert_ends h.exact (h.hashed p (List.mem_of_getElem? hp)) replaced)
  | discard n =>
    unfold Bookkeeping.exec
    dsimp only
    cases hp : s.prepared[n]? with
    | none => exact ⟨nofun, fun _ => h⟩
    | some p => exact sound_of_keeps (hkept n) (deferKey_keeps h.exact p.hash p.key)
  | recordRead q hit panics => exact sound_of_keeps h.hashed (recordRead_keeps h.exact q hit)
  | recordRemove q panics => exact sound_of_keeps h.hashed (recordRemove_keeps h.exact q)
  | recordEviction hash incarnation =>
    exact sound_of_keeps h.hashed (recordEviction_keeps h.exact hash incarnation)
  | reconcile entries panics marks =>
    have hends := reconcile_ends h.exact hd panics marks
    unfold Bookkeeping.exec
    dsimp only
    unfold Failing.Ends at hends
    rcases hx : ExceptT.run (Repair.reconcile fx panics marks
      (entries.map fun item => (item.1, item.2.toNat))) s.engine with ⟨r, e'⟩
    rw [hx] at hends ⊢
    cases r with
    | ok _ => exact ⟨nofun, fun hroom => ⟨hends hroom, h.hashed⟩⟩
    | error _ => exact ⟨nofun, fun _ => ⟨hends, h.hashed⟩⟩

theorem Sound.replay (hr : Replay (Step fx) s cs s') (h : Sound fx u s)
    (hd : u → ∀ c ∈ cs, c.Distinct) : Sound fx u s' := by
  induction hr with
  | nil => exact h
  | @cons a b c call cs hs _ ih =>
    obtain ⟨rfl, hroom⟩ := hs
    exact ih ((h.exec call fun hu => hd hu call List.mem_cons_self).2 hroom)
      fun hu c hc => hd hu c (List.mem_cons_of_mem _ hc)

end Calls

section Statistics

theorem weights_flatMap {ι : Type} (f : ι → List (Entry K)) (is : List ι) :
    weights (is.flatMap f) = (is.map fun i => weights (f i)).sum := by
  induction is with
  | nil => rfl
  | cons i is ih => rw [List.flatMap_cons, weights_append, List.map_cons, List.sum_cons, ih]

theorem Exact.total (h : Exact fx u e) : exactWeight e = weights e.contents := by
  have hsum : ((List.finRange stripes).map fun i => (e.stripes i).weight).sum =
      weights e.contents := by
    unfold Engine.contents
    rw [weights_flatMap]
    simp only [h.weight]
  unfold exactWeight
  rw [hsum]
  exact Nat.mod_eq_of_lt (weights_lt (fun _ => h.narrow) h.room)

end Statistics

/-- What the metadata says of itself is true. -/
structure Consistent (fx : K → UInt64) (e : Engine K) : Prop where
  filed : ∀ i hash l, (e.stripes i).buckets.lookup hash = some l →
    stripeOf hash = i ∧ ∀ x ∈ l, fx x.key.key = hash
  weight : ∀ i, (e.stripes i).weight = ((e.stripes i).contents.map Entry.weight).sum
  fits : ∀ i, (e.stripes i).weight < 2 ^ 128
  counted : e.entries = e.contents.length
  exact : exactWeight e = (e.contents.map Entry.weight).sum
  budget : ∀ budget, overMemoryBudget budget e = true ↔
    ∃ b, budget = some b ∧ b.toNat < (e.contents.map Entry.weight).sum
  estimated : estimatedWeight e = min (e.contents.map Entry.weight).sum (2 ^ 64 - 1)
  overflow : weightOverflow e = true ↔ 2 ^ 64 - 1 < (e.contents.map Entry.weight).sum

theorem Exact.consistent (h : Exact fx u e) : Consistent fx e where
  filed i hash l hl := ⟨(h.filed i hash l hl).stripe, (h.filed i hash l hl).hashed⟩
  weight := h.weight
  fits i := by
    have hperm := contents_perm_stripe i e
    have hlen : (e.stripes i).contents.length ≤ e.contents.length := by
      rw [hperm.length_eq, List.length_append]
      exact Nat.le_add_right _ _
    rw [h.weight i]
    exact weights_lt (fun x hx => h.narrow (hperm.mem_iff.mpr (List.mem_append_left _ hx)))
      (Nat.lt_of_le_of_lt hlen h.room)
  counted := h.counted
  exact := h.total
  budget budget := by
    unfold overMemoryBudget
    rw [h.total]
    cases budget with
    | none => simp
    | some b =>
      rw [Option.any_some, decide_eq_true_iff]
      constructor
      · exact fun h => ⟨b, rfl, h⟩
      · intro ⟨_, hb, h⟩
        rw [Option.some.inj hb]
        exact h
  estimated := by
    unfold estimatedWeight
    rw [h.total]
    rfl
  overflow := by
    unfold weightOverflow
    rw [h.total]
    exact decide_eq_true_iff

/-- The scan of a map, with any weights, lists no key twice. -/
theorem distinct_scan {V : Type} [DecidableEq K] {hash : K → Nat} {flavor : Migration.Flavor}
    {s : Migration.State K V} (hr : Migration.Reachable hash flavor s)
    (copy : K × V → Handle K × UInt64) (hcopy : ∀ e, (copy e).1.key = e.1)
    (panics : Nat → Nat → Bool) (marks : Nat → Nat) :
    (Call.reconcile (s.tables.entries.map copy) panics marks).Distinct := by
  change ((s.tables.entries.map copy).map fun item => item.1.key).Nodup
  rw [List.map_map]
  have hkeys : (fun item : Handle K × UInt64 => item.1.key) ∘ copy = Prod.fst := funext hcopy
  rw [hkeys]
  exact hr.sound.placed.entries_nodup

/-- Every run of hooks keeps the buckets, the weights and the counter exact; none of its
calls subtracts more than there is. -/
theorem stripe_bookkeeping_exact [DecidableEq K] {cs : List (Call K)} {s : System K}
    (hr : Run fx cs s) :
    Consistent fx s.engine ∧
      ((∀ c ∈ cs, c.Distinct) → ∀ i hash l, (s.engine.stripes i).buckets.lookup hash = some l →
        (l.map fun x => x.key.key).Nodup) ∧
      ∀ c, (exec fx c s).1 ≠ .error .underflow := by
  have hsound : Sound fx False s := .replay hr .new False.elim
  refine ⟨hsound.exact.consistent, fun hd i hash l hl => ?_, fun c => ?_⟩
  · have hsole : Sound fx (∀ c ∈ cs, c.Distinct) s := .replay hr .new id
    exact (hsole.exact.filed i hash l hl).sole hd
  · exact (hsound.exec c False.elim).1

/-- Two keys of one hash, each of the largest weight; a removal is then interrupted. -/
def overflowing : List (Call Nat) :=
  [.prepareInsert 1 (some 18446744073709551615) 0 fun _ => false,
    .recordInsert 0 false fun _ => false,
    .prepareInsert 2 (some 18446744073709551615) 1 fun _ => false,
    .recordInsert 0 false fun _ => false,
    .recordRemove ⟨7, fun k => k == 2⟩ fun c => match c with | .eq n => n == 1 | _ => false]

theorem stripe_bookkeeping_exact_overflowing : ∃ s, Run (fun _ : Nat => 7) overflowing s ∧
    weightOverflow s.engine = true ∧
    overMemoryBudget (some 18446744073709551615) s.engine = true := by
  have hrun : Run (fun _ : Nat => 7) overflowing (overflowing.foldl
      (fun s c => (exec (fun _ => 7) c s).2) (System.new Nat)) :=
    .cons ⟨rfl, by decide⟩ (.cons ⟨rfl, by decide⟩ (.cons ⟨rfl, by decide⟩
      (.cons ⟨rfl, by decide⟩ (.cons ⟨rfl, by decide⟩ .nil))))
  have h := (stripe_bookkeeping_exact hrun).1
  exact ⟨_, hrun, h.overflow.mpr (by decide), (h.budget _).mpr ⟨_, rfl, by decide⟩⟩

end Starshard.Bookkeeping
