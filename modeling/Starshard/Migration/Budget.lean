import Starshard.Migration.Drain

/-! The loop of a batch: what one iteration keeps, and how the loop ends. -/
namespace Starshard.Migration

open Data Worker

variable {K V : Type}

/-- The keys that were pushed are a prefix, not empty unless there is none. -/
theorem pushKeys_eq (env : Env K V) (budget : Budget) (started : Nat) (keys : List K) :
    ∀ (work : List K) (n : Nat), ∃ pushed, pushed <+: keys ∧
      (pushKeys env budget started keys work n).1 = pushed.reverse ++ work ∧
      (keys ≠ [] → pushed ≠ []) ∧ (budget.pauseNs = 0 → pushed = keys) := by
  induction keys with
  | nil => exact fun work n => ⟨[], List.prefix_rfl, rfl, fun h => absurd rfl h, fun _ => rfl⟩
  | cons key keys ih =>
    intro work n
    unfold pushKeys
    split
    · next h =>
      exact ⟨[key], ⟨keys, rfl⟩, rfl, fun _ => List.cons_ne_nil _ _, fun h0 => absurd h0 h.1⟩
    · obtain ⟨pushed, hpre, heq, _, hall⟩ := ih (key :: work) (n + 1)
      refine ⟨key :: pushed, List.cons_prefix_cons.mpr ⟨rfl, hpre⟩, ?_,
        fun _ => List.cons_ne_nil _ _, fun h0 => congrArg (key :: ·) (hall h0)⟩
      rw [heq, List.reverse_cons, List.append_assoc, List.singleton_append]

variable [DecidableEq K] {hash : K → Nat}

/-- The counters of a batch that started in `s₀` agree with the directories. -/
structure Ledger (s₀ : State K V) (budget : Budget) (b : Batch K V) : Prop where
  moved : b.report.movedEntries + (leftover b.state.tables).length = (leftover s₀.tables).length
  movedEntries : b.state.tracker.telemetry.movedEntries =
    s₀.tracker.telemetry.movedEntries + b.report.movedEntries
  completedShards : b.state.tracker.telemetry.completedShards =
    s₀.tracker.telemetry.completedShards + b.report.completedShards
  entries : b.report.movedEntries ≤ budget.maxEntries
  shards : b.report.completedShards ≤ budget.maxShards

/-- The prepared keys are in the source slot the batch works on. -/
structure Prepared (budget : Budget) (p : Shards K V) (index : Nat) (moved : Nat)
    (workKeys : List K) : Prop where
  nodup : workKeys.Nodup
  held : ∀ k ∈ workKeys, ((slot p index).lookup k).isSome
  loaded : budget.pauseNs = 0 →
    workKeys.length = (slot p index).size ∨ moved + workKeys.length = budget.maxEntries

/-- The invariant at the head of the loop. -/
structure Working (hash : K → Nat) (s₀ : State K V) (budget : Budget) (b : Batch K V)
    (p : Shards K V) : Prop where
  draining : Draining hash s₀ b.state p
  unfinished : b.state.tracker.telemetry.completedShards < p.length
  ledger : Ledger s₀ budget b
  incomplete : b.report.complete = false
  fresh : b.report.budgetExhausted = false
  unloaded : b.loadedIndex ≠ some b.state.tracker.telemetry.completedShards → b.workKeys = []
  prepared : b.loadedIndex = some b.state.tracker.telemetry.completedShards →
    Prepared budget p b.state.tracker.telemetry.completedShards b.report.movedEntries b.workKeys ∧
      b.workKeys ≠ []

theorem Prepared.of_slot {budget : Budget} {p : Shards K V} {index moved : Nat} {keys : List K}
    (h : keys.Perm (slot p index).keys) {work : List K} (n : Nat) {pushed : List K}
    (hwork : work = pushed.reverse) (hpre : pushed <+: keys.take n)
    (hall : budget.pauseNs = 0 → pushed = keys.take n)
    (hn : n + moved = budget.maxEntries) : Prepared budget p index moved work where
  nodup := by
    rw [hwork, List.nodup_reverse]
    exact (h.nodup_iff.mpr (slot p index).keys_nodup).sublist
      (hpre.sublist.trans (List.take_sublist _ _))
  held k hk := by
    rw [hwork, List.mem_reverse] at hk
    exact AList.lookup_isSome.mpr (AList.mem_keys.mpr
      (h.mem_iff.mp (List.mem_of_mem_take (hpre.subset hk))))
  loaded h0 := by
    rw [hwork, List.length_reverse, hall h0, List.length_take, Data.Assoc.size_eq_keys,
      h.length_eq]
    omega

theorem Prepared.nil {budget : Budget} {p : Shards K V} {index moved : Nat}
    (h : slot p index = ∅) : Prepared budget p index moved [] where
  nodup := List.nodup_nil
  held _ hk := by cases hk
  loaded _ := .inl (by rw [h]; rfl)

theorem Prepared.eq_nil {budget : Budget} {p : Shards K V} {index moved : Nat} {work : List K}
    (h : Prepared budget p index moved work) (he : slot p index = ∅) : work = [] := by
  refine List.eq_nil_iff_forall_not_mem.mpr fun k hk => ?_
  have := h.held k hk
  rw [he, AList.lookup_empty] at this
  cases this

theorem Prepared.tail {budget : Budget} {p : Shards K V} {index moved : Nat} {k : K}
    {work : List K} (h : Prepared budget p index moved (k :: work)) :
    Prepared budget (eraseAt index k p) index (moved + 1) work where
  nodup := (List.nodup_cons.mp h.nodup).2
  held k' hk' := by
    have hne : k' ≠ k := by
      rintro rfl
      exact (List.nodup_cons.mp h.nodup).1 hk'
    rw [lookup_eraseAt, if_neg fun hc => hne hc.2]
    exact h.held k' (List.mem_cons_of_mem _ hk')
  loaded h0 := by
    have hk := h.held k List.mem_cons_self
    rw [slot_eraseAt, if_pos rfl, Data.Assoc.size_erase, if_pos hk]
    have := h.loaded h0
    rw [List.length_cons] at this
    omega

namespace Working

variable {s₀ : State K V} {budget : Budget} {b : Batch K V} {p : Shards K V}

theorem snapshot (h : Working hash s₀ budget b p) :
    b.state.tracker.snapshot.movedShards = b.state.tracker.telemetry.completedShards := by
  simp [Progress.snapshot, h.draining.migrating]

omit [DecidableEq K] in
theorem load_fields (env : Env K V) (budget : Budget) (started index : Nat)
    (source : Option (Assoc K V)) (b : Batch K V) :
    (b.load env budget started index source).state = b.state ∧
      (b.load env budget started index source).report = b.report ∧
      (b.load env budget started index source).loadedIndex = some index := by
  unfold Batch.load
  split
  · next h => exact ⟨rfl, rfl, h⟩
  · split <;> exact ⟨rfl, rfl, rfl⟩

/-- After loading, the keys of the slot are prepared, some unless it is drained. -/
theorem load (h : Working hash s₀ budget b p) (env : Env K V) (started : Nat)
    (hm : b.report.movedEntries < budget.maxEntries) :
    Prepared budget p b.state.tracker.telemetry.completedShards b.report.movedEntries
        (b.load env budget started b.state.tracker.telemetry.completedShards
          (b.state.tables.source b.state.tracker.telemetry.completedShards)).workKeys ∧
      (slot p b.state.tracker.telemetry.completedShards ≠ ∅ →
        (b.load env budget started b.state.tracker.telemetry.completedShards
          (b.state.tables.source b.state.tracker.telemetry.completedShards)).workKeys ≠ []) := by
  have hsrc : (b.state.tables.source b.state.tracker.telemetry.completedShards).getD ∅ =
    slot p b.state.tracker.telemetry.completedShards := source_eq h.draining.previous
  unfold Batch.load
  split
  · next hl => exact ⟨(h.prepared hl).1, fun _ => (h.prepared hl).2⟩
  next hl =>
  have hnil := h.unloaded hl
  cases hs : b.state.tables.source b.state.tracker.telemetry.completedShards with
  | none =>
    rw [hs] at hsrc
    dsimp only
    rw [hnil]
    exact ⟨.nil hsrc.symm, fun hne => absurd hsrc.symm hne⟩
  | some m =>
    rw [hs] at hsrc
    have hsrc : m = slot p b.state.tracker.telemetry.completedShards := hsrc
    dsimp only
    obtain ⟨pushed, hpre, heq, hsome, hall⟩ := pushKeys_eq env budget started
      ((env.keys b.readings m).take (budget.maxEntries - b.report.movedEntries)) b.workKeys
      b.readings
    rw [heq, hnil, List.append_nil]
    subst hsrc
    refine ⟨.of_slot (env.perm _ _) _ rfl hpre hall (by omega), fun hne => ?_⟩
    rw [Ne, List.reverse_eq_nil_iff]
    refine hsome fun hnil => hne ?_
    rw [List.take_eq_nil_iff] at hnil
    rw [← size_eq_zero_iff, Data.Assoc.size_eq_keys, ← (env.perm b.readings _).length_eq]
    rcases hnil with hnil | hnil
    · omega
    · rw [hnil]
      rfl

end Working

/-- The invariant between the transfer of an iteration and its end. -/
structure Middle (hash : K → Nat) (s₀ : State K V) (budget : Budget) (b : Batch K V)
    (p : Shards K V) : Prop where
  draining : Draining hash s₀ b.state p
  unfinished : b.state.tracker.telemetry.completedShards < p.length
  ledger : Ledger s₀ budget b
  incomplete : b.report.complete = false
  fresh : b.report.budgetExhausted = false
  loaded : b.loadedIndex = some b.state.tracker.telemetry.completedShards
  prepared : Prepared budget p b.state.tracker.telemetry.completedShards b.report.movedEntries
    b.workKeys

/-- How a loop ends: the migration is finished, or a budget stopped it. -/
inductive Ends (hash : K → Nat) (s₀ : State K V) (budget : Budget) (b : Batch K V) : Prop where
  | drained : b.report.complete = true → b.report.budgetExhausted = false →
      Idle hash s₀ b.state → b.state.tables.shardCount = s₀.tables.shardCount →
      s₀.tracker.telemetry.completedShards + b.report.completedShards =
        s₀.tracker.telemetry.totalShards → Ends hash s₀ budget b
  | stopped {p : Shards K V} : b.report.complete = false → Draining hash s₀ b.state p →
      b.state.tracker.telemetry.completedShards < p.length →
      (b.report.budgetExhausted = true ∧
          (budget.pauseNs = 0 → b.report.movedEntries = budget.maxEntries)) ∨
        (b.report.budgetExhausted = false ∧
          ¬ (b.report.completedShards < budget.maxShards ∧
            b.report.movedEntries < budget.maxEntries)) →
      Ends hash s₀ budget b

def Batch.done (b : Batch K V) : Nat := b.report.movedEntries + b.report.completedShards

section Turn

variable {s₀ : State K V} {budget : Budget} {b : Batch K V} {p : Shards K V}

/-- The selected key is found, so the transfer does not panic. -/
theorem Working.moveKey (h : Working hash s₀ budget b p) (env : Env K V) (started : Nat)
    (hm : b.report.movedEntries < budget.maxEntries) :
    ∃ b' p', (b.load env budget started b.state.tracker.telemetry.completedShards
          (b.state.tables.source b.state.tracker.telemetry.completedShards)).moveKey hash
            b.state.tracker.telemetry.completedShards
            (b.state.tables.source b.state.tracker.telemetry.completedShards) = .ok b' ∧
      Middle hash s₀ budget b' p' ∧ p'.length = p.length ∧
      b'.state.tracker.telemetry.completedShards =
        b.state.tracker.telemetry.completedShards ∧
      b'.report.completedShards = b.report.completedShards ∧
      (b'.report.movedEntries = b.report.movedEntries + 1 ∨
        b'.report.movedEntries = b.report.movedEntries ∧
          slot p' b.state.tracker.telemetry.completedShards = ∅) := by
  obtain ⟨hprep, hsome⟩ := h.load env started hm
  obtain ⟨hstate, hreport, hindex⟩ := Working.load_fields env budget started
    b.state.tracker.telemetry.completedShards
    (b.state.tables.source b.state.tracker.telemetry.completedShards) b
  have hsrc : (b.state.tables.source b.state.tracker.telemetry.completedShards).getD ∅ =
    slot p b.state.tracker.telemetry.completedShards := source_eq h.draining.previous
  revert hprep hsome hstate hreport hindex
  generalize b.load env budget started b.state.tracker.telemetry.completedShards
    (b.state.tables.source b.state.tracker.telemetry.completedShards) = b₁
  intro hprep hsome hstate hreport hindex
  have hledger : Ledger s₀ budget b₁ := by
    have := h.ledger
    exact ⟨by rw [hstate, hreport]; exact this.moved, by rw [hstate, hreport]; exact this.movedEntries,
      by rw [hstate, hreport]; exact this.completedShards, by rw [hreport]; exact this.entries,
      by rw [hreport]; exact this.shards⟩
  cases hw : b₁.workKeys with
  | nil =>
    have he : slot p b.state.tracker.telemetry.completedShards = ∅ := by
      by_contra hne
      exact hsome hne hw
    refine ⟨{ b₁ with workKeys := [] }, p, ?_, ⟨?_, ?_, ⟨?_, ?_, ?_, ?_, ?_⟩, ?_, ?_, ?_, ?_⟩, rfl,
      by rw [hstate], by rw [hreport], .inr ⟨by rw [hreport], he⟩⟩
    · unfold Batch.moveKey
      rw [hw]
      split
      · next hc => cases hc
      · rfl
    · rw [hstate]; exact h.draining
    · rw [hstate]; exact h.unfinished
    · exact hledger.moved
    · exact hledger.movedEntries
    · exact hledger.completedShards
    · exact hledger.entries
    · exact hledger.shards
    · rw [hreport]; exact h.incomplete
    · rw [hreport]; exact h.fresh
    · rw [hstate]; exact hindex
    · rw [hstate]; exact .nil he
  | cons key rest =>
    rw [hw] at hprep
    have hk := hprep.held key List.mem_cons_self
    obtain ⟨v, hv⟩ := Option.isSome_iff_exists.mp hk
    cases hs : b.state.tables.source b.state.tracker.telemetry.completedShards with
    | none =>
      rw [hs] at hsrc
      have hsrc : (∅ : Assoc K V) = _ := hsrc
      rw [← hsrc, AList.lookup_empty] at hv
      cases hv
    | some m =>
      rw [hs] at hsrc
      have hsrc : m = slot p b.state.tracker.telemetry.completedShards := hsrc
      have hd := h.draining.move hv
      have hleft := length_leftover_move h.draining.placed h.draining.previous hv
      have hold := hledger.moved
      refine ⟨{ b₁ with
          state := { b₁.state with
            tables := b₁.state.tables.move hash b.state.tracker.telemetry.completedShards key
            tracker := b₁.state.tracker.moved }
          workKeys := rest
          report := { b₁.report with movedEntries := b₁.report.movedEntries + 1 } },
        eraseAt b.state.tracker.telemetry.completedShards key p, ?_,
        ⟨?_, ?_, ⟨?_, ?_, ?_, ?_, ?_⟩, ?_, ?_, ?_, ?_⟩, length_eraseAt, ?_, ?_, .inl ?_⟩
      · unfold Batch.moveKey
        rw [hw]
        dsimp only
        rw [hsrc, hv]
      · rw [hstate]; exact hd
      · rw [hstate, length_eraseAt]; exact h.unfinished
      · dsimp only
        rw [hstate] at hold ⊢
        omega
      · have := hledger.movedEntries
        change b₁.state.tracker.telemetry.movedEntries + 1 = _
        dsimp only
        omega
      · exact hledger.completedShards
      · dsimp only
        rw [hreport]
        exact hm
      · exact hledger.shards
      · dsimp only
        rw [hreport]
        exact h.incomplete
      · dsimp only
        rw [hreport]
        exact h.fresh
      · rw [hstate]; exact hindex
      · rw [hstate, hreport]; exact hprep.tail
      · rw [hstate]; rfl
      · dsimp only
        rw [hreport]
      · dsimp only
        rw [hreport]

theorem Middle.snapshot (h : Middle hash s₀ budget b p) :
    b.state.tracker.snapshot = ⟨true, b.state.tracker.telemetry.completedShards,
      b.state.tracker.telemetry.totalShards⟩ := by
  simp [Progress.snapshot, h.draining.migrating]

omit [DecidableEq K] in
theorem Ledger.finish (h : Ledger s₀ budget b) (n : Nat) (r : RebalanceBatchReport)
    (hr : r.movedEntries = b.report.movedEntries) (hc : r.completedShards = b.report.completedShards) :
    Ledger s₀ budget { b with report := r, readings := n } where
  moved := by rw [hr]; exact h.moved
  movedEntries := by rw [hr]; exact h.movedEntries
  completedShards := by rw [hc]; exact h.completedShards
  entries := by rw [hr]; exact h.entries
  shards := by rw [hc]; exact h.shards

/-- The source keeps entries: the loop goes on, or its entry budget is used up. -/
theorem Middle.keep (h : Middle hash s₀ budget b p) (env : Env K V) (started : Nat)
    (hne : slot p b.state.tracker.telemetry.completedShards ≠ ∅) :
    ∃ b' again, b.close env budget started false = (b', again) ∧ b'.report.movedEntries =
        b.report.movedEntries ∧ b'.report.completedShards = b.report.completedShards ∧
      Ledger s₀ budget b' ∧ (again = true → Working hash s₀ budget b' p) ∧
      (again = false → Ends hash s₀ budget b') := by
  have hlt := h.unfinished
  have htotal := h.draining.total
  unfold Batch.close
  rw [h.snapshot]
  dsimp only
  rw [if_neg (by omega)]
  split
  · next hstop =>
    refine ⟨_, _, rfl, rfl, rfl, h.ledger.finish _ _ rfl rfl, nofun, fun _ =>
      .stopped h.incomplete h.draining hlt (.inl ⟨rfl, fun h0 => ?_⟩)⟩
    have hnil : b.workKeys = [] := by
      rcases hstop with hstop | hstop
      · simpa using hstop
      · exact absurd h0 hstop.1
    rcases h.prepared.loaded h0 with hl | hl
    · rw [hnil] at hl
      exact absurd (size_eq_zero_iff.mp hl.symm) hne
    · simpa [hnil] using hl
  · next hgo =>
    refine ⟨_, _, rfl, rfl, rfl, h.ledger.finish _ _ rfl rfl, fun _ =>
      ⟨h.draining, hlt, h.ledger.finish _ _ rfl rfl, h.incomplete, h.fresh,
        fun hn => absurd h.loaded hn, fun _ => ⟨h.prepared, fun hnil => hgo (.inl ?_)⟩⟩, nofun⟩
    have hnil : b.workKeys = [] := hnil
    simp [hnil]

/-- The source is drained: it is retired, and the migration may be finished. -/
theorem Middle.sweep (h : Middle hash s₀ budget b p) (env : Env K V) (started : Nat)
    (hs : b.report.completedShards < budget.maxShards)
    (he : slot p b.state.tracker.telemetry.completedShards = ∅) :
    ∃ b' again, (b.sweep b.state.tracker.telemetry.completedShards).close env budget started
        true = (b', again) ∧ b'.report.movedEntries = b.report.movedEntries ∧
      b'.report.completedShards = b.report.completedShards + 1 ∧ Ledger s₀ budget b' ∧
      (again = true → ∃ p', Working hash s₀ budget b' p' ∧ p'.length = p.length) ∧
      (again = false → Ends hash s₀ budget b') := by
  have hd := h.draining.retire h.unfinished he
  have hnil := h.prepared.eq_nil he
  have hleft := length_leftover_retire h.draining.placed
    (i := b.state.tracker.telemetry.completedShards) fun q hq => by
      rw [h.draining.previous] at hq
      cases hq
      exact he
  have hled : Ledger s₀ budget (b.sweep b.state.tracker.telemetry.completedShards) := by
    refine ⟨?_, h.ledger.movedEntries, ?_, h.ledger.entries, hs⟩
    · have := h.ledger.moved
      rw [← hleft] at this
      exact this
    · have := h.ledger.completedShards
      change b.state.tracker.telemetry.completedShards + 1 = _ +
        (b.report.completedShards + 1)
      omega
  have hsnap : (b.sweep b.state.tracker.telemetry.completedShards).state.tracker.snapshot =
      ⟨true, b.state.tracker.telemetry.completedShards + 1,
        b.state.tracker.telemetry.totalShards⟩ := by
    simp [Progress.snapshot, Batch.sweep, Progress.step, h.draining.migrating]
  unfold Batch.close
  rw [hsnap]
  dsimp only
  split
  · next heq =>
    refine ⟨_, _, rfl, rfl, rfl, ⟨?_, hled.movedEntries, hled.completedShards, hled.entries,
      hled.shards⟩, (fun he => by cases he), fun _ => .drained rfl h.fresh (hd.finish heq _) hd.count ?_⟩
    · have hfin : (leftover (b.sweep b.state.tracker.telemetry.completedShards).state.tables.finish).length
          = (leftover (b.sweep b.state.tracker.telemetry.completedShards).state.tables).length := by
        refine leftover_congr hd.placed hd.placed.finish fun k => ?_
        unfold previousLookup
        rw [show (b.sweep b.state.tracker.telemetry.completedShards).state.tables.previous = _
          from hd.previous, Option.bind_some, hd.empty heq, AList.lookup_empty]
        rfl
      have := hled.moved
      rw [← hfin] at this
      exact this
    · have := hled.completedShards
      have htot := hd.totals
      change b.state.tracker.telemetry.completedShards + 1 = _ +
        (b.report.completedShards + 1) at this
      change b.state.tracker.telemetry.totalShards = _ at htot
      change _ + (b.report.completedShards + 1) = _
      omega
  next hne =>
  have hlt : b.state.tracker.telemetry.completedShards + 1 <
      (p.set b.state.tracker.telemetry.completedShards none).length := by
    have := hd.completed
    have htot := hd.total
    change b.state.tracker.telemetry.completedShards + 1 ≤ _ at this
    change b.state.tracker.telemetry.totalShards = _ at htot
    omega
  split
  · next hstop =>
    refine ⟨_, _, rfl, rfl, rfl, hled.finish _ _ rfl rfl, (fun he => by cases he), fun _ =>
      .stopped h.incomplete hd hlt (.inl ⟨rfl, fun h0 => ?_⟩)⟩
    rcases hstop with hstop | hstop
    · simp at hstop
    · exact absurd h0 hstop.1
  · refine ⟨_, _, rfl, rfl, rfl, hled.finish _ _ rfl rfl, fun _ =>
      ⟨_, ⟨hd, hlt, hled.finish _ _ rfl rfl, h.incomplete, h.fresh, fun _ => hnil,
        fun hl => ?_⟩, List.length_set⟩, (fun he => by cases he)⟩
    have hl : b.loadedIndex = some (b.state.tracker.telemetry.completedShards + 1) := hl
    rw [h.loaded] at hl
    exact absurd (Option.some.inj hl) (Nat.ne_of_lt (Nat.lt_succ_self _))

/-- One iteration moves an entry or retires a source, and keeps the invariant. -/
theorem Working.turn (h : Working hash s₀ budget b p) (env : Env K V) (started : Nat)
    (hs : b.report.completedShards < budget.maxShards)
    (hm : b.report.movedEntries < budget.maxEntries) :
    ∃ b' again, b.turn env budget started hash = .ok (b', again) ∧ b.done < b'.done ∧
      Ledger s₀ budget b' ∧
      (again = true → ∃ p', Working hash s₀ budget b' p' ∧ p'.length = p.length) ∧
      (again = false → Ends hash s₀ budget b') := by
  obtain ⟨b₁, p₁, hmove, hmid, hlen, hc, hrc, hdone⟩ := h.moveKey env started hm
  unfold Batch.turn
  rw [h.snapshot]
  dsimp only
  rw [hmove]
  dsimp only
  have hdr := drainedSource_iff (i := b.state.tracker.telemetry.completedShards)
    hmid.draining.previous
  by_cases he : slot p₁ b.state.tracker.telemetry.completedShards = ∅
  · rw [if_pos (hdr.mpr he), hdr.mpr he]
    obtain ⟨b', again, hclose, hme, hcs, hled, hwork, hend⟩ :=
      hmid.sweep env started (by rw [hrc]; exact hs) (by rw [hc]; exact he)
    rw [hc] at hclose
    refine ⟨b', again, by rw [hclose], ?_, hled, fun ha => ?_, hend⟩
    · unfold Batch.done
      omega
    · obtain ⟨p', hw, hl⟩ := hwork ha
      exact ⟨p', hw, hl.trans hlen⟩
  · have hf : drainedSource
        (b₁.state.tables.source b.state.tracker.telemetry.completedShards) = false := by
      rw [← Bool.not_eq_true, hdr]
      exact he
    rw [hf]
    obtain ⟨b', again, hclose, hme, hcs, hled, hwork, hend⟩ :=
      hmid.keep env started (by rw [hc]; exact he)
    refine ⟨b', again, by simp [hclose], ?_, hled, fun ha => ⟨p₁, hwork ha, hlen⟩, hend⟩
    rcases hdone with hdone | ⟨_, hempty⟩
    · unfold Batch.done
      omega
    · exact absurd hempty he

/-- With enough fuel the loop ends; it does something unless its budget is empty. -/
theorem Working.loop (env : Env K V) (started : Nat) (fuel : Nat) :
    ∀ {b : Batch K V} {p : Shards K V}, Working hash s₀ budget b p →
      (leftover b.state.tables).length + p.length -
        b.state.tracker.telemetry.completedShards < fuel →
      ∃ b', batchLoop env budget started hash fuel b = .ok b' ∧ Ledger s₀ budget b' ∧
        Ends hash s₀ budget b' ∧ (b.report.completedShards < budget.maxShards →
          b.report.movedEntries < budget.maxEntries → b.done < b'.done) := by
  induction fuel with
  | zero => exact fun _ hf => absurd hf (Nat.not_lt_zero _)
  | succ fuel ih =>
    intro b p h hf
    unfold batchLoop
    split
    · next hguard =>
      obtain ⟨b₁, again, hturn, hdone, hled, hwork, hend⟩ := h.turn env started hguard.1 hguard.2
      rw [hturn]
      cases again with
      | false => exact ⟨b₁, rfl, hled, hend rfl, fun _ _ => hdone⟩
      | true =>
        obtain ⟨p₁, hw, hlen⟩ := hwork rfl
        have hmoved := h.ledger.moved
        have hmoved₁ := hled.moved
        have hc := h.ledger.completedShards
        have hc₁ := hled.completedShards
        have hlt := hw.unfinished
        have hlt₀ := h.unfinished
        unfold Batch.done at hdone
        obtain ⟨b', hloop, hled', hends, hmore⟩ := ih hw (by omega)
        refine ⟨b', hloop, hled', hends, fun _ _ => ?_⟩
        by_cases hg : b₁.report.completedShards < budget.maxShards ∧
            b₁.report.movedEntries < budget.maxEntries
        · have := hmore hg.1 hg.2
          unfold Batch.done at this ⊢
          omega
        · cases fuel with
          | zero => cases hloop
          | succ fuel =>
            unfold batchLoop at hloop
            rw [if_neg hg] at hloop
            cases hloop
            exact hdone
    · next hguard =>
      exact ⟨b, rfl, h.ledger, .stopped h.incomplete h.draining h.unfinished
        (.inr ⟨h.fresh, hguard⟩), fun hs hm => absurd ⟨hs, hm⟩ hguard⟩

end Turn

end Starshard.Migration
