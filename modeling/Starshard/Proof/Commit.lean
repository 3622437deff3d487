import Starshard.Proof.Tables

/-! Rules that advance the abstract state: publication, counters, committed
events and snapshots. -/
namespace Starshard

open Data Concurrent
open Function (update)

variable {K V : Type} [DecidableEq K] {env : Env K V} {L : Lifecycle K V} {alone : Prop}
  {v : View K V L.State}

omit [DecidableEq K] in
theorem View.Bars.owns {E : Type} {v : View K V E} (h : v.Bars) : Owns v.gs .routing := by
  rcases h with h | ⟨h, _⟩
  · exact h.owns
  · exact h.owns

theorem rule_bump (hb : v.Bars) {Φ : Unit → View K V L.State → Prop}
    (h : Φ () { v with
      st := { v.st with published := v.st.published + 1 }
      fresh := true
      evs := v.evs ++ [Event.publish] }) :
    (protocol env L alone).Rule .bump v Φ := by
  intro t (s : State K V L.State) (G : Nat → Guards K V) (g : Ghost K V) hv
  refine ⟨.inr ⟨(), _, _, rfl, rfl⟩, fun r s' gs he => ?_⟩
  obtain ⟨rfl, rfl⟩ := he
  have hI := holds_inv hv
  have ha := holds_agree hv
  have hcons : v.Consistent env.hash alone s g := hv.cons
  have hupd : update G t v.gs = G := by rw [← holds_guards hv, Function.update_eq_self]
  let g' : Ghost K V := { g with abs := { g.abs with version := g.abs.version + 1 } }
  let v' : View K V L.State := { v with
    st := { v.st with published := v.st.published + 1 }
    fresh := true
    evs := v.evs ++ [Event.publish] }
  have hstep : Event.stepWrapping .publish g.abs g'.abs := rfl
  refine ⟨g', v', moves_of ?_ (holds_guards hv).symm ?_ (fun u hu _ _ _ => ?_) rfl
    (Nat.le_succ _) rfl rfl (.single hstep), h⟩
  · rw [holds_guards hv, hupd]
    refine ⟨hI.mutex, hI.single, hI.inner, fun hx => ?_, hI.contents, hI.acc, ?_, hI.metrics,
      fun e d he => ?_, hI.cache⟩
    · obtain ⟨hw, htot⟩ := hI.settled hx
      exact ⟨⟨hw.count_pos, hw.length, hw.previous_length, hw.previous_none, hw.migrating,
        hw.progress, hw.drained, hw.nodup, hw.bound, hw.home_active, hw.home_previous,
        hw.disjoint⟩, htot⟩
    · show g.abs.version + 1 = s.published + 1
      rw [hI.version]
    · have := (hI.labels e d he).1
      exact ⟨Nat.le_succ_of_le this, fun h => by
        have h : e = s.published + 1 := h
        omega⟩
  · refine ⟨⟨ha.shardCount, ha.previousShardCount, ha.previous, ha.layout, ha.slots, ha.active,
      ha.heap, ha.acc, ha.prev, ha.abs, fun hx => ?_⟩, fun _ => ⟨?_, fun e d he => ?_⟩,
      hcons.known, hcons.rooted, fun hal => ?_, ?_⟩
    · obtain ⟨hs, hacc⟩ := ha.exclusive hx
      exact ⟨⟨hs.shards, hs.previous, hs.heap, hs.next, hs.shardCount, hs.previousShardCount,
        hs.totalLen, congrArg (· + 1) hs.published, hs.layout⟩, hacc⟩
    · exact hb
    · exact Nat.lt_succ_of_le (hI.labels e d he).1
    · obtain ⟨h₁, h₂, h₃⟩ := holds_alone hv hal
      exact ⟨congrArg (fun st : State K V L.State =>
        { st with published := st.published + 1 }) h₁, h₂, h₃⟩
    · show v.spec (visible (v.evs ++ [Event.publish]))
      simpa using hcons.meets
  · have hr : Owns (G t) .routing := holds_guards hv ▸ hb.owns
    exact {
      shardCount := fun _ => rfl
      previousShardCount := fun _ => rfl
      previous := fun _ => rfl
      layout := fun _ => rfl
      slots := fun _ _ _ h => h
      active := fun _ _ => rfl
      heap := fun _ _ => rfl
      acc := fun _ _ => rfl
      prev := fun _ _ => rfl
      abs := fun _ _ => rfl
      exclusive := fun hx => absurd hx (hI.not_exclusive hr hu) }

theorem rule_count {m : Metric} {Φ : Unit → View K V L.State → Prop}
    (h : Φ () { v with
      st := { v.st with metrics := v.st.metrics.count m }
      evs := v.evs ++ [Event.count m] }) :
    (protocol env L alone).Rule (.count m) v Φ := by
  intro t (s : State K V L.State) (G : Nat → Guards K V) (g : Ghost K V) hv
  refine ⟨.inr ⟨(), _, _, rfl, rfl⟩, fun r s' gs he => ?_⟩
  obtain ⟨rfl, rfl⟩ := he
  have hI := holds_inv hv
  have hcons : v.Consistent env.hash alone s g := hv.cons
  have hupd : update G t v.gs = G := by rw [← holds_guards hv, Function.update_eq_self]
  have hcore : ∀ st : State K V L.State,
      State.SameCore st { st with metrics := st.metrics.count m } := fun _ =>
    ⟨rfl, rfl, rfl, rfl, rfl, rfl, rfl, rfl, rfl⟩
  let g' : Ghost K V := { g with abs := { g.abs with metrics := g.abs.metrics.count m } }
  let v' : View K V L.State := { v with
    st := { v.st with metrics := v.st.metrics.count m }
    evs := v.evs ++ [Event.count m] }
  have hstep : Event.stepWrapping (.count m) g.abs g'.abs := rfl
  refine ⟨g', v', moves_of ?_ (holds_guards hv).symm ?_
    (fun u hu _ _ _ => .of_sameCore (hcore s) rfl rfl) rfl le_rfl rfl rfl (.single hstep), h⟩
  · rw [holds_guards hv, hupd]
    refine ⟨hI.mutex, hI.single, hI.inner, fun hx => ?_, hI.contents, hI.acc, hI.version, ?_,
      hI.labels, hI.cache⟩
    · obtain ⟨hw, htot⟩ := hI.settled hx
      exact ⟨(hcore s).tables.wellFormed hw, htot⟩
    · show g.abs.metrics.count m = s.metrics.count m
      rw [hI.metrics]
  · refine ⟨?_, hcons.fresh, hcons.known, hcons.rooted, fun hal => ?_, ?_⟩
    · have h₁ : Agree env.hash v.gs ⟨{ v.st with metrics := v.st.metrics.count m }, v.abs, v.acc⟩
          v.toWorld := .of_sameCore (hcore v.st).symm rfl rfl
      have h₂ : Agree env.hash v.gs ⟨s, g.abs.contents, g.acc⟩
          ⟨{ s with metrics := s.metrics.count m }, g.abs.contents, g.acc⟩ :=
        .of_sameCore (hcore s) rfl rfl
      exact (h₁.trans (holds_agree hv)).trans h₂
    · obtain ⟨h₁, h₂, h₃⟩ := holds_alone hv hal
      exact ⟨congrArg (fun st : State K V L.State =>
        { st with metrics := st.metrics.count m }) h₁, h₂, h₃⟩
    · show v.spec (visible (v.evs ++ [Event.count m]))
      simpa using hcons.meets

/-- Data events are committed in one step: the abstract contents catch up with what
the task did to the keys it may write. -/
theorem shift_emits {es : List (Event K V)} (he : ∀ e ∈ es, e.isData)
    (hkeys : ∀ e ∈ es, ∀ k, e.keys k → Reads env.hash v.gs v.st k) {c : Contents K V}
    (heff : Event.effects es v.abs c)
    (hc : ∀ k, Reads env.hash v.gs v.st k →
      c k = v.abs k ∨ (Writes env.hash v.gs v.st k ∧ v.fresh))
    (hspec : v.spec (visible v.evs ++ es)) {Ψ : View K V L.State → Prop}
    (h : ∀ abs, (∀ k, Reads env.hash v.gs v.st k → abs k = c k) →
      Ψ { v with abs := abs, evs := v.evs ++ es }) :
    (protocol env L alone).Shift v Ψ := by
  intro t (s : State K V L.State) (G : Nat → Guards K V) (g : Ghost K V) hv
  have hI := holds_inv hv
  have ha := holds_agree hv
  have hcons : v.Consistent env.hash alone s g := hv.cons
  have hG := holds_guards hv
  have hupd : update G t v.gs = G := by rw [← hG, Function.update_eq_self]
  obtain ⟨d, hd, hread, hother⟩ := Event.local_effects he hkeys heff fun k hk => ha.abs k hk
  -- only keys the task may write change, and only after it published
  have hsame : ∀ k, ¬ (Writes env.hash v.gs v.st k ∧ v.fresh) → d k = g.abs.contents k := by
    intro k hk
    by_cases hkk : Reads env.hash v.gs v.st k
    · have h₁ : g.abs.contents k = v.abs k := ha.abs k hkk
      rw [hread k hkk, h₁]
      exact (hc k hkk).resolve_right hk
    · exact hother k fun e he' hek => hkk (hkeys e he' k hek)
  have hwrites : ∀ k, Writes env.hash v.gs v.st k → Writes env.hash v.gs s k := fun k hk =>
    ha.writes hk
  let g' : Ghost K V := { g with abs := { g.abs with contents := d } }
  let v' : View K V L.State := { v with abs := d, evs := v.evs ++ es }
  refine ⟨g', v', moves_of ?_ rfl ?_ (fun u hu _ _ _ => ?_) rfl le_rfl rfl rfl
    (Event.replay_of_effects he hd), h d hread⟩
  · show Inv env.hash s (update G t v.gs) g'
    rw [hupd]
    refine ⟨hI.mutex, hI.single, hI.inner, hI.settled, fun k hk => ?_, hI.acc, hI.version,
      hI.metrics, fun l c' hl => ?_, hI.cache⟩
    · show d k = s.contents env.hash k
      rw [hsame k fun hw => hk t (hG ▸ hwrites k hw.1)]
      exact hI.contents k hk
    · refine ⟨(hI.labels l c' hl).1, fun hle => ?_⟩
      show c' = d
      by_cases hf : v.fresh
      · have := (hcons.fresh hf).2 l c' hl
        omega
      · rw [(hI.labels l c' hl).2 hle]
        funext k
        exact (hsame k fun hw => hf hw.2).symm
  · refine ⟨⟨ha.shardCount, ha.previousShardCount, ha.previous, ha.layout, ha.slots, ha.active,
      ha.heap, ha.acc, ha.prev, fun _ _ => rfl, ha.exclusive⟩, hcons.fresh, hcons.known,
      hcons.rooted, fun hal => ?_, ?_⟩
    · obtain ⟨h₁, h₂, h₃⟩ := holds_alone hv hal
      exact ⟨h₁, rfl, h₃⟩
    · show v.spec (visible (v.evs ++ es))
      rwa [visible_append, visible_all he]
  · refine ⟨fun _ => rfl, fun _ => rfl, fun _ => rfl, fun _ => rfl, fun _ _ _ h => h,
      fun _ _ => rfl, fun _ _ => rfl, fun _ _ => rfl, fun _ _ => rfl, fun k hk => ?_,
      fun _ => ⟨.refl _, rfl⟩⟩
    refine hsame k fun hw => ?_
    exact hI.reads_writes hk (Ne.symm hu) (hG ▸ hwrites k hw.1)

theorem shift_emit {e : Event K V} (he : e.isData)
    (hkeys : ∀ k, e.keys k → Reads env.hash v.gs v.st k) {c : Contents K V}
    (heff : e.effect v.abs c)
    (hc : ∀ k, Reads env.hash v.gs v.st k →
      c k = v.abs k ∨ (Writes env.hash v.gs v.st k ∧ v.fresh))
    (hspec : v.spec (visible v.evs ++ [e])) {Ψ : View K V L.State → Prop}
    (h : ∀ abs, (∀ k, Reads env.hash v.gs v.st k → abs k = c k) →
      Ψ { v with abs := abs, evs := v.evs ++ [e] }) :
    (protocol env L alone).Shift v Ψ :=
  shift_emits (v := v) (by simpa using he) (by simpa using hkeys)
    (show Event.effects [e] v.abs c from ⟨c, heff, rfl⟩) hc hspec h

section Snapshot

variable {t : Nat} {G : Nat → Guards K V} {s : State K V L.State} {g : Ghost K V}

theorem moves_snapshot (hv : holds env L alone t v s G g)
    (hfresh : ∀ u, u ≠ t → ∀ w : View K V L.State, w.gs = G u →
      w.Consistent env.hash alone s g → w.fresh = false)
    (hspec : v.spec (visible v.evs ++ [Event.snapshot s.writeEpoch g.abs.contents])) :
    (protocol env L alone).Moves t G s g v s v.gs
      { g with abs := { g.abs with
        labels := update g.abs.labels s.published (some g.abs.contents) } }
      { v with
        fresh := false
        known := update v.known s.writeEpoch (some g.abs.contents)
        evs := v.evs ++ [Event.snapshot s.writeEpoch g.abs.contents] } := by
  have hI := holds_inv hv
  have ha := holds_agree hv
  have hcons : v.Consistent env.hash alone s g := hv.cons
  have hupd : update G t v.gs = G := by rw [← holds_guards hv, Function.update_eq_self]
  have hlabel : ∀ d, g.abs.labels s.published = some d → d = g.abs.contents := fun d hd =>
    (hI.labels _ d hd).2 rfl
  have hkeep : ∀ e d, g.abs.labels e = some d →
      update g.abs.labels s.published (some g.abs.contents) e = some d := by
    intro e d he
    by_cases hes : e = s.published
    · subst hes
      rw [Function.update_self, hlabel d he]
    · rwa [Function.update_of_ne hes]
  refine ⟨rfl, rfl, ?_, ?_, fun hna u hu w hw hc => ?_, ⟨[_], rfl, .single ?_⟩⟩
  · show Inv env.hash s (update G t v.gs) _
    rw [hupd]
    refine ⟨hI.mutex, hI.single, hI.inner, hI.settled, hI.contents, hI.acc, hI.version,
      hI.metrics, fun e d he => ?_, fun e items hc => ?_⟩
    · have he : update g.abs.labels s.published (some g.abs.contents) e = some d := he
      by_cases hes : e = s.published
      · subst hes
        rw [Function.update_self] at he
        exact ⟨le_rfl, fun _ => (Option.some.inj he).symm⟩
      · rw [Function.update_of_ne hes] at he
        exact hI.labels e d he
    · obtain ⟨n, d, hn, hd, hr⟩ := hI.cache e items hc
      exact ⟨n, d, hn, hkeep n d hd, hr⟩
  · refine ⟨ha, fun hf => (by cases hf), fun e d he => ?_, hcons.rooted, hcons.alone, ?_⟩
    · have he : update v.known s.writeEpoch (some g.abs.contents) e = some d := he
      by_cases hes : e = s.writeEpoch
      · subst hes
        rw [Function.update_self] at he
        rw [← he]
        exact ⟨s.published, rfl, Function.update_self _ _ _⟩
      · rw [Function.update_of_ne hes] at he
        obtain ⟨n, hn, hd⟩ := hcons.known e d he
        exact ⟨n, hn, hkeep n d hd⟩
    · show v.spec (visible (v.evs ++ [Event.snapshot s.writeEpoch g.abs.contents]))
      rwa [visible_append, visible_snapshot]
  · have hw : w.gs = G u := hw
    have hc : w.Consistent env.hash alone s g := hc
    refine ⟨hc.agree, fun hf => ?_, fun e d he => ?_, hc.rooted, fun h => absurd h hna, hc.meets⟩
    · rw [hfresh u hu w hw hc] at hf
      cases hf
    · obtain ⟨n, hn, hd⟩ := hc.known e d he
      exact ⟨n, hn, hkeep n d hd⟩
  · suffices hstep : Event.step (.snapshot g.abs.version g.abs.contents) g.abs { g.abs with
        labels := update g.abs.labels s.published (some g.abs.contents) } from
      ⟨congrArg wrapping hI.version.symm, .inl hstep⟩
    rw [hI.version]
    refine ⟨rfl, hI.version.symm, ?_, rfl⟩
    cases hl : g.abs.labels s.published with
    | none => exact .inl rfl
    | some d => exact .inr (congrArg some (hlabel d hl))

/-- All directories and tables are locked. -/
structure Covered (v : View K V L.State) : Prop where
  pinned : Pinned v.gs
  active : Owns v.gs .active
  shards : ∀ id ∈ v.st.live, Owns v.gs (.shard id)

omit [DecidableEq K] in
theorem Covered.reads (h : Covered v) (k : K) : Reads env.hash v.gs v.st k := by
  refine .inr ⟨h.pinned, ?_⟩
  cases hid : v.st.home env.hash k with
  | none => exact h.active
  | some id => exact h.shards id (State.live_of_home hid)

/-- A version that came back after the epoch wrapped shows the contents it had then. -/
theorem moves_stale (hv : holds env L alone t v s G g) {d : Contents K V} {n : Nat}
    (hn : s.writeEpoch = wrapping n) (hl : g.abs.labels n = some d) (hne : n ≠ s.published)
    (hspec : v.spec (visible v.evs ++ [Event.snapshot s.writeEpoch d])) :
    (protocol env L alone).Moves t G s g v s v.gs g { v with
      fresh := false
      known := update v.known s.writeEpoch (some d)
      evs := v.evs ++ [Event.snapshot s.writeEpoch d] } := by
  have hI := holds_inv hv
  have hcons : v.Consistent env.hash alone s g := hv.cons
  have hupd : update G t v.gs = G := by rw [← holds_guards hv, Function.update_eq_self]
  have hlt : n < g.abs.version := by
    rw [hI.version]
    exact lt_of_le_of_ne (hI.labels n d hl).1 hne
  have hstep : Event.stepWrapping (.snapshot s.writeEpoch d) g.abs g.abs :=
    ⟨congrArg wrapping hI.version.symm, .inr ⟨rfl, n, hlt, hn.symm, hl⟩⟩
  refine moves_of (hupd.symm ▸ hI) rfl ?_ (fun u _ _ _ _ => .refl _ _) rfl le_rfl rfl rfl
    (.single hstep)
  refine ⟨hcons.agree, fun hf => (by cases hf), fun e d' he => ?_, hcons.rooted, hcons.alone, ?_⟩
  · have he : update v.known s.writeEpoch (some d) e = some d' := he
    by_cases hes : e = s.writeEpoch
    · subst hes
      rw [Function.update_self] at he
      exact ⟨n, hn, he ▸ hl⟩
    · rw [Function.update_of_ne hes] at he
      exact hcons.known e d' he
  · show v.spec (visible (v.evs ++ [Event.snapshot s.writeEpoch d]))
    rwa [visible_append, visible_snapshot]

/-- The epoch read while everything is locked names the locked contents. -/
theorem rule_capture (hc : Covered v) (hspec : ∀ e, v.spec (visible v.evs ++ [Event.snapshot e v.abs]))
    {Φ : Nat → View K V L.State → Prop}
    (h : ∀ e, Φ e { v with
      fresh := false
      known := update v.known e (some v.abs)
      evs := v.evs ++ [Event.snapshot e v.abs] }) :
    (protocol env L alone).Rule .writeEpoch v Φ := by
  intro t (s : State K V L.State) (G : Nat → Guards K V) (g : Ghost K V) hv
  refine ⟨.inr ⟨_, _, _, rfl, rfl, rfl⟩, fun r s' gs he => ?_⟩
  obtain ⟨hr, rfl, rfl⟩ := he
  have hr : r = s'.writeEpoch := hr
  subst hr
  have ha := holds_agree hv
  have hI := holds_inv hv
  have habs : g.abs.contents = v.abs := funext fun k => ha.abs k (hc.reads k)
  rw [holds_guards hv]
  refine ⟨_, _, moves_snapshot hv (fun u hu w hw hcw => ?_) (habs ▸ hspec s'.writeEpoch), ?_⟩
  · -- a task that published still bars this capture with its lock
    by_contra hf
    have hf : w.fresh = true := by simpa using hf
    have hr : Owns (G t) .routing := holds_guards hv ▸ hc.pinned.owns
    rcases (hcw.fresh hf).1 with hx | ⟨hp, i, id, hi, ho⟩
    · exact hI.not_exclusive hr hu (hw ▸ hx)
    · have hi' : s'.shards[i]? = some (some id) := hcw.agree.slots hp.owns i id hi
      have hsh : s'.shards = v.st.shards := ha.active hc.pinned.owns hc.active
      have hlive : id ∈ v.st.live := State.mem_live.mpr (.inl ⟨i, hsh ▸ hi'⟩)
      exact hI.mutex u t _ hu (hw ▸ ho) (holds_guards hv ▸ hc.shards id hlive)
  · rw [habs]
    exact h s'.writeEpoch

/-- The epoch of cached data is still the current one, or is again. -/
theorem rule_hit {e : Nat} {d : Contents K V} (hk : v.known e = some d)
    (hspec : v.spec (visible v.evs ++ [Event.snapshot e d])) {Φ : Nat → View K V L.State → Prop}
    (hmiss : ∀ n, n ≠ e → Φ n v)
    (hhit : Φ e { v with
      fresh := false
      known := update v.known e (some d)
      evs := v.evs ++ [Event.snapshot e d] }) :
    (protocol env L alone).Rule .writeEpoch v Φ := by
  intro t (s : State K V L.State) (G : Nat → Guards K V) (g : Ghost K V) hv
  refine ⟨.inr ⟨_, _, _, rfl, rfl, rfl⟩, fun r s' gs he => ?_⟩
  obtain ⟨hr, rfl, rfl⟩ := he
  have hr : r = s'.writeEpoch := hr
  subst hr
  have hI := holds_inv hv
  rw [holds_guards hv]
  by_cases heq : s'.writeEpoch = e
  · subst heq
    obtain ⟨n, hn, hl⟩ := hv.cons.known _ d hk
    by_cases hcur : n = s'.published
    · subst hcur
      have hd : d = g.abs.contents := (hI.labels _ d hl).2 rfl
      subst hd
      refine ⟨_, _, moves_snapshot hv (fun u hu w hw hcw => ?_) hspec, hhit⟩
      by_contra hf
      have := (hcw.fresh (by simpa using hf)).2 _ _ hl
      omega
    · exact ⟨_, _, moves_stale hv hn hl hcur hspec, hhit⟩
  · exact ⟨g, v, moves_refl hv, hmiss _ heq⟩

theorem rule_outdated {version : Nat} (hspec : v.spec (visible v.evs ++ [Event.outdated version]))
    {Φ : Nat → View K V L.State → Prop} (hcur : Φ version v)
    (hold : ∀ n, n ≠ version → Φ n { v with evs := v.evs ++ [Event.outdated version] }) :
    (protocol env L alone).Rule .writeEpoch v Φ := by
  intro t (s : State K V L.State) (G : Nat → Guards K V) (g : Ghost K V) hv
  refine ⟨.inr ⟨_, _, _, rfl, rfl, rfl⟩, fun r s' gs he => ?_⟩
  obtain ⟨hr, rfl, rfl⟩ := he
  have hr : r = s'.writeEpoch := hr
  subst hr
  rw [holds_guards hv]
  by_cases heq : s'.writeEpoch = version
  · exact ⟨g, v, moves_refl hv, heq ▸ hcur⟩
  · have hI := holds_inv hv
    have hcons : v.Consistent env.hash alone s' g := hv.cons
    have hupd : update G t v.gs = G := by rw [← holds_guards hv, Function.update_eq_self]
    have hstep : Event.stepWrapping (.outdated version) g.abs g.abs := by
      refine ⟨?_, rfl⟩
      rw [hI.version]
      exact Ne.symm heq
    let v' : View K V L.State := { v with evs := v.evs ++ [Event.outdated version] }
    refine ⟨g, v', moves_of (hupd.symm ▸ hI) rfl ?_ (fun u _ _ _ _ => .refl _ _) rfl le_rfl rfl rfl
      (.single hstep), hold _ heq⟩
    refine ⟨hcons.agree, hcons.fresh, hcons.known, hcons.rooted, hcons.alone, ?_⟩
    show v.spec (visible (v.evs ++ [Event.outdated version]))
    rwa [visible_append, visible_outdated]

theorem rule_readCache {Φ : Option (Nat × List (K × V)) → View K V L.State → Prop}
    (hnone : Φ none v)
    (hsome : ∀ e items d, Represents items d →
      Φ (some (e, items)) { v with known := update v.known e (some d) }) :
    (protocol env L alone).Rule .readCache v Φ := by
  intro t (s : State K V L.State) (G : Nat → Guards K V) (g : Ghost K V) hv
  refine ⟨.inr ⟨_, _, _, rfl, rfl, rfl⟩, fun r s' gs he => ?_⟩
  obtain ⟨hr, rfl, rfl⟩ := he
  have hr : r = s'.cache := hr
  subst hr
  have hI := holds_inv hv
  have hcons : v.Consistent env.hash alone s' g := hv.cons
  rw [holds_guards hv]
  cases hc : s'.cache with
  | none => exact ⟨g, v, moves_refl hv, hnone⟩
  | some c =>
    obtain ⟨e, items⟩ := c
    obtain ⟨n, d, hn, hd, hr⟩ := hI.cache e items hc
    have hupd : update G t v.gs = G := by rw [← holds_guards hv, Function.update_eq_self]
    let v' : View K V L.State := { v with known := update v.known e (some d) }
    refine ⟨g, v', moves_of (hupd.symm ▸ hI) rfl ?_ (fun u _ _ _ _ => .refl _ _) rfl le_rfl rfl
      (List.append_nil _).symm .nil, hsome e items d hr⟩
    refine ⟨hcons.agree, hcons.fresh, fun e' d' he => ?_, hcons.rooted, hcons.alone, hcons.meets⟩
    have he : update v.known e (some d) e' = some d' := he
    by_cases hee : e' = e
    · subst hee
      rw [Function.update_self] at he
      exact ⟨n, hn, Option.some.inj he ▸ hd⟩
    · rw [Function.update_of_ne hee] at he
      exact hcons.known e' d' he

theorem rule_writeCache {e : Nat} {items : List (K × V)} {d : Contents K V}
    (hk : v.known e = some d) (hr : Represents items d) {Φ : Unit → View K V L.State → Prop}
    (h : Φ () { v with st := { v.st with cache := some (e, items) } }) :
    (protocol env L alone).Rule (.writeCache (some (e, items))) v Φ := by
  intro t (s : State K V L.State) (G : Nat → Guards K V) (g : Ghost K V) hv
  refine ⟨.inr ⟨(), _, _, rfl, rfl⟩, fun r s' gs he => ?_⟩
  obtain ⟨rfl, rfl⟩ := he
  have hI := holds_inv hv
  have hcons : v.Consistent env.hash alone s g := hv.cons
  have hupd : update G t v.gs = G := by rw [← holds_guards hv, Function.update_eq_self]
  have hcore : ∀ st : State K V L.State,
      State.SameCore st { st with cache := some (e, items) } := fun _ =>
    ⟨rfl, rfl, rfl, rfl, rfl, rfl, rfl, rfl, rfl⟩
  let v' : View K V L.State := { v with st := { v.st with cache := some (e, items) } }
  refine ⟨g, v', moves_of ?_ (holds_guards hv).symm ?_
    (fun u hu _ _ _ => .of_sameCore (hcore s) rfl rfl) rfl le_rfl rfl
    (List.append_nil _).symm .nil, h⟩
  · rw [holds_guards hv, hupd]
    refine ⟨hI.mutex, hI.single, hI.inner, fun hx => ?_, hI.contents, hI.acc, hI.version,
      hI.metrics, hI.labels, fun e' items' hc => ?_⟩
    · obtain ⟨hw, htot⟩ := hI.settled hx
      exact ⟨(hcore s).tables.wellFormed hw, htot⟩
    · have hc : some (e, items) = some (e', items') := hc
      cases hc
      obtain ⟨n, hn, hd⟩ := hcons.known e d hk
      exact ⟨n, d, hn, hd, hr⟩
  · refine ⟨?_, hcons.fresh, hcons.known, hcons.rooted, fun hal => ?_, hcons.meets⟩
    · have h₁ : Agree env.hash v.gs ⟨{ v.st with cache := some (e, items) }, v.abs, v.acc⟩
          v.toWorld := .of_sameCore (hcore v.st).symm rfl rfl
      have h₂ : Agree env.hash v.gs ⟨s, g.abs.contents, g.acc⟩
          ⟨{ s with cache := some (e, items) }, g.abs.contents, g.acc⟩ :=
        .of_sameCore (hcore s) rfl rfl
      exact (h₁.trans (holds_agree hv)).trans h₂
    · obtain ⟨h₁, h₂, h₃⟩ := holds_alone hv hal
      exact ⟨congrArg (fun st : State K V L.State =>
        { st with cache := some (e, items) }) h₁, h₂, h₃⟩

end Snapshot

end Starshard
