import Starshard.Proof.Unwind

/-! Steps of verified code, among them those that can be its last. -/
namespace Starshard

open Data Concurrent
open Function (update)

variable {K V : Type} [DecidableEq K] {env : Env K V} {L : Lifecycle K V} {alone : Prop}
  {v : View K V L.State} {α : Type} {Φ : α → View K V L.State → Prop}

/-- The guards of a call that was cut are dropped. -/
theorem Settled.unwinds (hs : Settled env.hash v) :
    (protocol env L alone).Unwinds (Guard.unwind v.gs) ((protocol env L alone).relax v)
      (fun x => (protocol env L alone).Released x) := by
  have hs' : Settled env.hash { v with spec := fun _ => True } :=
    hs.frame (.refl _) (fun _ => rfl) rfl rfl rfl fun h => h
  exact Starshard.unwinds hs' fun _ => trivial

theorem cuts_static {a : Act K V} (hs : Settled env.hash v)
    (ha : ∀ s s' : State K V L.State, cut env L a s s' → s' = s) :
    (protocol env L alone).Cuts a v := by
  intro t s G g hv s' hc
  obtain rfl := ha s s' hc
  exact ⟨g, v, moves_refl hv, hs.unwinds⟩

theorem wp_user {f : Unit → Prog K V α} (hs : Settled env.hash v)
    (h : (protocol env L alone).Wp (f ()) v Φ) :
    (protocol env L alone).Wp (act .user >>= f) v Φ :=
  ⟨cuts_static hs fun _ _ h => h, rule_user h⟩

theorem wp_life {c : LifeCall K V} {f : c.Reply → Prog K V α} (hs : Settled env.hash v)
    (h : ∀ r e, (protocol env L alone).Wp (f r) { v with st := { v.st with life := e } } Φ) :
    (protocol env L alone).Wp (act (.life c) >>= f) v Φ := by
  refine ⟨fun t s G g hv s' hc => ?_, rule_life h⟩
  obtain ⟨-, -, e, rfl⟩ := hc
  refine ⟨g, { v with st := { v.st with life := e } },
    moves_frame hv (sameCore_life s e) rfl rfl (sameCore_life v.st e) fun h => by rw [h], ?_⟩
  have hs' : Settled env.hash { v with st := { v.st with life := e } } :=
    hs.frame (sameCore_life v.st e).tables (fun _ => rfl) rfl rfl rfl fun h => h
  exact hs'.unwinds

section Locks

variable {l : LockId} {m : Mode} {f : Unit → Prog K V α}

theorem cuts_lock (hs : Settled env.hash v) : (protocol env L alone).Cuts (.lock l m) v :=
  cuts_static hs fun _ _ h => h.2.2

theorem wp_lock (hc : Clean env.hash v.gs v.toWorld) (hs : Stack v.gs)
    (hin : l.inner → Owns v.gs .routing) (hfree : ∀ x ∈ v.gs, ¬ x.excludes l m)
    (hroot : ∀ id, l = .shard id → Pinned v.gs → id ∈ v.st.live)
    (h : ∀ w, Agree env.hash v.gs v.toWorld w → Clean env.hash (.lock l m :: v.gs) w →
      (alone → w = v.toWorld) →
      (protocol env L alone).Wp (f ()) { v with toWorld := w, gs := .lock l m :: v.gs } Φ) :
    (protocol env L alone).Wp (act (.lock l m) >>= f) v Φ :=
  ⟨cuts_lock (hc.settled hs), rule_lock hc hin hfree hroot h⟩

theorem wp_lock_exclusive (hs : Settled env.hash v) (hx : Exclusive v.gs)
    (hfree : ∀ x ∈ v.gs, ¬ x.excludes l m)
    (h : (protocol env L alone).Wp (f ()) { v with gs := .lock l m :: v.gs } Φ) :
    (protocol env L alone).Wp (act (.lock l m) >>= f) v Φ :=
  ⟨cuts_lock hs, rule_lock_exclusive hx hfree h⟩

end Locks

section Tables

variable {id n : Nat} {c : Bool} {m : Assoc K V}

theorem Settled.edit (hs : Settled env.hash v) (hm : Guard.opened v.gs id = some (n, c))
    (hhome : ∀ k, m.lookup k ≠ (v.st.heap id).lookup k → v.st.home env.hash k = some id)
    (hnew : ∀ k, m.lookup k ≠ none → (v.st.heap id).lookup k = none →
      v.st.prevLookup env.hash k = none)
    (hd : (c = true ∨ m.size ≠ n) ∨
      (∀ k, m.lookup k = (v.st.heap id).lookup k) ∧ m.size = (v.st.heap id).size) :
    Settled env.hash { v with st := { v.st with heap := update v.st.heap id m } } := by
  obtain ⟨hown, hpin⟩ := hs.ordered.opened hm
  have hx := hs.single hpin
  have hw := hs.wellFormed hpin.owns
  refine ⟨hs.ordered, hs.inner, hs.single, fun _ => ?_, fun h => absurd h hx,
    fun h => absurd h hx, fun hp id' ho hn => ?_, hs.mutation, fun hp k hk => ?_⟩
  · refine hw.withHeap (State.placed_update hw fun k hk hold => ?_)
    exact ⟨hhome k (by rwa [hold]), hnew k hk hold⟩
  · have hne : id' ≠ id := by
      rintro rfl
      rw [hm] at hn
      cases hn
    show v.acc id' = (update v.st.heap id m id').size
    rw [Function.update_of_ne hne]
    exact hs.acc hp id' ho hn
  · show v.abs k = (v.st.withHeap (update v.st.heap id m)).contents env.hash k ∨ _
    by_cases hkk : m.lookup k = (v.st.heap id).lookup k
    · have hsame : ∀ j, (update v.st.heap id m j).lookup k = (v.st.heap j).lookup k := by
        intro j
        by_cases hj : j = id
        · subst hj
          simpa using hkk
        · simp [hj]
      rw [State.contents_congr hsame]
      refine (hs.keys hp k hk).imp_right fun ⟨hw', hd'⟩ => ⟨hw', hd'.imp_right ?_⟩
      rintro ⟨id', m', h₁, h₂, h₃⟩
      by_cases hid : id' = id
      · subst hid
        rw [hm] at h₂
        cases h₂
        refine ⟨id', (n, c), h₁, hm, ?_⟩
        show c = true ∨ (update v.st.heap id' m id').size ≠ n
        rw [Function.update_self]
        rcases hd with hd | ⟨-, hsize⟩
        · exact hd
        · rw [hsize]
          exact h₃
      · refine ⟨id', m', h₁, h₂, ?_⟩
        show m'.2 = true ∨ (update v.st.heap id m id').size ≠ m'.1
        rwa [Function.update_of_ne hid]
    · refine .inr ⟨.inr ⟨hpin, id, hhome k hkk, hown⟩, .inr ⟨id, (n, c), hhome k hkk, hm, ?_⟩⟩
      show c = true ∨ (update v.st.heap id m id).size ≠ n
      rw [Function.update_self]
      exact hd.resolve_right fun h => hkk (h.1 k)

theorem Settled.promote {dst src : Nat} {k : K} (hs : Settled env.hash v) (hc : Closed v.gs)
    (hp : Pinned v.gs) (hd : OwnsExcl v.gs (.shard dst)) (hsrc : OwnsExcl v.gs (.shard src))
    (hkd : v.st.home env.hash k = some dst) (hks : v.st.prevHome env.hash k = some src) :
    Settled env.hash { v with
      st := { v.st with heap := promoted v.st.heap dst src k }
      acc := promotedAcc v.st.heap v.acc dst src k } := by
  have hx := hs.single hp
  have hw := hs.wellFormed hp.owns
  have hacc : ∀ id, Owns v.gs (.shard id) → v.acc id = (v.st.heap id).size := fun id ho =>
    hs.acc hp id ho (hc id)
  refine ⟨hs.ordered, hs.inner, hs.single, fun _ => ?_, fun h => absurd h hx,
    fun h => absurd h hx, fun _ id ho _ => ?_, fun id m hm => ?_, fun _ k' hk' => ?_⟩
  · exact hw.withHeap (State.placed_promoted hw hkd hks)
  · exact promotedAcc_size hw hkd hks (hacc id ho) (hacc dst hd.owns) (hacc src hsrc.owns)
  · have hm : Guard.opened v.gs id = some m := hm
    rw [hc id] at hm
    cases hm
  · have hcon := State.contents_promoted hw hkd hks
    show v.abs k' = (v.st.withHeap (promoted v.st.heap dst src k)).contents env.hash k' ∨ _
    rw [hcon]
    refine (hs.keys hp k' hk').imp_right fun ⟨hw', hd'⟩ => ⟨hw', .inl (hd'.resolve_right ?_)⟩
    rintro ⟨id, m, -, hm, -⟩
    rw [hc id] at hm
    cases hm

theorem wp_put {k : K} {x : V} {f : Option V → Prog K V α} (hs : Settled env.hash v)
    (hm : Guard.opened v.gs id = some (n, true)) (hk : v.st.home env.hash k = some id)
    (hpk : v.st.prevLookup env.hash k = none)
    (h : (protocol env L alone).Wp (f ((v.st.heap id).lookup k))
      { v with st := { v.st with heap := update v.st.heap id ((v.st.heap id).insert k x) } } Φ) :
    (protocol env L alone).Wp (act (.put id k x) >>= f) v Φ := by
  obtain ⟨hown, hpin⟩ := hs.ordered.opened hm
  refine ⟨fun t (s : State K V L.State) G g hv s' hc => ?_, rule_put hpin hown hk hpk h⟩
  obtain ⟨m, hsub, rfl⟩ := hc
  have hheap : s.heap id = v.st.heap id := (holds_agree hv).heap id hown.owns
  rw [hheap] at hsub
  have hw := hs.wellFormed hpin.owns
  obtain ⟨-, i, hi⟩ := hs.mutation id _ hm
  have hlost : ∀ k', m.lookup k' ≠ (v.st.heap id).lookup k' →
      v.st.home env.hash k' = some id := by
    intro k' hne
    cases hold : (v.st.heap id).lookup k' with
    | none =>
      cases hm' : m.lookup k' with
      | none => exact absurd (hm'.trans hold.symm) hne
      | some y => rw [hsub k' y hm'] at hold; cases hold
    | some y =>
      rw [State.home_eq_some, hw.home_active i id hi k' y hold]
      exact hi
  have hkept : ∀ k', m.lookup k' ≠ none → (v.st.heap id).lookup k' = none →
      v.st.prevLookup env.hash k' = none := by
    intro k' hne hold
    cases hm' : m.lookup k' with
    | none => exact absurd hm' hne
    | some y => rw [hsub k' y hm'] at hold; cases hold
  exact ⟨g, _, moves_table hv hpin hown hlost hkept,
    (hs.edit hm hlost hkept (.inl (.inl rfl))).unwinds⟩

end Tables

end Starshard
