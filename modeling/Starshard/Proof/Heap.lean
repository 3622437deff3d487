import Starshard.Proof.Topology

/-! How the readings of a state change with its tables. -/
namespace Starshard

open Data

variable {K V E : Type} [DecidableEq K]

namespace State

variable {hash : K → Nat} {s : State K V E} {h : Nat → Assoc K V}

def withHeap (s : State K V E) (h : Nat → Assoc K V) : State K V E := { s with heap := h }

omit [DecidableEq K] in
@[simp] theorem withHeap_home (k : K) : (s.withHeap h).home hash k = s.home hash k := rfl

omit [DecidableEq K] in
@[simp] theorem withHeap_prevHome (k : K) : (s.withHeap h).prevHome hash k = s.prevHome hash k := rfl

omit [DecidableEq K] in
@[simp] theorem withHeap_heap : (s.withHeap h).heap = h := rfl

omit [DecidableEq K] in
@[simp] theorem withHeap_live : (s.withHeap h).live = s.live := rfl

/-- New entries appear only in the active shard of their key, and only when the
previous shard does not have them. -/
def Placed (hash : K → Nat) (s : State K V E) (h : Nat → Assoc K V) : Prop :=
  ∀ id k, (h id).lookup k ≠ none → (s.heap id).lookup k = none →
    s.home hash k = some id ∧ (s.withHeap h).prevLookup hash k = none

theorem WellFormed.withHeap (hw : s.WellFormed hash) (hp : s.Placed hash h) :
    (s.withHeap h).WellFormed hash := by
  have hprev : ∀ k, (s.withHeap h).prevLookup hash k ≠ none → s.prevLookup hash k ≠ none := by
    intro k hk
    rw [prevLookup, withHeap_prevHome] at hk
    rw [prevLookup]
    cases hid : s.prevHome hash k with
    | none => simp [hid] at hk
    | some id =>
      simp only [hid, Option.bind_some] at hk ⊢
      intro hn
      exact hw.home_ne_prevHome (hp id k hk hn).1 hid
  refine ⟨hw.count_pos, hw.length, hw.previous_length, hw.previous_none, hw.migrating,
    hw.progress, hw.drained, hw.nodup, hw.bound, fun i id hi k v hv => ?_,
    fun i id hi k v hv => ?_, fun k => ?_⟩
  · cases hold : (s.heap id).lookup k with
    | some v' => exact hw.home_active i id hi k v' hold
    | none =>
      have hhome := (hp id k (by
        show (h id).lookup k ≠ none
        rw [show (h id).lookup k = some v from hv]
        simp) hold).1
      exact slot_unique (List.nodup_append'.mp hw.nodup).1 (home_eq_some.mp hhome) hi
  · cases hold : (s.heap id).lookup k with
    | some v' => exact hw.home_previous i id hi k v' hold
    | none =>
      have hhome := (hp id k (by
        show (h id).lookup k ≠ none
        rw [show (h id).lookup k = some v from hv]
        simp) hold).1
      exact absurd hi (hw.active_ne_previous (home_eq_some.mp hhome))
  · by_contra hne
    obtain ⟨ha, hpk⟩ := not_or.mp hne
    have hact : s.activeLookup hash k = none := (hw.disjoint k).resolve_right (hprev k hpk)
    rw [activeLookup, withHeap_home] at ha
    rw [activeLookup] at hact
    cases hid : s.home hash k with
    | none => simp [hid] at ha
    | some id =>
      simp only [hid, Option.bind_some] at ha hact
      exact hpk (hp id k ha hact).2

theorem WellFormed.withLen (hw : s.WellFormed hash) (n : Nat) :
    WellFormed hash { s with totalLen := n } :=
  ⟨hw.count_pos, hw.length, hw.previous_length, hw.previous_none, hw.migrating, hw.progress,
    hw.drained, hw.nodup, hw.bound, hw.home_active, hw.home_previous, hw.disjoint⟩

section Update

variable {id : Nat} {m : Assoc K V} {k : K}

open Function (update)

theorem contents_eq (s : State K V E) (k : K) : s.contents hash k =
    (((s.home hash k).bind fun id => (s.heap id).lookup k) <|>
      ((s.prevHome hash k).bind fun id => (s.heap id).lookup k)) := rfl

theorem contents_congr (hk : ∀ id, (h id).lookup k = (s.heap id).lookup k) :
    (s.withHeap h).contents hash k = s.contents hash k := by
  simp only [contents_eq, withHeap_home, withHeap_prevHome]
  simp [hk]

theorem prevLookup_congr (hk : ∀ id, (h id).lookup k = (s.heap id).lookup k) :
    (s.withHeap h).prevLookup hash k = s.prevLookup hash k := by
  simp only [prevLookup, withHeap_prevHome]
  simp [hk]

theorem contents_home (hid : s.home hash k = some id) (hp : s.prevLookup hash k = none)
    (hne : s.prevHome hash k ≠ some id) :
    (s.withHeap (update s.heap id m)).contents hash k = m.lookup k := by
  have hp' : (s.withHeap (update s.heap id m)).prevLookup hash k = none := by
    rw [prevLookup] at hp ⊢
    rw [withHeap_prevHome]
    cases hq : s.prevHome hash k with
    | none => rfl
    | some j =>
      have hj : j ≠ id := fun h => hne (h ▸ hq)
      simp only [hq, Option.bind_some] at hp ⊢
      simpa [hj] using hp
  rw [contents, hp', activeLookup, withHeap_home, hid]
  simp

theorem prevLookup_home (hne : s.prevHome hash k ≠ some id) :
    (s.withHeap (update s.heap id m)).prevLookup hash k = s.prevLookup hash k := by
  rw [prevLookup, prevLookup, withHeap_prevHome]
  cases hq : s.prevHome hash k with
  | none => rfl
  | some j =>
    have hj : j ≠ id := fun h => hne (h ▸ hq)
    simp [hj]

theorem lookup_update {k' : K} (hm : ∀ k', k' ≠ k → m.lookup k' = (s.heap id).lookup k')
    (hk : k' ≠ k) (j : Nat) : (update s.heap id m j).lookup k' = (s.heap j).lookup k' := by
  by_cases hj : j = id
  · subst hj
    simpa using hm k' hk
  · simp [hj]

theorem contents_update (hid : s.home hash k = some id) (hp : s.prevLookup hash k = none)
    (hw : s.WellFormed hash) (hm : ∀ k', k' ≠ k → m.lookup k' = (s.heap id).lookup k') :
    (s.withHeap (update s.heap id m)).contents hash =
      update (s.contents hash) k (m.lookup k) := by
  funext k'
  by_cases hk : k' = k
  · subst hk
    rw [contents_home hid hp (hw.home_ne_prevHome hid), Function.update_self]
  · rw [Function.update_of_ne hk, contents_congr (lookup_update hm hk)]

theorem placed_update (hw : s.WellFormed hash) (hm : ∀ k', m.lookup k' ≠ none →
    (s.heap id).lookup k' = none → s.home hash k' = some id ∧ s.prevLookup hash k' = none) :
    s.Placed hash (update s.heap id m) := by
  intro j k' hj hold
  by_cases hji : j = id
  · subst hji
    rw [Function.update_self] at hj
    obtain ⟨hhome, hp⟩ := hm k' hj hold
    exact ⟨hhome, by rw [prevLookup_home (hw.home_ne_prevHome hhome), hp]⟩
  · rw [Function.update_of_ne hji] at hj
    exact absurd hold hj

end Update

section Promote

variable {dst src : Nat} {k : K}

theorem lookup_promoted (hne : dst ≠ src) (j : Nat) (k' : K) :
    (promoted s.heap dst src k j).lookup k' =
      if k' = k ∧ j = src then none
      else if k' = k ∧ j = dst then
        (s.heap dst).lookup k <|> (s.heap src).lookup k
      else (s.heap j).lookup k' := by
  unfold promoted
  cases hv : (s.heap src).lookup k with
  | none =>
    simp only
    split
    · next h => rw [h.1, h.2, hv]
    · split
      · next h => rw [h.1, h.2]; simp
      · rfl
  | some v =>
    simp only
    by_cases hd : j = dst
    · subst hd
      rw [Function.update_self]
      have hjs : ¬ (k' = k ∧ j = src) := fun h => hne h.2
      rw [if_neg hjs]
      by_cases hk : k' = k
      · subst hk
        simp only [and_self, if_true]
        cases hdv : (s.heap j).lookup k' <;> simp [hdv]
      · simp only [hk, false_and, if_false]
        split
        · rfl
        · exact AList.lookup_insert_ne hk
    · rw [Function.update_of_ne hd]
      by_cases hs : j = src
      · subst hs
        rw [Function.update_self]
        by_cases hk : k' = k
        · subst hk; simp
        · simp only [hk, false_and, if_false]
          exact AList.lookup_erase_ne hk
      · rw [Function.update_of_ne hs]
        simp [hs, hd]

theorem promoted_ne (heap : Nat → Assoc K V) {j : Nat} (hd : j ≠ dst)
    (hs : j ≠ src) : promoted heap dst src k j = heap j := by
  cases hv : (heap src).lookup k with
  | none => simp only [promoted, hv]
  | some v => simp only [promoted, hv, Function.update_of_ne hd, Function.update_of_ne hs]

/-- Promotion is a move: nothing changes but the place of one entry. -/
theorem contents_promoted (hw : s.WellFormed hash) (hd : s.home hash k = some dst)
    (hs : s.prevHome hash k = some src) :
    (s.withHeap (promoted s.heap dst src k)).contents hash = s.contents hash := by
  have hne : dst ≠ src := fun h => hw.home_ne_prevHome hd (h ▸ hs)
  funext k'
  by_cases hk : k' = k
  · subst hk
    simp only [contents_eq, withHeap_home, withHeap_prevHome, hd, hs, Option.bind_some]
    simp only [withHeap_heap, lookup_promoted hne]
    simp [hne]
  · exact contents_congr fun j => by rw [lookup_promoted hne]; simp [hk]

theorem prevLookup_promoted (hne : dst ≠ src) (hs : s.prevHome hash k = some src) :
    (s.withHeap (promoted s.heap dst src k)).prevLookup hash k = none := by
  rw [prevLookup, withHeap_prevHome, hs, withHeap_heap, Option.bind_some, lookup_promoted hne]
  simp

theorem placed_promoted (hw : s.WellFormed hash) (hd : s.home hash k = some dst)
    (hs : s.prevHome hash k = some src) : s.Placed hash (promoted s.heap dst src k) := by
  have hne : dst ≠ src := fun h => hw.home_ne_prevHome hd (h ▸ hs)
  intro j k' hj hold
  rw [lookup_promoted hne] at hj
  split at hj
  · exact absurd rfl hj
  · split at hj
    · next h =>
      obtain ⟨rfl, rfl⟩ := h
      exact ⟨hd, prevLookup_promoted hne hs⟩
    · exact absurd hold hj

theorem size_promoted (hw : s.WellFormed hash) (hd : s.home hash k = some dst)
    (hs : s.prevHome hash k = some src) {v : V} (hv : (s.heap src).lookup k = some v) (j : Nat) :
    (promoted s.heap dst src k j).size =
      if j = dst then (s.heap dst).size + 1
      else if j = src then (s.heap src).size - 1 else (s.heap j).size := by
  have hne : dst ≠ src := fun h => hw.home_ne_prevHome hd (h ▸ hs)
  have hdn : (s.heap dst).lookup k = none := by
    have := hw.disjoint k
    simpa [activeLookup, prevLookup, hd, hs, hv] using this
  unfold promoted
  simp only [hv]
  by_cases hjd : j = dst
  · subst hjd
    simp [hdn, Assoc.size_insert]
  · rw [Function.update_of_ne hjd, if_neg hjd]
    by_cases hjs : j = src
    · subst hjs
      simp [Assoc.size_erase, hv]
    · simp [hjs]

end Promote

end State
end Starshard
