import Starshard.Proof.Heap

/-! What the shards of a well-formed map hold together. -/
namespace Starshard

open Data
open Function (update)

variable {K V E : Type} [DecidableEq K] {hash : K → Nat} {s : State K V E} {id j : Nat} {k : K}

namespace State
namespace WellFormed

variable (hw : s.WellFormed hash)

include hw

theorem place (hid : id ∈ s.live) {x : V} (hx : (s.heap id).lookup k = some x) :
    (s.home hash k = some id ∧ s.activeLookup hash k = some x ∧ s.prevLookup hash k = none) ∨
      (s.prevHome hash k = some id ∧ s.prevLookup hash k = some x ∧
        s.activeLookup hash k = none) := by
  rcases mem_live.mp hid with ⟨i, hi⟩ | ⟨i, hi⟩
  · have hl := hw.lookup_active hi hx
    refine .inl ⟨?_, hl, (hw.disjoint k).resolve_left (by simp [hl])⟩
    rw [home_eq_some, hw.home_active i id hi k x hx]
    exact hi
  · have hl := hw.lookup_previous hi hx
    refine .inr ⟨?_, hl, (hw.disjoint k).resolve_right (by simp [hl])⟩
    rw [prevHome, hw.home_previous i id hi k x hx]
    exact hi

theorem contents_some (hid : id ∈ s.live) {x : V} (hx : (s.heap id).lookup k = some x) :
    s.contents hash k = some x := by
  rcases hw.place hid hx with ⟨-, ha, -⟩ | ⟨-, hp, ha⟩
  · simp [contents, ha]
  · simp [contents, ha, hp]

omit hw in
theorem stored {x : V} (hc : s.contents hash k = some x) :
    ∃ id ∈ s.live, (s.heap id).lookup k = some x := by
  cases ha : s.activeLookup hash k with
  | some y =>
    obtain rfl : y = x := by simpa [contents, ha] using hc
    obtain ⟨id, hid, hx⟩ := Option.bind_eq_some_iff.mp ha
    exact ⟨id, live_of_home hid, hx⟩
  | none =>
    have hp : s.prevLookup hash k = some x := by simpa [contents, ha] using hc
    obtain ⟨id, hid, hx⟩ := Option.bind_eq_some_iff.mp hp
    exact ⟨id, live_of_prevHome hid, hx⟩

theorem unique_shard (hid : id ∈ s.live) (hj : j ∈ s.live) {x y : V}
    (hx : (s.heap id).lookup k = some x) (hy : (s.heap j).lookup k = some y) : id = j := by
  rcases hw.place hid hx with ⟨h, ha, hp⟩ | ⟨h, hp, ha⟩ <;>
    rcases hw.place hj hy with ⟨h', ha', hp'⟩ | ⟨h', hp', ha'⟩
  · exact Option.some.inj (h.symm.trans h')
  · rw [ha] at ha'; cases ha'
  · rw [ha'] at ha; cases ha
  · exact Option.some.inj (h.symm.trans h')

theorem contents_shrink (hid : id ∈ s.live) {m : Assoc K V}
    (hm : ∀ k, m.lookup k = none ∨ m.lookup k = (s.heap id).lookup k) (k : K) :
    (s.withHeap (update s.heap id m)).contents hash k =
      if ((s.heap id).lookup k).isSome ∧ (m.lookup k).isNone then none
      else s.contents hash k := by
  split
  · next h =>
    obtain ⟨x, hx⟩ := Option.isSome_iff_exists.mp h.1
    have hnone := Option.isNone_iff_eq_none.mp h.2
    rcases hw.place hid hx with ⟨hh, ha, hp⟩ | ⟨hh, hp, ha⟩
    · rw [contents_home hh hp (hw.home_ne_prevHome hh), hnone]
    · have hact : (s.withHeap (update s.heap id m)).activeLookup hash k = none := by
        rw [← ha, activeLookup, activeLookup, withHeap_home, withHeap_heap]
        cases hhome : s.home hash k with
        | none => rfl
        | some j =>
          have hj : j ≠ id := fun hj => hw.home_ne_prevHome hhome (hj ▸ hh)
          simp [Function.update_of_ne hj]
      rw [contents, hact, prevLookup, withHeap_prevHome, hh]
      simp [hnone]
  · next h =>
    have heq : m.lookup k = (s.heap id).lookup k := by
      refine (hm k).elim (fun hn => ?_) fun h => h
      cases hx : (s.heap id).lookup k with
      | none => exact hn
      | some x => exact absurd ⟨by rw [hx]; rfl, by rw [hn]; rfl⟩ h
    refine contents_congr fun j => ?_
    by_cases hj : j = id
    · subst hj
      rw [Function.update_self, heq]
    · rw [Function.update_of_ne hj]

theorem contents_erase (hid : id ∈ s.live) {x : V} (hx : (s.heap id).lookup k = some x) :
    (s.withHeap (update s.heap id ((s.heap id).erase k))).contents hash =
      update (s.contents hash) k none := by
  funext k'
  rw [hw.contents_shrink hid fun k' => ?_]
  · by_cases hk : k' = k
    · subst hk
      simp [hx]
    · have heq : ((s.heap id).erase k).lookup k' = (s.heap id).lookup k' :=
        AList.lookup_erase_ne hk
      rw [Function.update_of_ne hk, if_neg]
      rw [heq]
      cases (s.heap id).lookup k' <;> simp
  · by_cases hk : k' = k
    · subst hk
      exact .inl (AList.lookup_erase _ _)
    · exact .inr (AList.lookup_erase_ne hk)

theorem shrink (id : Nat) {m : Assoc K V}
    (hm : ∀ k, m.lookup k = none ∨ m.lookup k = (s.heap id).lookup k) :
    (s.withHeap (update s.heap id m)).WellFormed hash := by
  refine hw.withHeap fun j k hj hold => absurd hold ?_
  by_cases hji : j = id
  · subst hji
    rw [Function.update_self] at hj
    rw [← (hm k).resolve_left hj]
    exact hj
  · rwa [Function.update_of_ne hji] at hj

/-- The entries of all shards, in any order within each of them, are the contents. -/
theorem represents {ls : List (List (K × V))}
    (hls : List.Forall₂ (fun l id => l.Perm (s.heap id).items) ls s.live) :
    Represents ls.flatten (s.contents hash) := by
  have key : ∀ (ids : List Nat) (ls : List (List (K × V))),
      List.Forall₂ (fun l id => l.Perm (s.heap id).items) ls ids → ids.Nodup →
      (∀ id ∈ ids, id ∈ s.live) → (ls.flatten.map Prod.fst).Nodup ∧
        ∀ k x, (k, x) ∈ ls.flatten ↔ ∃ id ∈ ids, (s.heap id).lookup k = some x := by
    intro ids ls hls
    induction hls with
    | nil => simp
    | @cons l id ls ids hl _ ih =>
      intro hn hlive
      obtain ⟨hnot, hn⟩ := List.nodup_cons.mp hn
      obtain ⟨ih₁, ih₂⟩ := ih hn fun j hj => hlive j (by simp [hj])
      have hmem : ∀ k x, (k, x) ∈ l ↔ (s.heap id).lookup k = some x := fun k x => by
        rw [hl.mem_iff, Assoc.mem_items]
      refine ⟨?_, fun k x => by simp [hmem, ih₂]⟩
      rw [List.flatten_cons, List.map_append]
      refine List.nodup_append'.mpr ⟨(hl.map _).nodup_iff.mpr (Assoc.items_keys_nodup _), ih₁, ?_⟩
      intro k hk hk'
      obtain ⟨⟨_, x⟩, hx, rfl⟩ := List.mem_map.mp hk
      obtain ⟨⟨k, y⟩, hy, hky⟩ := List.mem_map.mp hk'
      simp only at hky
      subst hky
      obtain ⟨j, hj, hy⟩ := (ih₂ _ _).mp hy
      have := hw.unique_shard (hlive id (by simp)) (hlive j (by simp [hj])) ((hmem _ _).mp hx) hy
      exact hnot (this ▸ hj)
  obtain ⟨h₁, h₂⟩ := key s.live ls hls hw.nodup fun _ h => h
  refine ⟨h₁, fun k x => (h₂ k x).trans ⟨?_, stored⟩⟩
  rintro ⟨id, hid, hx⟩
  exact hw.contents_some hid hx

end WellFormed

omit [DecidableEq K] in
theorem length_entries {ls : List (List (K × V))} {ids : List Nat}
    (hls : List.Forall₂ (fun l id => l.Perm (s.heap id).items) ls ids) :
    ls.flatten.length = (ids.map fun id => (s.heap id).size).sum := by
  induction hls with
  | nil => rfl
  | cons hl _ ih => simp [ih, hl.length_eq]

end State
end Starshard
