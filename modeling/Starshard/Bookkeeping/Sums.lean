import Starshard.Bookkeeping.Hooks
import Starshard.Data.Grouping
import Starshard.Repair.Complete

/-! The sums of the metadata, and what the edit of a bucket does to them. -/
namespace Starshard.Bookkeeping

open Data Retirement
open Repair (Entry Metadata Engine contents_of_insert contents_perm_bucket)

variable {K : Type}

def weights (xs : List (Entry K)) : Nat := (xs.map Entry.weight).sum

@[simp] theorem weights_nil : weights ([] : List (Entry K)) = 0 := rfl

@[simp] theorem weights_cons (x : Entry K) (xs : List (Entry K)) :
    weights (x :: xs) = x.weight + weights xs := rfl

@[simp] theorem weights_append (xs ys : List (Entry K)) :
    weights (xs ++ ys) = weights xs + weights ys := by
  unfold weights
  rw [List.map_append, List.sum_append_nat]

theorem weights_perm {xs ys : List (Entry K)} (h : xs.Perm ys) : weights xs = weights ys :=
  (h.map _).sum_nat

theorem weights_le {xs : List (Entry K)} (h : ∀ x ∈ xs, x.weight < 2 ^ 64) :
    weights xs ≤ xs.length * (2 ^ 64 - 1) := by
  induction xs with
  | nil => exact Nat.zero_le _
  | cons x xs ih =>
    have hx := h x List.mem_cons_self
    have hxs := ih fun y hy => h y (List.mem_cons_of_mem _ hy)
    rw [weights_cons, List.length_cons]
    omega

theorem weight_le {x : Entry K} {xs : List (Entry K)} (h : x ∈ xs) : x.weight ≤ weights xs := by
  obtain ⟨pre, post, rfl⟩ := List.append_of_mem h
  rw [weights_append, weights_cons]
  omega

/-- The sums of `u128` do not wrap. -/
theorem weights_lt {xs : List (Entry K)} (h : ∀ x ∈ xs, x.weight < 2 ^ 64)
    (hn : xs.length < 2 ^ 64) : weights xs < 2 ^ 128 :=
  calc weights xs ≤ xs.length * (2 ^ 64 - 1) := weights_le h
    _ ≤ (2 ^ 64 - 1) * (2 ^ 64 - 1) := Nat.mul_le_mul_right _ (Nat.le_sub_one_of_lt hn)
    _ < 2 ^ 128 := by decide

section Contents

/-- The entries of the other stripes. -/
def elsewhere (i : Stripe) (e : Engine K) : List (Entry K) :=
  ((List.finRange stripes).erase i).flatMap fun j => (e.stripes j).contents

variable {e e' : Engine K} {i : Stripe} {m : Metadata K}

theorem contents_perm_stripe (i : Stripe) (e : Engine K) :
    e.contents.Perm ((e.stripes i).contents ++ elsewhere i e) :=
  (List.perm_cons_erase (List.mem_finRange i)).flatMap_right _

theorem contents_of_update (h : e'.stripes = Function.update e.stripes i m) :
    e'.contents.Perm (m.contents ++ elsewhere i e) := by
  have := flatMap_update (List.nodup_finRange stripes) (List.mem_finRange i)
    (fun j => (e.stripes j).contents) m.contents
  unfold Engine.contents
  rw [h]
  refine .trans (.of_eq (List.flatMap_congr fun j _ => ?_)) this
  by_cases hj : j = i
  · subst hj
    rw [Function.update_self, Function.update_self]
  · rw [Function.update_of_ne hj, Function.update_of_ne hj]

end Contents

/-- What holds of bucket `hash` of stripe `i`; `u` stands for lists of distinct keys. -/
structure Filed (fx : K → UInt64) (u : Prop) (i : Stripe) (hash : UInt64) (l : List (Entry K)) :
    Prop where
  stripe : stripeOf hash = i
  hashed : ∀ x ∈ l, fx x.key.key = hash
  narrow : ∀ x ∈ l, x.weight < 2 ^ 64
  sole : u → (l.map fun x => x.key.key).Nodup

/-- The invariant of a run. -/
structure Exact (fx : K → UInt64) (u : Prop) (e : Engine K) : Prop where
  filed : ∀ i hash l, (e.stripes i).buckets.lookup hash = some l → Filed fx u i hash l
  weight : ∀ i, (e.stripes i).weight = weights (e.stripes i).contents
  counted : e.entries = e.contents.length
  room : e.contents.length < 2 ^ 64

variable {fx : K → UInt64} {u : Prop} {e e' : Engine K} {hash : UInt64} {l : List (Entry K)}
  {x y : Entry K} {n : Nat}

namespace Filed

theorem nil (hash : UInt64) : Filed fx u (stripeOf hash) hash ([] : List (Entry K)) :=
  ⟨rfl, fun _ hx => absurd hx List.not_mem_nil, fun _ hx => absurd hx List.not_mem_nil,
    fun _ => List.nodup_nil⟩

variable {i : Stripe}

theorem set (h : Filed fx u i hash l) (hx : l[n]? = some x) (hk : y.key = x.key)
    (hw : y.weight < 2 ^ 64) : Filed fx u i hash (l.set n y) where
  stripe := h.stripe
  hashed z hz := by
    rcases List.mem_or_eq_of_mem_set hz with hz | rfl
    · exact h.hashed z hz
    · rw [hk]
      exact h.hashed x (List.mem_of_getElem? hx)
  narrow z hz := by
    rcases List.mem_or_eq_of_mem_set hz with hz | rfl
    · exact h.narrow z hz
    · exact hw
  sole hu := by
    have hkeys : (l.set n y).map (fun x => x.key.key) = l.map fun x => x.key.key := by
      rw [List.map_set, hk]
      refine List.ext_getElem? fun j => ?_
      rw [List.getElem?_set]
      by_cases hj : n = j
      · subst hj
        have hn := (List.getElem?_eq_some_iff.mp hx).1
        obtain ⟨_, rfl⟩ := List.getElem?_eq_some_iff.mp hx
        simp [hn]
      · rw [if_neg hj]
    rw [hkeys]
    exact h.sole hu

theorem push (h : Filed fx u i hash l) (hk : fx x.key.key = hash) (hw : x.weight < 2 ^ 64)
    (hnew : ∀ y ∈ l, y.key.key ≠ x.key.key) : Filed fx u i hash (l ++ [x]) where
  stripe := h.stripe
  hashed z hz := by
    rcases List.mem_append.mp hz with hz | hz
    · exact h.hashed z hz
    · rwa [List.mem_singleton.mp hz]
  narrow z hz := by
    rcases List.mem_append.mp hz with hz | hz
    · exact h.narrow z hz
    · rwa [List.mem_singleton.mp hz]
  sole hu := by
    rw [List.map_append, List.map_singleton, List.nodup_append]
    refine ⟨h.sole hu, List.nodup_singleton _, fun k hk k' hk' => ?_⟩
    obtain ⟨y, hy, rfl⟩ := List.mem_map.mp hk
    rw [List.mem_singleton.mp hk']
    exact hnew y hy

theorem remove {l' : List (Entry K)} (h : Filed fx u i hash l) (hp : (x :: l').Perm l) :
    Filed fx u i hash l' where
  stripe := h.stripe
  hashed z hz := h.hashed z (hp.mem_iff.mp (List.mem_cons_of_mem _ hz))
  narrow z hz := h.narrow z (hp.mem_iff.mp (List.mem_cons_of_mem _ hz))
  sole hu := (((hp.map fun x => x.key.key).nodup_iff).mpr (h.sole hu)).of_cons

end Filed

namespace Exact

theorem bucket (h : Exact fx u e) (hash : UInt64) :
    Filed fx u (stripeOf hash) hash ((e.stripes (stripeOf hash)).bucket hash) := by
  unfold Metadata.bucket
  cases hl : (e.stripes (stripeOf hash)).buckets.lookup hash with
  | none => exact .nil hash
  | some l => exact h.filed _ hash l hl

theorem narrow (h : Exact fx u e) {x : Entry K} (hx : x ∈ e.contents) : x.weight < 2 ^ 64 := by
  obtain ⟨i, _, hx⟩ := List.mem_flatMap.mp hx
  obtain ⟨hash, l, hl, hx⟩ := Repair.Metadata.mem_contents.mp hx
  exact (h.filed i hash l hl).narrow x hx

theorem congr (h : Exact fx u e) (hb : ∀ i, (e'.stripes i).buckets = (e.stripes i).buckets)
    (hw : ∀ i, (e'.stripes i).weight = (e.stripes i).weight) (hn : e'.entries = e.entries) :
    Exact fx u e' := by
  have hcontents : e'.contents = e.contents := by
    unfold Engine.contents Metadata.contents
    simp only [hb]
  refine ⟨fun i hash l hl => h.filed i hash l (hb i ▸ hl), fun i => ?_, ?_, ?_⟩
  · unfold Metadata.contents
    rw [hw, hb]
    exact h.weight i
  · rw [hn, hcontents]
    exact h.counted
  · rw [hcontents]
    exact h.room

end Exact

section Edit

variable {m : Metadata K}

theorem length_edit (hs : e'.stripes = Function.update e.stripes (stripeOf hash) m)
    (hb : m.buckets = (e.stripes (stripeOf hash)).buckets.insert hash l) :
    e'.contents.length + ((e.stripes (stripeOf hash)).bucket hash).length =
      e.contents.length + l.length := by
  have hold := (contents_perm_stripe (stripeOf hash) e).length_eq
  have hbucket := (contents_perm_bucket hash (e.stripes (stripeOf hash))).length_eq
  have hnew := (contents_of_update hs).length_eq
  rw [contents_of_insert hb] at hnew
  simp only [List.length_append] at hold hbucket hnew
  omega

theorem Exact.edit (h : Exact fx u e)
    (hs : e'.stripes = Function.update e.stripes (stripeOf hash) m)
    (hb : m.buckets = (e.stripes (stripeOf hash)).buckets.insert hash l)
    (hl : Filed fx u (stripeOf hash) hash l) (hroom : e'.contents.length < 2 ^ 64)
    (hw : ∀ w, w + weights ((e.stripes (stripeOf hash)).bucket hash) =
      (e.stripes (stripeOf hash)).weight + weights l → w < 2 ^ 128 → m.weight = w)
    (hn : ∀ n, n + ((e.stripes (stripeOf hash)).bucket hash).length = e.entries + l.length →
      n < 2 ^ 64 → e'.entries = n) : Exact fx u e' := by
  have hbucket := contents_perm_bucket hash (e.stripes (stripeOf hash))
  have hcontents := contents_of_insert hb
  have hm : e'.stripes (stripeOf hash) = m := by rw [hs, Function.update_self]
  have hmem : ∀ x ∈ m.contents, x.weight < 2 ^ 64 := by
    intro x hx
    rw [hcontents] at hx
    rcases List.mem_append.mp hx with hx | hx
    · exact hl.narrow x hx
    · refine h.narrow (List.mem_flatMap.mpr ⟨stripeOf hash, List.mem_finRange _, ?_⟩)
      exact hbucket.mem_iff.mpr (List.mem_append_right _ hx)
  have hlen : m.contents.length < 2 ^ 64 := by
    have := (contents_of_update hs).length_eq
    rw [List.length_append] at this
    omega
  have hweight : m.weight = weights m.contents := by
    refine hw _ ?_ (weights_lt hmem hlen)
    rw [h.weight, weights_perm hbucket, hcontents, weights_append, weights_append]
    omega
  refine ⟨fun i hash' l' hl' => ?_, fun i => ?_, ?_, hroom⟩
  · by_cases hi : i = stripeOf hash
    · subst hi
      rw [hm, hb] at hl'
      by_cases hh : hash' = hash
      · subst hh
        rw [AList.lookup_insert] at hl'
        cases hl'
        exact hl
      · rw [AList.lookup_insert_ne hh] at hl'
        exact h.filed _ hash' l' hl'
    · rw [hs, Function.update_of_ne hi] at hl'
      exact h.filed i hash' l' hl'
  · by_cases hi : i = stripeOf hash
    · rw [hi, hm]
      exact hweight
    · rw [hs, Function.update_of_ne hi]
      exact h.weight i
  · have := length_edit hs hb
    refine hn _ ?_ hroom
    rw [h.counted]
    omega

theorem Exact.erase (h : Exact fx u e)
    (hl : (e.stripes (stripeOf hash)).buckets.lookup hash = some []) :
    Exact fx u { e with
      stripes := Function.update e.stripes (stripeOf hash)
        { e.stripes (stripeOf hash) with
          buckets := (e.stripes (stripeOf hash)).buckets.erase hash } } := by
  let m : Metadata K := { e.stripes (stripeOf hash) with
    buckets := (e.stripes (stripeOf hash)).buckets.erase hash }
  let e' : Engine K := { e with stripes := Function.update e.stripes (stripeOf hash) m }
  have hs : e'.stripes = Function.update e.stripes (stripeOf hash) m := rfl
  have hstripe : (e.stripes (stripeOf hash)).contents.Perm m.contents := by
    have := contents_perm_bucket hash (e.stripes (stripeOf hash))
    unfold Metadata.bucket at this
    rwa [hl] at this
  have hcontents : e'.contents.length = e.contents.length := by
    rw [(contents_of_update hs).length_eq, (contents_perm_stripe (stripeOf hash) e).length_eq,
      List.length_append, List.length_append, hstripe.length_eq]
  have hm : e'.stripes (stripeOf hash) = m := by rw [hs, Function.update_self]
  refine ⟨fun i hash' l' hl' => ?_, fun i => ?_, ?_, ?_⟩
  · by_cases hi : i = stripeOf hash
    · subst hi
      change (e'.stripes _).buckets.lookup hash' = some l' at hl'
      rw [hm] at hl'
      by_cases hh : hash' = hash
      · subst hh
        change ((e.stripes (stripeOf hash')).buckets.erase hash').lookup hash' = some l' at hl'
        rw [AList.lookup_erase] at hl'
        cases hl'
      · change ((e.stripes (stripeOf hash)).buckets.erase hash).lookup hash' = some l' at hl'
        rw [AList.lookup_erase_ne hh] at hl'
        exact h.filed _ hash' l' hl'
    · change (e'.stripes i).buckets.lookup hash' = some l' at hl'
      rw [hs, Function.update_of_ne hi] at hl'
      exact h.filed i hash' l' hl'
  · change (e'.stripes i).weight = weights (e'.stripes i).contents
    by_cases hi : i = stripeOf hash
    · rw [hi, hm, ← weights_perm hstripe]
      exact h.weight _
    · rw [hs, Function.update_of_ne hi]
      exact h.weight i
  · exact h.counted.trans hcontents.symm
  · exact Nat.lt_of_le_of_lt (Nat.le_of_eq hcontents) h.room

theorem Exact.drop (h : Exact fx u e) (hash : UInt64) : Exact fx u (dropEmpty hash e) := by
  unfold dropEmpty
  dsimp only
  split
  · next hl => exact h.erase hl
  · exact h

end Edit

section Entries

theorem Exact.found (h : Exact fx u e)
    (hx : ((e.stripes (stripeOf hash)).bucket hash)[n]? = some x) :
    x.weight ≤ (e.stripes (stripeOf hash)).weight ∧ 1 ≤ e.entries := by
  have hmem : x ∈ (e.stripes (stripeOf hash)).contents :=
    (contents_perm_bucket hash _).mem_iff.mpr (List.mem_append_left _ (List.mem_of_getElem? hx))
  constructor
  · rw [h.weight]
    exact weight_le hmem
  · rw [h.counted]
    exact List.length_pos_of_mem (List.mem_flatMap.mpr ⟨_, List.mem_finRange _, hmem⟩)

theorem Exact.removed (h : Exact fx u e)
    (hx : ((e.stripes (stripeOf hash)).bucket hash)[n]? = some x) {m : Metadata K}
    (hs : e'.stripes = Function.update e.stripes (stripeOf hash) m)
    (hb : m.buckets = (e.stripes (stripeOf hash)).buckets.insert hash
      (swapRemove ((e.stripes (stripeOf hash)).bucket hash) n))
    (hw : m.weight = (e.stripes (stripeOf hash)).weight - x.weight)
    (hn : e'.entries = e.entries - 1) : Exact fx u e' := by
  have hperm := swapRemove_perm hx
  have hlen := hperm.length_eq
  have hsum := weights_perm hperm
  rw [List.length_cons] at hlen
  rw [weights_cons] at hsum
  have hedit := length_edit hs hb
  have hroom := h.room
  refine h.edit hs hb ((h.bucket hash).remove hperm) (by omega) (fun w heq _ => ?_)
    (fun n heq _ => ?_)
  · rw [hw]
    omega
  · rw [hn]
    omega

theorem Exact.rewritten (h : Exact fx u e)
    (hx : ((e.stripes (stripeOf hash)).bucket hash)[n]? = some x) (hk : y.key = x.key)
    (hy : y.weight < 2 ^ 64) {m : Metadata K}
    (hs : e'.stripes = Function.update e.stripes (stripeOf hash) m)
    (hb : m.buckets = (e.stripes (stripeOf hash)).buckets.insert hash
      (((e.stripes (stripeOf hash)).bucket hash).set n y))
    (hw : (e.stripes (stripeOf hash)).weight - x.weight + y.weight < 2 ^ 128 →
      m.weight = (e.stripes (stripeOf hash)).weight - x.weight + y.weight)
    (hn : e'.entries = e.entries) : Exact fx u e' := by
  have hsum := weights_perm (set_perm hx y)
  have hedit := length_edit hs hb
  have hroom := h.room
  have hweight := (h.found hx).1
  rw [weights_cons, weights_cons] at hsum
  rw [List.length_set] at hedit
  refine h.edit hs hb ((h.bucket hash).set hx hk hy) (by omega) (fun w heq hlt => ?_)
    (fun n heq _ => ?_)
  · have hw' : w = (e.stripes (stripeOf hash)).weight - x.weight + y.weight := by omega
    rw [hw']
    exact hw (hw' ▸ hlt)
  · rw [List.length_set] at heq
    omega

end Entries

end Starshard.Bookkeeping
