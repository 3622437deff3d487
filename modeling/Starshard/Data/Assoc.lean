import Mathlib.Algebra.GroupWithZero.Nat
import Mathlib.Data.List.AList

/-! Finite maps as association lists without repeated keys, and their reading as
partial functions. -/
namespace Data

variable {K V : Type}

/-- A finite map from `K` to `V`. -/
abbrev Assoc (K V : Type) := AList (fun _ : K => V)

namespace Assoc

def size (m : Assoc K V) : Nat := m.entries.length

/-- The entries in the order of the list; a reader must not rely on it. -/
def items (m : Assoc K V) : List (K × V) := m.entries.map fun e => (e.1, e.2)

@[simp] theorem size_empty : size (∅ : Assoc K V) = 0 := rfl

@[simp] theorem items_length (m : Assoc K V) : m.items.length = m.size := by
  simp [items, size]

theorem items_keys (m : Assoc K V) : m.items.map Prod.fst = m.keys := by
  simp [items, AList.keys, List.keys, Function.comp_def]

theorem items_keys_nodup (m : Assoc K V) : (m.items.map Prod.fst).Nodup := by
  rw [items_keys]
  exact m.keys_nodup

theorem size_eq_keys (m : Assoc K V) : m.size = m.keys.length := by
  simp [size, AList.keys, List.keys]

variable [DecidableEq K]

theorem mem_items {m : Assoc K V} {k : K} {v : V} : (k, v) ∈ m.items ↔ m.lookup k = some v := by
  rw [AList.lookup, ← Option.mem_def, List.mem_dlookup_iff m.nodupKeys]
  simp only [items, List.mem_map, Prod.mk.injEq]
  constructor
  · rintro ⟨⟨k', v'⟩, h, rfl, rfl⟩
    exact h
  · intro h
    exact ⟨⟨k, v⟩, h, rfl, rfl⟩

theorem size_insert (m : Assoc K V) (k : K) (v : V) :
    size (m.insert k v) = if (m.lookup k).isSome then m.size else m.size + 1 := by
  simp only [size_eq_keys, AList.keys_insert, List.length_cons, List.length_erase,
    ← AList.mem_keys, AList.lookup_isSome]
  split
  · next h =>
    have := List.length_pos_of_mem (AList.mem_keys.mp h)
    omega
  · rfl

theorem size_erase (m : Assoc K V) (k : K) :
    size (m.erase k) = if (m.lookup k).isSome then m.size - 1 else m.size := by
  simp only [size_eq_keys, AList.keys_erase, List.length_erase, ← AList.mem_keys,
    AList.lookup_isSome]

theorem erase_of_lookup_none {m : Assoc K V} {k : K} (h : m.lookup k = none) : m.erase k = m :=
  AList.ext (List.kerase_of_notMem_keys (AList.lookup_eq_none.mp h))

theorem items_insert (m : Assoc K V) (k : K) (v : V) :
    items (m.insert k v) = (k, v) :: items (m.erase k) := by
  unfold items
  rw [AList.entries_insert, List.map_cons]
  rfl

theorem size_pos_of_lookup {m : Assoc K V} {k : K} {v : V} (h : m.lookup k = some v) :
    0 < m.size := by
  rw [← items_length]
  exact List.length_pos_of_mem (mem_items.mpr h)

theorem size_eq_zero {m : Assoc K V} : m.size = 0 ↔ ∀ k, m.lookup k = none := by
  constructor
  · intro h k
    cases hk : m.lookup k with
    | none => rfl
    | some v =>
      have := size_pos_of_lookup hk
      omega
  · intro h
    rw [← items_length, List.length_eq_zero_iff, List.eq_nil_iff_forall_not_mem]
    rintro ⟨k, v⟩ hm
    rw [mem_items, h k] at hm
    cases hm

/-- `m` lost some of the entries of `n`. -/
def Sub (m n : Assoc K V) : Prop := ∀ k v, m.lookup k = some v → n.lookup k = some v

theorem Sub.refl (m : Assoc K V) : Sub m m := fun _ _ h => h

end Assoc

/-- `l` lists the entries of `d`, each exactly once. -/
structure Represents {K V : Type} (l : List (K × V)) (d : K → Option V) : Prop where
  nodup : (l.map Prod.fst).Nodup
  mem : ∀ k v, (k, v) ∈ l ↔ d k = some v

namespace Represents

theorem items [DecidableEq K] (m : Assoc K V) : Represents m.items m.lookup :=
  ⟨m.items_keys_nodup, fun _ _ => Assoc.mem_items⟩

theorem nil : Represents ([] : List (K × V)) fun _ => none := ⟨by simp, by simp⟩

theorem perm {l l' : List (K × V)} {d : K → Option V} (h : Represents l d)
    (h' : Represents l' d) : l.Perm l' := by
  rw [List.perm_ext_iff_of_nodup h.nodup.of_map h'.nodup.of_map]
  rintro ⟨k, v⟩
  rw [h.mem, h'.mem]

theorem of_perm {l l' : List (K × V)} {d : K → Option V} (h : Represents l d)
    (hp : l.Perm l') : Represents l' d where
  nodup := (hp.map Prod.fst).nodup_iff.mp h.nodup
  mem k v := by rw [← hp.mem_iff, h.mem]

theorem append {l l' : List (K × V)} {d d' : K → Option V} (h : Represents l d)
    (h' : Represents l' d') (hd : ∀ k, d k = none ∨ d' k = none) :
    Represents (l ++ l') fun k => d k <|> d' k where
  nodup := by
    rw [List.map_append]
    refine h.nodup.append h'.nodup fun k hk hk' => ?_
    obtain ⟨⟨_, v⟩, hv, rfl⟩ := List.mem_map.mp hk
    obtain ⟨⟨k', v'⟩, hv', hkk⟩ := List.mem_map.mp hk'
    have hkk : k' = _ := hkk
    subst hkk
    rw [h.mem] at hv
    rw [h'.mem] at hv'
    rcases hd k' with hn | hn
    · rw [hn] at hv; cases hv
    · rw [hn] at hv'; cases hv'
  mem k v := by
    rw [List.mem_append, h.mem, h'.mem]
    rcases hd k with hn | hn
    · simp [hn]
    · cases hk : d k <;> simp [hn]

/-- The entries of a partial function are those left without `k`, and the one of `k`. -/
theorem cons {l : List (K × V)} {d d' : K → Option V} {k : K} {v : V} (h : Represents l d')
    (hk : d k = some v) (hn : d' k = none) (ho : ∀ k', k' ≠ k → d' k' = d k') :
    Represents ((k, v) :: l) d where
  nodup := by
    rw [List.map_cons, List.nodup_cons]
    refine ⟨fun hm => ?_, h.nodup⟩
    obtain ⟨⟨k', w⟩, hw, hkk⟩ := List.mem_map.mp hm
    have hkk : k' = k := hkk
    subst hkk
    rw [h.mem, hn] at hw
    cases hw
  mem k' w := by
    rw [List.mem_cons, h.mem, Prod.mk.injEq]
    by_cases hkk : k' = k
    · subst hkk
      simp [hk, hn, eq_comm]
    · simp [hkk, ho k' hkk]

theorem concat [DecidableEq K] {l : List (K × V)} {d : K → Option V} (h : Represents l d) {k : K}
    (hk : d k = none) (v : V) : Represents (l ++ [(k, v)]) (Function.update d k (some v)) :=
  (h.cons (Function.update_self ..) hk fun _ ho => (Function.update_of_ne ho _ _).symm).of_perm
    (List.perm_append_singleton _ _).symm

theorem length_eq {l l' : List (K × V)} {d : K → Option V} (h : Represents l d)
    (h' : Represents l' d) : l.length = l'.length := (h.perm h').length_eq

theorem length_erase {l l' : List (K × V)} {d d' : K → Option V} {k : K} {v : V}
    (h : Represents l d) (h' : Represents l' d') (hk : d k = some v) (hn : d' k = none)
    (ho : ∀ k', k' ≠ k → d' k' = d k') : l.length = l'.length + 1 :=
  h.length_eq (h'.cons hk hn ho)

theorem length_le {l l' : List (K × V)} {d d' : K → Option V} (h : Represents l d)
    (h' : Represents l' d') (hs : ∀ k v, d' k = some v → d k = some v) :
    l'.length ≤ l.length := by
  refine (List.subperm_of_subset (List.Nodup.of_map _ h'.nodup) fun e he => ?_).length_le
  exact (h.mem e.1 e.2).mpr (hs _ _ ((h'.mem e.1 e.2).mp he))

theorem filter [DecidableEq K] {l : List (K × V)} {d : K → Option V} (h : Represents l d) (k : K) :
    Represents (l.filter fun e => e.1 ≠ k) fun k' => if k' = k then none else d k' where
  nodup := h.nodup.sublist (List.filter_sublist.map Prod.fst)
  mem k' v := by
    rw [List.mem_filter, h.mem]
    by_cases hk : k' = k <;> simp [hk]

theorem length_insert [DecidableEq K] {l l' : List (K × V)} {d : K → Option V} {k : K} {v : V}
    (h : Represents l d) (h' : Represents l' fun k' => if k' = k then some v else d k') :
    l'.length = if (d k).isSome then l.length else l.length + 1 := by
  have hrest := h.filter k
  have hl' := h'.length_erase hrest (if_pos rfl) (if_pos rfl) fun k' hk => by simp [hk]
  cases hk : d k with
  | none =>
    have hsame : Represents (l.filter fun e => e.1 ≠ k) d := by
      convert hrest using 2 with k'
      by_cases hkk : k' = k <;> simp [hkk, hk]
    simp [hl', h.length_eq hsame]
  | some w =>
    have hl := h.length_erase hrest hk (if_pos rfl) fun k' hk => by simp [hk]
    simp [hl', hl]

end Represents

theorem Assoc.items_erase [DecidableEq K] {m : Assoc K V} {k : K} {v : V}
    (h : m.lookup k = some v) : m.items.Perm ((k, v) :: Assoc.items (m.erase k)) :=
  (Represents.items m).perm ((Represents.items (m.erase k)).cons h (AList.lookup_erase k m)
    fun _ hk => AList.lookup_erase_ne hk)

end Data
