import Mathlib.Algebra.GroupWithZero.Nat
import Mathlib.Data.Finmap
import Starshard.Data.Assoc

/-! One finite map kept in several parts. -/
namespace Data

abbrev FiniteMap (K V : Type) := Finmap (fun _ : K => V)

variable {K V : Type}

section Retain

def Assoc.retain (p : K → V → Bool) (m : Assoc K V) : Assoc K V where
  entries := m.entries.filter fun e => p e.1 e.2
  nodupKeys := m.nodupKeys.sublist List.filter_sublist

def FiniteMap.retain (p : K → V → Bool) (c : FiniteMap K V) : FiniteMap K V :=
  c.liftOn (fun m => AList.toFinmap (Assoc.retain p m)) fun _ _ h =>
    AList.toFinmap_eq.mpr (h.filter _)

variable [DecidableEq K]

theorem Assoc.lookup_retain (p : K → V → Bool) (m : Assoc K V) (k : K) :
    (m.retain p).lookup k = (m.lookup k).filter (p k) := by
  refine Option.ext fun v => ?_
  rw [Option.filter_eq_some_iff, ← Assoc.mem_items, ← Assoc.mem_items]
  simp [Assoc.items, Assoc.retain]

theorem FiniteMap.lookup_retain (p : K → V → Bool) (c : FiniteMap K V) (k : K) :
    (FiniteMap.retain p c).lookup k = (c.lookup k).filter (p k) := by
  induction c using Finmap.induction_on with
  | H m => exact Assoc.lookup_retain p m k

end Retain

section Merged

variable [DecidableEq K]

/-- The union of the parts; an earlier part wins. -/
def merged (parts : List (Assoc K V)) : FiniteMap K V :=
  parts.foldr (fun m c => AList.toFinmap m ∪ c) ∅

theorem lookup_merged (parts : List (Assoc K V)) (k : K) :
    (merged parts).lookup k = parts.findSome? (·.lookup k) := by
  induction parts with
  | nil => rfl
  | cons m parts ih =>
    change Finmap.lookup k (AList.toFinmap m ∪ merged parts) = _
    rw [List.findSome?_cons]
    cases hm : m.lookup k with
    | none =>
      rw [Finmap.lookup_union_right, ih]
      rw [← Finmap.lookup_eq_none, Finmap.lookup_toFinmap, hm]
    | some v =>
      rw [Finmap.lookup_union_left, Finmap.lookup_toFinmap, hm]
      rw [← Finmap.lookup_isSome, Finmap.lookup_toFinmap, hm]
      rfl

end Merged
end Data
