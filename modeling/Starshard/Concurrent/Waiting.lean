import Mathlib.Algebra.GroupWithZero.Nat
import Mathlib.Order.WellFoundedSet

/-! Waiting sets. Agents wait for each other along edges that lead to a higher
rank, or, within one rank, to an agent that queued before. -/
namespace Concurrent

variable {ι ρ : Type} [LinearOrder ρ]

/-- Every member of the non-empty set `D` waits for a member. -/
def Deadlocked (waits : ι → ι → Prop) (D : Set ι) : Prop :=
  D.Nonempty ∧ ∀ t ∈ D, ∃ u ∈ D, waits t u

/-- A finite set cannot be deadlocked when waiting leads upwards. -/
theorem not_deadlocked_of_rank {waits before : ι → ι → Prop} [IsStrictOrder ι before] {D : Set ι}
    (hfin : D.Finite) (rank : ι → ρ) (hrank : ∀ t ∈ D, ∀ u ∈ D, waits t u →
      rank t < rank u ∨ (rank t = rank u ∧ before u t)) : ¬ Deadlocked waits D := by
  rintro ⟨hne, hclosed⟩
  -- the agents of the highest rank only wait for agents of that rank
  obtain ⟨top, htop, hmax⟩ := hfin.exists_maximalFor rank D hne
  let peak : Set ι := {t ∈ D | rank t = rank top}
  have hpeak : peak.Finite := hfin.subset fun t ht => ht.1
  -- among those, one that queued first waits for nobody
  obtain ⟨first, hfirst, hmin⟩ := (hpeak.wellFoundedOn (r := before)).has_min Set.univ
    ⟨⟨top, htop, rfl⟩, trivial⟩
  obtain ⟨t, ht, hr⟩ := first
  obtain ⟨u, hu, hw⟩ := hclosed t ht
  rcases hrank t ht u hu hw with hlt | ⟨heq, hb⟩
  · rw [hr] at hlt
    exact absurd (hmax hu hlt.le) (not_le_of_gt hlt)
  · exact hmin ⟨u, hu, heq.symm.trans hr⟩ trivial hb

end Concurrent
