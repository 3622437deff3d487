import Mathlib.Logic.Relation
import Starshard.Eviction.Passes

/-! A maintenance pass changes the map by evictions only. -/
namespace Starshard.Eviction

open Relation (ReflTransGen)

variable {K V : Type} [DecidableEq K]

/-- An entry leaves the shard that holds it, or the metadata change. -/
inductive Removal (fx : K → Nat) : Pass K V → Pass K V → Prop where
  | evict {p : Pass K V} {l : Location} {c : EvictionCandidate K} {v : V} :
      (p.state.shard l).lookup c.key = some v → Removal fx p (p.evict fx l c v)
  | metadata {p : Pass K V} {e : Engine K} : e.metrics = p.state.engine.metrics →
      Removal fx p { p with state := { p.state with engine := e } }

abbrev Removals (fx : K → Nat) : Pass K V → Pass K V → Prop := ReflTransGen (Removal fx)

section Engine

omit [DecidableEq K] in
theorem Engine.metrics_drop (fx : K → Nat) (n : Nat) (t : Entry K → Bool) (e : Engine K) :
    (e.drop fx n t).metrics = e.metrics := by
  unfold Engine.drop
  split <;> rfl

omit [DecidableEq K] in
theorem Engine.metrics_recordEviction (fx : K → Nat) (c : EvictionCandidate K) (e : Engine K) :
    (e.recordEviction fx c).metrics = e.metrics.count .evictions := metrics_drop ..

theorem Engine.metrics_recordInsert (fx : K → Nat) (k : K) (weight : Nat) (replaced : Bool)
    (e : Engine K) : (e.recordInsert fx k weight replaced).metrics = e.metrics.count .inserts := by
  unfold Engine.recordInsert
  dsimp only
  split <;> rfl

theorem Engine.metrics_recordRemove (fx : K → Nat) (k : K) (e : Engine K) :
    (e.recordRemove fx k).metrics = e.metrics.count .removes := metrics_drop ..

theorem Engine.metrics_recordRead (fx : K → Nat) (k : K) (hit : Bool) (e : Engine K) :
    (e.recordRead fx k hit).metrics =
      (e.metrics.count .gets).count (if hit then .hits else .misses) := by
  unfold Engine.recordRead
  cases hit with
  | false => rfl
  | true =>
    dsimp only [Bool.not_true]
    split
    · contradiction
    · split <;> rfl

theorem Engine.metrics_reconcile (fx : K → Nat) (items : List (K × Nat)) (e : Engine K) :
    (e.reconcile fx items).metrics = e.metrics := rfl

theorem State.metrics_reconcile (fx : K → Nat) (weight : K → V → Nat) (s : State K V) :
    (s.reconcile fx weight).engine.metrics = s.engine.metrics := by
  unfold State.reconcile
  split
  · exact Engine.metrics_reconcile ..
  · rfl

theorem State.reconcile_eq (fx : K → Nat) (weight : K → V → Nat) (s : State K V) :
    s.reconcile fx weight = { s with engine := (s.reconcile fx weight).engine } := by
  unfold State.reconcile
  split <;> rfl

end Engine

theorem Removals.foldl {β : Type} {fx : K → Nat} {f : Pass K V → β → Pass K V}
    (hf : ∀ p x, Removals fx p (f p x)) (xs : List β) (p : Pass K V) :
    Removals fx p (xs.foldl f p) := by
  induction xs generalizing p with
  | nil => exact .refl
  | cons x xs ih => exact (hf p x).trans (ih (f p x))

theorem Removals.metadata {fx : K → Nat} {p q : Pass K V} (h : Removals fx p q) {e : Engine K}
    (he : e.metrics = q.state.engine.metrics) :
    Removals fx p { q with state := { q.state with engine := e } } := h.tail (.metadata he)

variable (hash fx : K → Nat)

namespace Sync

theorem trim_removals (limit : Nat) (l : Location) (cs : List (EvictionCandidate K)) :
    ∀ p : Pass K V, Removals fx p (trim fx limit l cs p) := by
  induction cs with
  | nil => exact fun _ => .refl
  | cons c cs ih =>
    intro p
    unfold trim
    split
    · exact .refl
    · split
      · exact ih p
      · cases hv : (p.state.shard l).lookup c.key with
        | none => exact ih p
        | some v => exact .head (.evict hv) (ih _)

theorem limitShards_removals (policy : CapacityPolicy) (limit : Nat) (p : Pass K V) :
    Removals fx p (limitShards fx policy limit p).1 := by
  have hfold (is : List Nat) : ∀ r : Pass K V × Bool,
      Removals fx r.1 (is.foldl (limitShard fx policy limit) r).1 := by
    induction is with
    | nil => exact fun _ => .refl
    | cons i is ih =>
      intro r
      refine .trans ?_ (ih (limitShard fx policy limit r i))
      unfold limitShard
      split
      · exact .refl
      · split
        · exact .refl
        · exact trim_removals fx limit _ _ r.1
  exact hfold _ (p, false)

theorem sweepShards_removals (options : Options) (index : Nat) (c : EvictionCandidate K)
    (ls : List Location) :
    ∀ s : Sweep K V, Removals fx s.pass (sweepShards fx options index c ls s).pass := by
  induction ls with
  | nil => exact fun _ => .refl
  | cons l ls ih =>
    intro s
    unfold sweepShards
    cases hv : (s.pass.state.shard l).lookup c.key with
    | none => exact ih s
    | some v => exact .single (.evict hv)

theorem sweep_removals (options : Options) (target : Option Nat)
    (cs : List (EvictionCandidate K)) :
    ∀ s : Sweep K V, Removals fx s.pass (sweep hash fx options target cs s).pass := by
  induction cs with
  | nil => exact fun _ => .refl
  | cons c cs ih =>
    intro s
    unfold sweep
    dsimp only
    split
    · exact .refl
    · split
      · exact ih s
      · split
        · exact ih s
        · exact (sweepShards_removals fx options _ c _ s).trans (ih _)

theorem evictGlobal_removals (options : Options) (weight : K → V → Nat)
    (policy : CapacityPolicy) (target : Option Nat) (p : Pass K V) :
    Removals fx p (evictGlobal hash fx options weight policy target p) := by
  unfold evictGlobal
  dsimp only
  refine Removals.metadata (.head ?_ (sweep_removals hash fx options target _ _)) rfl
  rw [State.reconcile_eq]
  exact .metadata
    (State.metrics_reconcile fx weight { p.state with engine := p.state.engine.mutation })

theorem runEviction_removals (options : Options) (weight : K → V → Nat)
    (requested : Option Nat) (policy : Option CapacityPolicy) (s : State K V) :
    Removals fx ⟨s, []⟩ (runEviction hash fx options weight requested policy s) := by
  have hglobal := evictGlobal_removals hash fx options weight (policy.getD options.policy)
  unfold runEviction
  dsimp only
  split
  · exact .single (.metadata rfl)
  · split
    · exact hglobal _ _
    · next limit _ =>
      split
      · unfold evictPerShard
        dsimp only
        have hmutation : Removal fx ⟨s, []⟩ ⟨{ s with engine := s.engine.mutation }, []⟩ :=
          .metadata rfl
        have hlimit := ReflTransGen.head hmutation
          (limitShards_removals fx (policy.getD options.policy) limit _)
        split
        · exact Removals.metadata hlimit rfl
        · exact hlimit.trans (hglobal none _)
      · exact hglobal _ _

end Sync

namespace Async

theorem trimStep_removals (limit : Nat) (p : Pass K V) (plan : EvictionCandidate K × Nat) :
    Removals fx p (trimStep fx limit p plan) := by
  unfold trimStep
  dsimp only
  split
  · exact .refl
  · split
    · next v hv => exact .single (.evict hv)
    · exact .single (.metadata rfl)

theorem removeStep_removals (p : Pass K V) (plan : EvictionCandidate K × Location) :
    Removals fx p (removeStep fx p plan) := by
  unfold removeStep
  split
  · exact .refl
  · split
    · next v hv => exact .single (.evict hv)
    · exact .single (.metadata rfl)

theorem metrics_planStep (options : Options) (limit : Option Nat) (s : State K V)
    (cs : List (EvictionCandidate K)) (p : Planning K V) :
    (cs.foldl (planStep hash fx options limit s) p).engine.metrics = p.engine.metrics := by
  induction cs generalizing p with
  | nil => rfl
  | cons c cs ih =>
    refine (ih (planStep hash fx options limit s p c)).trans ?_
    unfold planStep
    dsimp only
    split
    · rfl
    · split
      · rfl
      · split <;> rfl

omit [DecidableEq K] in
theorem engine_tally (s : State K V) (cs : List (EvictionCandidate K)) :
    (tally hash cs s).engine = s.engine := by
  have hfold (cs : List (EvictionCandidate K)) : ∀ p : Planning K V,
      (cs.foldl (fun p c =>
        let index := s.shardIndex hash c.key
        { p with
          counts := Function.update p.counts index (p.counts index + 1)
          weighted := p.weighted + c.weight }) p).engine = p.engine := by
    induction cs with
    | nil => exact fun _ => rfl
    | cons c cs ih => exact fun p => (ih _).trans rfl
  exact hfold cs _

theorem maintainPerShard_removals (options : Options) {s : State K V} {p : Pass K V}
    (h : maintainPerShard fx options s = some p) : Removals fx ⟨s, []⟩ p := by
  unfold maintainPerShard at h
  split at h
  · cases h
  · next limit _ =>
    split at h
    · cases h
    · cases h
      have hmutation : Removal fx ⟨s, []⟩ ⟨{ s with engine := s.engine.mutation }, []⟩ :=
        .metadata rfl
      have htrim := Removals.foldl (trimStep_removals (V := V) fx limit)
        (shardPlans fx options.policy limit { s with engine := s.engine.mutation })
      refine Removals.metadata (.head hmutation (htrim _)) ?_
      split <;> rfl

theorem maintainGlobal_removals (options : Options) (weight : K → V → Nat)
    (policy : CapacityPolicy) (limit : Option Nat) (s : State K V) :
    Removals fx ⟨s, []⟩ (maintainGlobal hash fx options weight policy limit s) := by
  unfold maintainGlobal
  dsimp only
  refine Removals.metadata (.head ?_ (Removals.foldl (removeStep_removals fx) _ _)) rfl
  rw [State.reconcile_eq]
  refine .metadata ((metrics_planStep hash fx options limit _ _ _).trans ?_)
  rw [engine_tally]
  exact State.metrics_reconcile fx weight { s with engine := s.engine.markPending.mutation }

theorem maintainEviction_removals (options : Options) (weight : K → V → Nat)
    (requested : Option Nat) (policy : Option CapacityPolicy) (s : State K V) :
    Removals fx ⟨s, []⟩ (maintainEviction hash fx options weight requested policy s) := by
  unfold maintainEviction
  dsimp only
  split
  · next p hp =>
    split at hp
    · exact maintainPerShard_removals fx options hp
    · cases hp
  · split
    · exact .single (.metadata rfl)
    · exact maintainGlobal_removals hash fx options weight _ _ s

end Async
end Starshard.Eviction
