import Starshard.Eviction.Engine
import Starshard.Worker.Tables

/-! A maintenance pass that runs alone: `run_eviction` of the synchronous map and
`maintain_eviction` of the asynchronous one. -/
namespace Starshard.Eviction

open Data
open Worker (Tables slot)

structure Location where
  old : Bool
  index : Nat

structure State (K V : Type) where
  tables : Tables K V
  totalLen : Nat
  writeEpoch : Nat
  engine : Engine K

/-- A state and the entries evicted so far, in the order of their removal. -/
structure Pass (K V : Type) where
  state : State K V
  removed : List (K × V)

variable {K V : Type} [DecidableEq K] (hash fx : K → Nat)

namespace State

def shard (l : Location) (s : State K V) : Assoc K V :=
  if l.old then slot (s.tables.previous.getD []) l.index else slot s.tables.active l.index

def eraseAt (l : Location) (k : K) (s : State K V) : Tables K V :=
  if l.old then { s.tables with previous := s.tables.previous.map (Worker.eraseAt l.index k) }
  else { s.tables with active := Worker.eraseAt l.index k s.tables.active }

def shardIndex (k : K) (s : State K V) : Nat := hash k % s.tables.shardCount

/-- `active[index].clone()`. -/
def activeShard (index : Nat) (s : State K V) : Option Location :=
  s.tables.active[index]?.join.map fun _ => ⟨false, index⟩

/-- `previous_shard` of the synchronous map. -/
def previousShard (k : K) (s : State K V) : Option Location :=
  if s.tables.previousShardCount = 0 then none
  else s.tables.previous.bind fun slots =>
    slots[hash k % s.tables.previousShardCount]?.join.map fun _ =>
      ⟨true, hash k % s.tables.previousShardCount⟩

def weigh (weight : K → V → Nat) (s : State K V) : List (K × Nat) :=
  s.tables.entries.map fun e => (e.1, weight e.1 e.2)

/-- `reconcile_eviction_metadata`. -/
def reconcile (weight : K → V → Nat) (s : State K V) : State K V :=
  if s.engine.dirty then
    { s with engine := s.engine.mutation.reconcile fx (s.weigh weight) }
  else s

end State

/-- A stored entry leaves its shard; the counters and the metadata follow. -/
def Pass.evict (l : Location) (c : EvictionCandidate K) (v : V) (p : Pass K V) : Pass K V where
  state :=
    { tables := p.state.eraseAt l c.key
      totalLen := p.state.totalLen - 1
      writeEpoch := wrapping (p.state.writeEpoch + 1)
      engine := p.state.engine.recordEviction fx c }
  removed := p.removed ++ [(c.key, v)]

/-- The entry limit of a pass: the smaller of the two that are given. -/
def entryLimit (requested configured : Option Nat) : Option Nat :=
  match requested, configured with
  | some a, some b => some (min a b)
  | a, b => a <|> b

def oneOver (target : Option Nat) (len : Nat) : Bool := target.any fun limit => len = limit + 1

/-- Nothing exceeds a limit that is known without a scan. -/
def withinLimits (options : Options) (target : Option Nat) (s : State K V) : Bool :=
  !s.engine.dirty && options.maxItemsPerShard.isNone && target.all (s.totalLen ≤ ·) &&
    !s.engine.overMemoryBudget options.toEvictionConfig

namespace Sync

/-- Evict from one shard, in the order of the ranking, until it is within its limit. -/
def trim (limit : Nat) (l : Location) : List (EvictionCandidate K) → Pass K V → Pass K V
  | [], p => p
  | c :: cs, p =>
    if (p.state.shard l).size ≤ limit then p
    else if !p.state.engine.validate fx c then trim limit l cs p
    else match (p.state.shard l).lookup c.key with
      | none => trim limit l cs p
      | some v => trim limit l cs (p.evict fx l c v)

/-- The flag tells that some shard is still over its limit. -/
def limitShard (policy : CapacityPolicy) (limit : Nat) (r : Pass K V × Bool) (index : Nat) :
    Pass K V × Bool :=
  match r.1.state.tables.active[index]?.join with
  | none => r
  | some m =>
    if m.size ≤ limit then r
    else
      let candidates := r.1.state.engine.candidatesForKeys fx policy m.keys
      let p := trim fx limit ⟨false, index⟩ candidates r.1
      (p, r.2 || decide (limit < (p.state.shard ⟨false, index⟩).size))

def limitShards (policy : CapacityPolicy) (limit : Nat) (p : Pass K V) : Pass K V × Bool :=
  (List.range p.state.tables.active.length).foldl (limitShard fx policy limit) (p, false)

/-- The logical number of entries of each active shard. -/
def countShards (s : State K V) : Nat → Nat :=
  s.tables.entries.foldl (fun counts e =>
    Function.update counts (s.shardIndex hash e.1) (counts (s.shardIndex hash e.1) + 1)) fun _ => 0

structure Sweep (K V : Type) where
  pass : Pass K V
  counts : Nat → Nat
  overWeight : Bool

def sweepShards (options : Options) (index : Nat) (c : EvictionCandidate K) :
    List Location → Sweep K V → Sweep K V
  | [], s => s
  | l :: ls, s =>
    match (s.pass.state.shard l).lookup c.key with
    | none => sweepShards options index c ls s
    | some v =>
      let pass := s.pass.evict fx l c v
      { pass := pass
        overWeight := s.overWeight &&
          pass.state.engine.overMemoryBudget options.toEvictionConfig
        counts := if options.maxItemsPerShard.isSome then
            Function.update s.counts index (s.counts index - 1)
          else s.counts }

def sweep (options : Options) (target : Option Nat) :
    List (EvictionCandidate K) → Sweep K V → Sweep K V
  | [], s => s
  | c :: cs, s =>
    let overEntries := target.any (s.pass.state.totalLen > ·)
    if options.maxItemsPerShard.isNone && !overEntries && !s.overWeight then s
    else
      let index := s.pass.state.shardIndex hash c.key
      let overShard := options.maxItemsPerShard.any (s.counts index > ·)
      if !overEntries && !overShard && !s.overWeight then sweep options target cs s
      else if !s.pass.state.engine.validate fx c then sweep options target cs s
      else
        let shards := (s.pass.state.activeShard index).toList ++
          (s.pass.state.previousShard hash c.key).toList
        sweep options target cs (sweepShards fx options index c shards s)

def selectCandidates (options : Options) (policy : CapacityPolicy) (target : Option Nat)
    (s : State K V) : List (EvictionCandidate K) :=
  if options.maxItemsPerShard.isSome || target.any (s.totalLen > ·) ||
      s.engine.overMemoryBudget options.toEvictionConfig then
    if options.maxItemsPerShard.isNone && options.memoryBudget.isNone &&
        oneOver target s.totalLen then
      (s.engine.minimumCandidate fx policy).toList
    else s.engine.candidates fx policy
  else []

/-- The pass under exclusive routing. -/
def evictGlobal (options : Options) (weight : K → V → Nat) (policy : CapacityPolicy)
    (target : Option Nat) (p : Pass K V) : Pass K V :=
  let s := { p.state with engine := p.state.engine.mutation }.reconcile fx weight
  let observed := s.engine.maintenanceGeneration
  let counts := if options.maxItemsPerShard.isSome then countShards hash s else fun _ => 0
  let r := sweep hash fx options target (selectCandidates fx options policy target s)
    ⟨⟨s, p.removed⟩, counts, s.engine.overMemoryBudget options.toEvictionConfig⟩
  { r.pass with
    state := { r.pass.state with engine := r.pass.state.engine.markMaintained observed } }

/-- The pass that pins the layout and locks one overfull shard at a time; it falls
back to exclusive routing when a shard stays over its limit. -/
def evictPerShard (options : Options) (weight : K → V → Nat) (policy : CapacityPolicy)
    (limit : Nat) (s : State K V) : Pass K V :=
  let s := { s with engine := s.engine.mutation }
  let observed := s.engine.maintenanceGeneration
  let r := limitShards fx policy limit ⟨s, []⟩
  if !r.2 && !r.1.state.engine.dirty then
    { r.1 with state := { r.1.state with engine := r.1.state.engine.markMaintained observed } }
  else evictGlobal hash fx options weight policy none r.1

/-- `run_eviction`: the number of removed entries is the returned count. -/
def runEviction (options : Options) (weight : K → V → Nat) (requested : Option Nat)
    (policy : Option CapacityPolicy) (s : State K V) : Pass K V :=
  let policy := policy.getD options.policy
  let observed := s.engine.maintenanceGeneration
  let target := entryLimit requested options.maxEntries
  if withinLimits options target s then
    ⟨{ s with engine := s.engine.markMaintained observed }, []⟩
  else match options.maxItemsPerShard with
    | none => evictGlobal hash fx options weight policy target ⟨s, []⟩
    | some limit =>
      if target.isNone && options.memoryBudget.isNone && !s.engine.dirty &&
          s.tables.previousShardCount == 0 then
        evictPerShard hash fx options weight policy limit s
      else evictGlobal hash fx options weight policy target ⟨s, []⟩

end Sync

namespace Async

/-- One candidate of a selected shard. -/
def trimStep (limit : Nat) (p : Pass K V) (plan : EvictionCandidate K × Nat) : Pass K V :=
  let l : Location := ⟨false, plan.2⟩
  if (p.state.shard l).size ≤ limit || !p.state.engine.validate fx plan.1 then p
  else match (p.state.shard l).lookup plan.1.key with
    | some v => p.evict fx l plan.1 v
    | none => { p with state := { p.state with engine := p.state.engine.markDirty } }

def overfull (limit : Nat) (s : State K V) : List Nat :=
  (List.range s.tables.active.length).filter fun i =>
    s.tables.active[i]?.join.any (limit < ·.size)

def shardPlans (policy : CapacityPolicy) (limit : Nat) (s : State K V) :
    List (EvictionCandidate K × Nat) :=
  (overfull limit s).flatMap fun i =>
    (s.engine.candidatesForKeys fx policy (s.shard ⟨false, i⟩).keys).map (·, i)

/-- `maintain_per_shard`; `none` leaves the work to the global pass. Nothing runs
between the two checks of the dirty flag. -/
def maintainPerShard (options : Options) (s : State K V) : Option (Pass K V) :=
  match options.maxItemsPerShard with
  | none => none
  | some limit =>
    if s.tables.previousShardCount != 0 || s.engine.dirty then none
    else
      let s := { s with engine := s.engine.mutation }
      let observed := s.engine.maintenanceGeneration
      let p := (shardPlans fx options.policy limit s).foldl (trimStep fx limit) ⟨s, []⟩
      let withinLimits := (overfull limit s).all fun i => (p.state.shard ⟨false, i⟩).size ≤ limit
      let engine := if withinLimits then p.state.engine.markMaintained observed else p.state.engine
      some { p with state := { p.state with engine := engine } }

structure Planning (K V : Type) where
  remaining : Nat
  counts : Nat → Nat
  weighted : Nat
  plans : List (EvictionCandidate K × Location)
  engine : Engine K

def locate (k : K) (s : State K V) : Option Location :=
  let active : Location := ⟨false, s.shardIndex hash k⟩
  if ((s.shard active).lookup k).isSome then some active
  else s.tables.previous.bind fun slots =>
    let old : Location := ⟨true, hash k % slots.length⟩
    if ((s.shard old).lookup k).isSome then some old else none

def planStep (options : Options) (limit : Option Nat) (s : State K V) (p : Planning K V)
    (c : EvictionCandidate K) : Planning K V :=
  let index := s.shardIndex hash c.key
  let overEntries := limit.any (p.remaining > ·)
  let overShard := options.maxItemsPerShard.any (p.counts index > ·)
  let overWeight := options.memoryBudget.any (p.weighted > ·)
  if !(overEntries || overShard || overWeight) then p
  else if !p.engine.validate fx c then p
  else match locate hash c.key s with
    | some l =>
      { p with
        plans := p.plans ++ [(c, l)]
        remaining := p.remaining - 1
        weighted := p.weighted - c.weight
        counts := Function.update p.counts index (p.counts index - 1) }
    | none => { p with engine := p.engine.markDirty }

def removeStep (p : Pass K V) (plan : EvictionCandidate K × Location) : Pass K V :=
  if !p.state.engine.validate fx plan.1 then p
  else match (p.state.shard plan.2).lookup plan.1.key with
    | some v => p.evict fx plan.2 plan.1 v
    | none => { p with state := { p.state with engine := p.state.engine.markDirty } }

def tally (cs : List (EvictionCandidate K)) (s : State K V) : Planning K V :=
  cs.foldl (fun p c =>
    let index := s.shardIndex hash c.key
    { p with
      counts := Function.update p.counts index (p.counts index + 1)
      weighted := p.weighted + c.weight }) ⟨s.totalLen, fun _ => 0, 0, [], s.engine⟩

def selectCandidates (options : Options) (policy : CapacityPolicy) (limit : Option Nat)
    (s : State K V) : List (EvictionCandidate K) :=
  if options.maxItemsPerShard.isNone && options.memoryBudget.isNone &&
      oneOver limit s.totalLen then
    (s.engine.minimumCandidate fx policy).toList
  else s.engine.candidates fx policy

/-- `maintain_eviction` from the exclusive routing guard on. -/
def maintainGlobal (options : Options) (weight : K → V → Nat) (policy : CapacityPolicy)
    (limit : Option Nat) (s : State K V) : Pass K V :=
  let s := { s with engine := s.engine.markPending.mutation }
  let observed := s.engine.maintenanceGeneration
  let s := s.reconcile fx weight
  let candidates := selectCandidates fx options policy limit s
  let planned := candidates.foldl (planStep hash fx options limit s) (tally hash candidates s)
  let p := planned.plans.foldl (removeStep fx) ⟨{ s with engine := planned.engine }, []⟩
  { p with state := { p.state with engine := p.state.engine.markMaintained observed } }

/-- `maintain_eviction`: the number of removed entries is the returned count. -/
def maintainEviction (options : Options) (weight : K → V → Nat) (requested : Option Nat)
    (policy : Option CapacityPolicy) (s : State K V) : Pass K V :=
  let perShard := if requested.isNone && policy.isNone && options.maxItemsPerShard.isSome &&
      options.memoryBudget.isNone then maintainPerShard fx options s else none
  match perShard with
  | some p => p
  | none =>
    let observed := s.engine.maintenanceGeneration
    let limit := entryLimit requested options.maxEntries
    if withinLimits options limit s then
      ⟨{ s with engine := s.engine.markMaintained observed }, []⟩
    else maintainGlobal hash fx options weight (policy.getD options.policy) limit s

end Async

end Starshard.Eviction
