import Starshard.Data.Assoc
import Starshard.Data.Failing
import Starshard.Retirement.Machine

/-! `reconcile` (`eviction/engine.rs`): the metadata of a configured map, stripe by
stripe, is rebuilt from a list of the live keys.

The caller holds exclusive routing, so no hook runs beside it; a ticket of an operation
that unwound may still be dropped and mark the metadata dirty. -/
namespace Starshard.Repair

open Data Retirement

/-- `Entry<K>`; the key is an `Arc`. -/
structure Entry (K : Type) where
  key : Handle K
  incarnation : UInt64
  inserted : UInt64
  accessed : UInt64
  frequency : UInt64
  weight : Nat

/-- `Stripe<K>`. A bucket that an interrupted hook left may be empty. -/
structure Metadata (K : Type) where
  buckets : Assoc UInt64 (List (Entry K))
  weight : Nat
  retired : List (Handle K)

def Metadata.default {K : Type} : Metadata K := ⟨∅, 0, []⟩

structure Engine (K : Type) where
  stripes : Stripe → Metadata K
  entries : Nat
  retiredStripes : BitVec 64
  sequence : UInt64
  epoch : UInt64
  dirtyEpoch : UInt64
  repairedEpoch : UInt64
  workEpoch : UInt64
  reconciliations : UInt64

/-- User `Hash` or `Eq` unwinds. -/
inductive Panic where
  | user

abbrev Program (K α : Type) := Failing Panic (Engine K) α

variable {K : Type}

def Engine.dirty (e : Engine K) : Bool := e.dirtyEpoch != e.repairedEpoch

/-- `n` calls of `mark_dirty`. -/
def Engine.marked (n : Nat) (e : Engine K) : Engine K :=
  { e with
    dirtyEpoch := e.dirtyEpoch + UInt64.ofNat n
    workEpoch := e.workEpoch + UInt64.ofNat n }

def Metadata.contents (m : Metadata K) : List (Entry K) := m.buckets.items.flatMap Prod.snd

/-- The bucket of a hash, empty when there is none. -/
def Metadata.bucket (hash : UInt64) (m : Metadata K) : List (Entry K) :=
  (m.buckets.lookup hash).getD []

/-- `buckets.entry(hash).or_insert_with(..).push(entry)`, with the weight of the entry. -/
def Metadata.push (hash : UInt64) (x : Entry K) (m : Metadata K) : Metadata K :=
  { m with
    buckets := m.buckets.insert hash (m.bucket hash ++ [x])
    weight := m.weight + x.weight }

/-- `sequence.fetch_add(1)`. -/
def stamp : Program K UInt64 :=
  modifyGet fun e => (e.sequence, { e with sequence := e.sequence + 1 })

section Reconcile

variable [DecidableEq K] (fx : K → UInt64)

/-- `bucket.iter().find(..)`; `panics n` if the comparison with entry `n` unwinds. -/
def findEntry (panics : Nat → Bool) (k : K) : Nat → List (Entry K) → Program K (Option (Entry K))
  | _, [] => pure none
  | n, x :: xs => do
    if panics n then throw .user
    if x.key.key = k then return some x
    findEntry panics k (n + 1) xs

/-- The entry that is rebuilt for a listed key. -/
def rebuilt (key : Handle K) (weight : Nat) (stamp : UInt64) (old : Option (Entry K)) : Entry K :=
  match old with
  | none => ⟨key, stamp, stamp, stamp, 1, weight⟩
  | some x => ⟨key, stamp, x.inserted, x.accessed, x.frequency, weight⟩

/-- Stage the entry of a key. `panics n 0` if hashing the key read as number `n` unwinds,
`panics n (j + 1)` for comparison `j`; `marks n` counts the tickets dropped before. -/
def stageItem (panics : Nat → Nat → Bool) (marks : Nat → Nat) (staged : Stripe → Metadata K)
    (item : (Handle K × Nat) × Nat) : Program K (Stripe → Metadata K) := do
  modify (·.marked (marks item.2))
  if panics item.2 0 then throw .user
  let hash := fx item.1.1.key
  let index := stripeOf hash
  let stamp ← stamp
  let e ← get
  let old ← findEntry (fun j => panics item.2 (j + 1)) item.1.1.key 0
    ((e.stripes index).bucket hash)
  return Function.update staged index
    ((staged index).push hash (rebuilt item.1.1 item.1.2 stamp old))

/-- Replace a stripe; its retired keys and those of its entries are kept for retirement. -/
def publishStripe (staged : Stripe → Metadata K) (retired : BitVec 64) (index : Stripe) :
    Program K (BitVec 64) := do
  let e ← get
  let guard := e.stripes index
  let replacement := { staged index with
    retired := (staged index).retired ++ guard.retired ++ guard.contents.map Entry.key }
  set { e with stripes := Function.update e.stripes index replacement }
  return if replacement.retired.isEmpty then retired else retired ||| bit index

def reconcile (panics : Nat → Nat → Bool) (marks : Nat → Nat) (items : List (Handle K × Nat)) :
    Program K Unit := do
  let observed := (← get).dirtyEpoch
  let staged ← items.zipIdx.foldlM (stageItem fx panics marks) fun _ => .default
  modify (·.marked (marks items.length))
  let retired ← (List.finRange stripes).foldlM (publishStripe staged) 0#64
  modify fun e => { e with entries := items.length }
  modify fun e => { e with retiredStripes := e.retiredStripes ||| retired }
  modify fun e => { e with epoch := e.epoch + 1 }
  modify fun e => { e with repairedEpoch := observed }
  modify fun e => { e with reconciliations := e.reconciliations + 1 }

end Reconcile
end Starshard.Repair
