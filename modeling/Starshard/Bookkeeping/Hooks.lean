import Starshard.Concurrent.History
import Starshard.Data.Search
import Starshard.Repair.Machine

/-! The hooks of `eviction/engine.rs` on the metadata of a configured map, and the
statistics that are read from it. A hook holds the lock of one stripe; it unwinds where
user code weighs a value or hashes, compares or copies a key. -/
namespace Starshard.Bookkeeping

open Data Retirement
open Repair (Entry Metadata Engine)
open Concurrent (Replay)

/-- A call of user code. -/
inductive User where
  | weigh
  | hash
  | clone
  /-- The comparison with entry `n` of the bucket. -/
  | eq (n : Nat)

inductive Fault where
  | user
  /-- A subtraction went below zero. -/
  | underflow

abbrev Hook (K α : Type) := Failing Fault (Engine K) α

/-- `PreparedInsert`; a weight is a `usize`. -/
structure Prepared (K : Type) where
  key : Handle K
  hash : UInt64
  weight : UInt64

/-- A borrowed key: its hash, and its comparison with a stored key. -/
structure Query (K : Type) where
  hash : UInt64
  eq : K → Bool

variable {K : Type}

def stamp : Hook K UInt64 :=
  modifyGet fun e => (e.sequence, { e with sequence := e.sequence + 1 })

def subtract (a b : Nat) : Hook K Nat :=
  if a < b then throw .underflow else pure (a - b)

def setStripe (i : Stripe) (m : Metadata K) : Hook K Unit :=
  modify fun e => { e with stripes := Function.update e.stripes i m }

/-- `retired_stripes.fetch_or(1_u64 << index)`. -/
def markRetired (i : Stripe) : Hook K Unit :=
  modify fun e => { e with retiredStripes := e.retiredStripes ||| bit i }

def deferKey (hash : UInt64) (key : Handle K) : Hook K Unit := do
  let e ← get
  let stripe := e.stripes (stripeOf hash)
  setStripe (stripeOf hash) { stripe with retired := stripe.retired ++ [key] }
  markRetired (stripeOf hash)

/-- `saturating_add(1)`. -/
def saturatingSucc (n : UInt64) : UInt64 := if n + 1 = 0 then n else n + 1

def refreshed (stamp weight : UInt64) (replaced : Bool) (x : Entry K) : Entry K :=
  if replaced then
    { x with
      weight := weight.toNat
      incarnation := stamp
      accessed := stamp
      frequency := saturatingSucc x.frequency }
  else
    { x with
      weight := weight.toNat
      incarnation := stamp
      accessed := stamp
      inserted := stamp
      frequency := 1 }

def touched (stamp : UInt64) (x : Entry K) : Entry K :=
  { x with accessed := max x.accessed stamp, frequency := saturatingSucc x.frequency }

/-- `if buckets.get(&hash).is_some_and(Vec::is_empty) { buckets.remove(&hash) }`. -/
def dropEmpty (hash : UInt64) (e : Engine K) : Engine K :=
  let stripe := e.stripes (stripeOf hash)
  match stripe.buckets.lookup hash with
  | some [] =>
    { e with
      stripes := Function.update e.stripes (stripeOf hash)
        { stripe with buckets := stripe.buckets.erase hash } }
  | _ => e

/-- `bucket.position(..)`, then `swap_remove` and the bookkeeping of both removals. -/
def removeWhere (hash : UInt64) (test : Nat → Entry K → Except Fault Bool) : Hook K Unit := do
  let e ← get
  let index := stripeOf hash
  let stripe := e.stripes index
  let bucket := stripe.bucket hash
  match position test bucket with
  | .error c => throw c
  | .ok none => modify (dropEmpty hash)
  | .ok (some (x, n)) =>
    let weight ← subtract stripe.weight x.weight
    setStripe index { stripe with
      buckets := stripe.buckets.insert hash (swapRemove bucket n)
      weight := weight
      retired := stripe.retired ++ [x.key] }
    let entries ← subtract e.entries 1
    modify fun e => { e with entries := entries }
    markRetired index
    modify (dropEmpty hash)

def recordEviction (hash incarnation : UInt64) : Hook K Unit :=
  removeWhere hash fun _ x => .ok (x.incarnation == incarnation)

section Hooks

variable (panics : User → Bool)

/-- The comparison with a stored key. -/
def compareKey (eq : K → Bool) (n : Nat) (x : Entry K) : Except Fault Bool :=
  if panics (.eq n) then .error .user else .ok (eq x.key.key)

/-- `weight(key, value)`; the weigher, if there is one, returns `weighed`. -/
def weight (weighed : Option UInt64) : Hook K UInt64 :=
  match weighed with
  | none => pure 0
  | some w => do
    if panics .weigh then throw .user
    return w

def recordRead (q : Query K) (hit : Bool) : Hook K Unit := do
  if hit then
    if panics .hash then throw .user
    let e ← get
    let index := stripeOf q.hash
    let stripe := e.stripes index
    let bucket := stripe.bucket q.hash
    match position (compareKey panics q.eq) bucket with
    | .error c => throw c
    | .ok none => pure ()
    | .ok (some (x, n)) =>
      let stamp ← stamp
      setStripe index { stripe with
        buckets := stripe.buckets.insert q.hash (bucket.set n (touched stamp x)) }

def recordRemove (q : Query K) : Hook K Unit := do
  if panics .hash then throw .user
  removeWhere q.hash (compareKey panics q.eq)

variable [DecidableEq K]

/-- `Arc::ptr_eq(&entry.key, &key) || *entry.key == *key`. -/
def sameKey (key : Handle K) (n : Nat) (x : Entry K) : Except Fault Bool :=
  if x.key.id = key.id then .ok true
  else compareKey panics (fun k => decide (k = key.key)) n x

/-- `buckets.entry(hash).or_insert_with(..)`. -/
def openBucket (hash : UInt64) : Hook K Unit := do
  let e ← get
  let stripe := e.stripes (stripeOf hash)
  setStripe (stripeOf hash) { stripe with
    buckets := stripe.buckets.insert hash (stripe.bucket hash) }

/-- The search in the bucket and the writes that follow it. -/
def insertEntry (prepared : Prepared K) (replaced : Bool) (stamp : UInt64) : Hook K Unit := do
  let e ← get
  let index := stripeOf prepared.hash
  let stripe := e.stripes index
  let bucket := stripe.bucket prepared.hash
  match position (sameKey panics prepared.key) bucket with
  | .error c =>
    deferKey prepared.hash prepared.key
    throw c
  | .ok (some (x, n)) =>
    let rest ← subtract stripe.weight x.weight
    setStripe index { stripe with
      buckets := stripe.buckets.insert prepared.hash
        (bucket.set n (refreshed stamp prepared.weight replaced x))
      weight := (rest + prepared.weight.toNat) % 2 ^ 128 }
  | .ok none =>
    setStripe index { stripe with
      buckets := stripe.buckets.insert prepared.hash
        (bucket ++ [⟨prepared.key, stamp, stamp, stamp, 1, prepared.weight.toNat⟩])
      weight := (stripe.weight + prepared.weight.toNat) % 2 ^ 128 }
    modify fun e => { e with entries := (e.entries + 1) % 2 ^ 64 }

/-- `record_insert`. A comparison that unwinds leaves the bucket, possibly empty; the
prepared key is then retired with its stripe. -/
def recordInsert (prepared : Prepared K) (replaced : Bool) : Hook K Unit := do
  let stamp ← stamp
  openBucket prepared.hash
  insertEntry panics prepared replaced stamp

variable (fx : K → UInt64)

/-- `prepare_insert`; `allocation` is the address of the copy of a key that has no entry. -/
def prepareInsert (k : K) (weighed : Option UInt64) (allocation : Nat) : Hook K (Prepared K) := do
  let weight ← weight panics weighed
  if panics .hash then throw .user
  let hash := fx k
  let e ← get
  match position (compareKey panics fun key => decide (key = k))
    ((e.stripes (stripeOf hash)).bucket hash) with
  | .error c => throw c
  | .ok (some (x, _)) => return ⟨x.key, hash, weight⟩
  | .ok none =>
    if panics .clone then throw .user
    return ⟨⟨allocation, k⟩, hash, weight⟩

end Hooks

section Statistics

/-- The `u128` sum of the stripe weights. -/
def exactWeight (e : Engine K) : Nat :=
  ((List.finRange stripes).map fun i => (e.stripes i).weight).sum % 2 ^ 128

def overMemoryBudget (memoryBudget : Option UInt64) (e : Engine K) : Bool :=
  memoryBudget.any fun budget => decide (budget.toNat < exactWeight e)

/-- `weight.min(usize::MAX as u128)`. -/
def estimatedWeight (e : Engine K) : Nat := min (exactWeight e) (2 ^ 64 - 1)

def weightOverflow (e : Engine K) : Bool := decide (2 ^ 64 - 1 < exactWeight e)

end Statistics

/-- An engine and the prepared insertions that were not recorded yet. -/
structure System (K : Type) where
  engine : Engine K
  prepared : List (Prepared K)

def System.new (K : Type) : System K := ⟨⟨fun _ => .default, 0, 0, 1, 1, 0, 0, 0, 0⟩, []⟩

/-- A call of a hook, with the user calls that unwind in it. -/
inductive Call (K : Type) where
  | prepareInsert (k : K) (weighed : Option UInt64) (allocation : Nat) (panics : User → Bool)
  | recordInsert (n : Nat) (replaced : Bool) (panics : User → Bool)
  /-- Drop the prepared insertion `n`. -/
  | discard (n : Nat)
  | recordRead (q : Query K) (hit : Bool) (panics : User → Bool)
  | recordRemove (q : Query K) (panics : User → Bool)
  | recordEviction (hash incarnation : UInt64)
  | reconcile (entries : List (Handle K × UInt64)) (panics : Nat → Nat → Bool) (marks : Nat → Nat)

/-- A reconciliation lists the keys of a map, none of them twice. -/
def Call.Distinct : Call K → Prop
  | .reconcile entries _ _ => (entries.map fun item => item.1.key).Nodup
  | _ => True

section Run

variable [DecidableEq K] (fx : K → UInt64)

def exec (c : Call K) (s : System K) : Except Fault Unit × System K :=
  match c with
  | .prepareInsert k weighed allocation panics =>
    match ExceptT.run (prepareInsert panics fx k weighed allocation) s.engine with
    | (.ok p, e) => (.ok (), ⟨e, s.prepared ++ [p]⟩)
    | (.error c, e) => (.error c, ⟨e, s.prepared⟩)
  | .recordInsert n replaced panics =>
    match s.prepared[n]? with
    | none => (.ok (), s)
    | some p =>
      let (r, e) := ExceptT.run (recordInsert panics p replaced) s.engine
      (r, ⟨e, s.prepared.eraseIdx n⟩)
  | .discard n =>
    match s.prepared[n]? with
    | none => (.ok (), s)
    | some p =>
      let (r, e) := ExceptT.run (deferKey p.hash p.key) s.engine
      (r, ⟨e, s.prepared.eraseIdx n⟩)
  | .recordRead q hit panics =>
    let (r, e) := ExceptT.run (recordRead panics q hit) s.engine
    (r, ⟨e, s.prepared⟩)
  | .recordRemove q panics =>
    let (r, e) := ExceptT.run (recordRemove panics q) s.engine
    (r, ⟨e, s.prepared⟩)
  | .recordEviction hash incarnation =>
    let (r, e) := ExceptT.run (recordEviction hash incarnation) s.engine
    (r, ⟨e, s.prepared⟩)
  | .reconcile entries panics marks =>
    let (r, e) := ExceptT.run (Repair.reconcile fx panics marks
      (entries.map fun item => (item.1, item.2.toNat))) s.engine
    (r.mapError fun _ => .user, ⟨e, s.prepared⟩)

/-- A call, however it ends. Every entry takes a byte of memory. -/
def Step (c : Call K) (s s' : System K) : Prop :=
  (exec fx c s).2 = s' ∧
    ((List.finRange stripes).flatMap fun i => (s'.engine.stripes i).contents).length < 2 ^ 64

def Run (cs : List (Call K)) (s : System K) : Prop := Replay (Step fx) (System.new K) cs s

end Run
end Starshard.Bookkeeping
