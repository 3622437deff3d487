import Starshard.Spec.Event

/-! What the calls of a client mean on the abstract map. A call on one key reads the
entry it finds, answers from it, and commits one event. -/
namespace Starshard

variable {K V : Type}

/-- The single-key operations, with what they are called with. -/
inductive KeyCall (K V : Type) where
  | get (k : K)
  | readWith (k : K) (read : V → V)
  | contains (k : K)
  | insert (k : K) (v : V)
  | remove (k : K)
  | getOrInsertWith (k : K) (f : Unit → V)
  | computeIfPresent (k : K) (f : V → Option V)
  | compareAndSwap (k : K) (expected new : V)
  | compareAndRemove (k : K) (expected : V)

inductive Answer (K V : Type) where
  | value (v : Option V)
  | flag (b : Bool)
  /-- The flag tells whether the initializer ran. -/
  | entry (v : V) (inserted : Bool)
  | swap (r : CasResult V)
  | count (n : Nat)
  | values (vs : List (Option V))
  | items (items : List (K × V))
  | snapshot (version : Nat) (items : List (K × V))
  /-- The entries at a version that was asked for, if it is still current. -/
  | versioned (items : Option (List (K × V)))
  | transaction (r : TransactionResult)
  | done
  deriving DecidableEq

/-- The outcome of a call that found a certain entry. -/
structure Outcome (K V : Type) where
  answer : Answer K V
  event : Event K V
  counts : List Metric

def lookupCounts (hit : Bool) : List Metric := [.gets, if hit then .hits else .misses]

def txnCounts : TxnOp K V → Option V → List Metric
  | .read _, found => lookupCounts found.isSome
  | .write _ _, _ => [.inserts]
  | .remove _, found => if found.isSome then [.removes] else []

/-- A batch takes effect in an order that keeps the items of each key as they were. -/
def Rearranged [DecidableEq K] {α : Type} (key : α → K) (items done : List α) : Prop :=
  ∀ k, (done.filter fun x => key x = k) = items.filter fun x => key x = k

def insertion (e : (K × V) × Option V) : Event K V := .modify e.1.1 e.2 (some e.1.2)

def insertionCounts (_ : (K × V) × Option V) : List Metric := [.inserts]

def removal (e : K × Option V) : Event K V := .removal e.1 e.2

def removalCounts (e : K × Option V) : List Metric := if e.2.isSome then [.removes] else []

abbrev positions (keys : List K) : List (Nat × K) := keys.zipIdx.map Prod.swap

def reading (e : (Nat × K) × Option V) : Event K V := .read e.1.2 e.2

def readingCounts (e : (Nat × K) × Option V) : List Metric := lookupCounts e.2.isSome

namespace KeyCall

def key : KeyCall K V → K
  | .get k | .readWith k _ | .contains k | .insert k _ | .remove k | .getOrInsertWith k _
  | .computeIfPresent k _ | .compareAndSwap k _ _ | .compareAndRemove k _ => k

/-- The answer to a call that finds `old`, the event it commits, the counters it advances. -/
def outcome (valueEq : V → V → Bool) : KeyCall K V → Option V → Outcome K V
  | .get k, old => ⟨.value old, .read k old, lookupCounts old.isSome⟩
  | .readWith k read, old => ⟨.value (old.map read), .read k old, lookupCounts old.isSome⟩
  | .contains k, old => ⟨.flag old.isSome, .read k old, lookupCounts old.isSome⟩
  | .insert k v, old => ⟨.value old, .modify k old (some v), [.inserts]⟩
  | .remove k, old =>
    ⟨.value old, .removal k old, if old.isSome then [.removes] else []⟩
  | .getOrInsertWith k _, some v => ⟨.entry v false, .read k (some v), lookupCounts true⟩
  | .getOrInsertWith k f, none =>
    ⟨.entry (f ()) true, .modify k none (some (f ())), lookupCounts false ++ [.inserts]⟩
  | .computeIfPresent k f, some v => match f v with
    | some new =>
      ⟨.value (some new), .modify k (some v) (some new), lookupCounts true ++ [.inserts]⟩
    | none => ⟨.value none, .modify k (some v) none, lookupCounts true ++ [.removes]⟩
  | .computeIfPresent k _, none => ⟨.value none, .read k none, lookupCounts false⟩
  | .compareAndSwap k expected new, some v =>
    if valueEq v expected then
      ⟨.swap (.success new), .modify k (some v) (some new), lookupCounts true ++ [.inserts]⟩
    else ⟨.swap (.failure v), .read k (some v), lookupCounts true⟩
  | .compareAndSwap k _ new, none => ⟨.swap (.failure new), .read k none, lookupCounts false⟩
  | .compareAndRemove k expected, some v =>
    if valueEq v expected then
      ⟨.flag true, .modify k (some v) none, lookupCounts true ++ [.removes]⟩
    else ⟨.flag false, .read k (some v), lookupCounts true⟩
  | .compareAndRemove k _, none => ⟨.flag false, .read k none, lookupCounts false⟩

end KeyCall
end Starshard
