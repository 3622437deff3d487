import Starshard.Spec.Call
import Starshard.Sync.Operations

/-! What every public operation means on the abstract map: which events explain its
answer, and which counters it advances beside the evictions of its maintenance. -/
namespace Starshard

open Data Sync

variable {K V : Type}

/-- A single-key operation answers from what it finds, and commits one event. -/
def KeyCall.meaning (valueEq : V → V → Bool) (call : KeyCall K V) (r : Answer K V)
    (es : List (Event K V)) (cs : List Metric) : Prop :=
  ∃ old, r = (call.outcome valueEq old).answer ∧ es = [(call.outcome valueEq old).event] ∧
    cs = (call.outcome valueEq old).counts

/-- A snapshot holds the contents of one instant, under the version of that instant. -/
def snapshotMeaning (answer : Nat → List (K × V) → Answer K V) (r : Answer K V)
    (es : List (Event K V)) (cs : List Metric) : Prop :=
  ∃ version items contents, Represents items contents ∧ r = answer version items ∧
    es = [.snapshot version contents] ∧ cs = []

variable [DecidableEq K]

def meaning (valueEq : V → V → Bool) : Op K V → Answer K V → List (Event K V) → List Metric → Prop
  | .insert k v => (KeyCall.insert k v).meaning valueEq
  | .get k => (KeyCall.get k).meaning valueEq
  | .readWith k read => (KeyCall.readWith k read).meaning valueEq
  | .contains k => (KeyCall.contains k).meaning valueEq
  | .remove k => (KeyCall.remove k).meaning valueEq
  | .getOrInsertWith k f => (KeyCall.getOrInsertWith k f).meaning valueEq
  | .computeIfPresent k f => (KeyCall.computeIfPresent k f).meaning valueEq
  | .compareAndSwap k expected new => (KeyCall.compareAndSwap k expected new).meaning valueEq
  | .compareAndRemove k expected => (KeyCall.compareAndRemove k expected).meaning valueEq
  | .batchInsert entries => fun r es cs => ∃ done : List ((K × V) × Option V),
      Rearranged Prod.fst entries (done.map Prod.fst) ∧ r = .count (done.countP (·.2.isNone)) ∧
        es = done.map insertion ∧ cs = done.flatMap insertionCounts
  | .batchRemove keys => fun r es cs => ∃ done : List (K × Option V),
      Rearranged (fun k => k) keys (done.map Prod.fst) ∧ r = .count (done.countP (·.2.isSome)) ∧
        es = done.map removal ∧ cs = done.flatMap removalCounts
  | .batchGet keys => fun r es cs => ∃ (done : List ((Nat × K) × Option V)) (vs : List (Option V)),
      Rearranged Prod.snd (positions keys) (done.map Prod.fst) ∧ r = .values vs ∧
        vs.length = keys.length ∧ (∀ e ∈ done, vs[e.1.1]? = some e.2) ∧
        es = done.map reading ∧ cs = done.flatMap readingCounts
  | .retain predicate => fun r es cs => ∃ dropped, r = .done ∧
      es = [.retain predicate dropped] ∧ cs = List.replicate dropped.length .removes
  | .clear => fun r es cs => ∃ items, r = .done ∧ es = [.drain items] ∧
      cs = List.replicate items.length .removes
  | .drain => fun r es cs => ∃ items, r = .items items ∧ es = [.drain items] ∧
      cs = List.replicate items.length .removes
  | .executeTransaction ops => fun r es cs => ∃ found, r = .transaction .committed ∧
      es = [.transact ops found] ∧ cs = (ops.zip found).flatMap fun e => txnCounts e.1 e.2
  | .snapshotView | .captureSnapshot => snapshotMeaning Answer.snapshot
  | .iter | .collect => snapshotMeaning fun _ items => .items items
  | .snapshotAtVersion version => fun r es cs =>
      (r = .versioned none ∧ es = [.outdated version] ∧ cs = []) ∨
      snapshotMeaning (fun current items =>
        .versioned (if version = current then some items else none)) r es cs
  -- the length is read while other operations are between an entry and its count
  | .len => fun r es cs => (∃ n, r = .count n) ∧ es = [] ∧ cs = []
  | _ => fun r es cs => r = .done ∧ es = [] ∧ cs = []

/-- Operations that move entries in a loop, one step at a time. -/
def advances : Op K V → Bool
  | .advanceRebalance _ _ | .advanceRebalanceWithOptions _ _ | .rebalanceTo _ _ _
  | .workerBatch _ _ => true
  | _ => false

/-- Maintenance may follow these operations. -/
def maintains : Op K V → Bool
  | .insert _ _ | .remove _ | .getOrInsertWith _ _ | .computeIfPresent _ _ | .compareAndSwap _ _ _
  | .compareAndRemove _ _ | .batchInsert _ | .batchRemove _ | .retain _ | .clear | .drain
  | .executeTransaction _ | .runEviction _ _ => true
  | _ => false

end Starshard
