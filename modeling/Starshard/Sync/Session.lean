import Starshard.Spec.Call
import Starshard.Sync.Operations

/-! The public operations with the answers that their callers see. -/
namespace Starshard.Sync

open Data Concurrent

variable {K V : Type} [DecidableEq K] (env : Env K V)

/-- The program of an operation, up to the answer of its caller. Reports on loads and
migrations are left out of the answers. -/
def answer : Op K V → Prog K V (Answer K V)
  | .insert k v => return .value (← insert env k v)
  | .get k => return .value (← get env k)
  | .readWith k read => return .value (← readWith env k read)
  | .contains k => return .flag (← contains env k)
  | .remove k => return .value (← remove env k)
  | .len => return .count (← len)
  | .getOrInsertWith k f => do
    let (v, inserted) ← getOrInsertWith env k f
    return .entry v inserted
  | .computeIfPresent k f => return .value (← computeIfPresent env k f)
  | .compareAndSwap k expected new => return .swap (← compareAndSwap env k expected new)
  | .compareAndRemove k expected => return .flag (← compareAndRemove env k expected)
  | .batchInsert entries => return .count (← batchInsert env entries)
  | .batchRemove keys => return .count (← batchRemove env keys)
  | .batchGet keys => return .values (← batchGet env keys)
  | .retain predicate => do
    retain env predicate
    return .done
  | .clear => do
    clear env
    return .done
  | .drain => return .items (← drain env)
  | .executeTransaction ops => return .transaction (← executeTransaction env ops)
  | .snapshotView => do
    let view ← snapshotView
    return .snapshot view.version view.items
  | .captureSnapshot => do
    let (version, items) ← captureSnapshot env
    return .snapshot version items
  | .iter => return .items (← iter env)
  | .collect => return .items (← collectWith)
  | .snapshotAtVersion version => return .versioned (← snapshotAtVersion env version)
  | op => do
    code env op
    return .done

end Starshard.Sync
