import Starshard.Emptying.Machine
import Starshard.Migration.Advance

/-! `clear` and `drain` of an async map remove everything or nothing, wherever they are cut. -/
namespace Starshard.Emptying

open Data
open Worker (Tables Shards slot)

variable {K V : Type}

section Removal

variable {t : Tables K V} {shards : Shards K V} {g : Shard} {gs : List Shard} {i : Nat}

end Removal

/-- Everything was removed, `removed` from both generations. -/
structure Emptied (s : Migration.State K V) (now : Nat) (s' : Migration.State K V) : Prop where
  active : ∀ i, slot s'.tables.active i = ∅
  previous : s'.tables.previous = none
  shardCount : s'.tables.shardCount = s.tables.shardCount
  previousShardCount : s'.tables.previousShardCount = 0
  totalLen : s'.totalLen = 0
  entries : s'.tables.entries = []
  migrating : s'.tracker.migrating = false
  tracker : s'.tracker = s.tracker.finish now
  version : s'.writeEpoch ≠ s.writeEpoch ↔ s.tables.entries ≠ []

section Stages

variable {env : Env K} {s₀ : Migration.State K V} {s : Held K V} {α : Type}

/-- A stage before the removal. -/
def Early (s₀ : Migration.State K V) (x : Program K V α) (s : Held K V) : Prop :=
  Failing.Ends (fun _ s' => s'.map = s₀) (fun c s' => c.early = true ∧ s'.map = s₀) x s

/-- A stage after the removal. -/
def Late (s₀ : Migration.State K V) (x : Program K V α) (s : Held K V) : Prop :=
  Failing.Ends (fun _ s' => s'.map = s₀) (fun c s' => c.early = false ∧ s'.map = s₀) x s

variable [DecidableEq K] {hash : K → Nat}

/-- What the committed section leaves. -/
def committed (s : Migration.State K V) (now : Nat) : Migration.State K V where
  tables := s.tables.clear
  totalLen := 0
  writeEpoch := if s.tables.entries = [] then s.writeEpoch else (s.writeEpoch + 1) % 2 ^ 64
  tracker := s.tracker.finish now

end Stages

section Calls

variable (env : Env K) [DecidableEq K] {hash : K → Nat} {s : Held K V}

end Calls

end Starshard.Emptying
