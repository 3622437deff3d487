import Starshard.Data.Grouping
import Starshard.Data.Finite
import Starshard.Data.Search
import Starshard.Migration.Sound

/-! The operations of a map without configured capacity, each from the moment it holds
the routing lock to the moment it releases it. Both map types share them but for the
places that ask for a flavor. -/
namespace Starshard.Foreground

open Data
open Worker (Tables Shards slot)
open Migration (Flavor)

structure Live (K V : Type) where
  map : Migration.State K V
  metrics : Metrics

/-- The borrow of one shard, and the counters its hooks write. -/
structure ShardMutation (K V : Type) where
  map : Assoc K V
  changed : Bool
  metrics : Metrics

variable {K V : Type}

def Live.recordRead (hit : Bool) (s : Live K V) : Live K V :=
  { s with metrics := (s.metrics.count .gets).count (if hit then .hits else .misses) }

/-- `get_or_init_shard`. -/
def getOrInitShard (index : Nat) (t : Tables K V) : Tables K V :=
  { t with active := t.active.modify index fun m => some (m.getD ∅) }

def Live.initShard (index : Nat) (s : Live K V) : Live K V :=
  { s with map := { s.map with tables := getOrInitShard index s.map.tables } }

/-- `previous_shard` of a key with the given hash. -/
def previousShard (hashed : Nat) (t : Tables K V) : Option (Assoc K V) :=
  if t.previousShardCount = 0 then none
  else (t.previous.bind fun slots => slots[hashed % t.previousShardCount]?).join

/-- `read_inner` and `read_key`, up to the hook and the callback; `find` searches one shard. -/
def readInner (find : Assoc K V → Option V) (hashed : Nat) (t : Tables K V) : Option V :=
  match t.active[hashed % t.shardCount]?.join with
  | some active => match find active with
    | some v => some v
    | none => (previousShard hashed t).bind find
  | none => (previousShard hashed t).bind find

/-- `K: Borrow<Q>`: the borrowed form hashes and compares as the key does. -/
structure Borrowed (K Q : Type) (hash : K → Nat) where
  borrow : K → Q
  hashOne : Q → Nat
  injective : Function.Injective borrow
  agrees : ∀ k, hashOne (borrow k) = hash k

def getBorrowed {Q : Type} [DecidableEq Q] {hash : K → Nat} (b : Borrowed K Q hash) (q : Q)
    (s : Live K V) : Option V × Live K V :=
  let value := readInner (fun m => (m.items.find? fun e => b.borrow e.1 = q).map Prod.snd)
    (b.hashOne q) s.map.tables
  (value, s.recordRead value.isSome)

def Live.index (hash : K → Nat) (k : K) (s : Live K V) : Nat :=
  hash k % s.map.tables.shardCount

def Live.shard (index : Nat) (s : Live K V) : Assoc K V := slot s.map.tables.active index

/-- Use a `ShardMutation` of an active shard and drop it. -/
def Live.mutate {α : Type} (index : Nat) (use : ShardMutation K V → α × ShardMutation K V)
    (s : Live K V) : α × Live K V :=
  let initialLen := (s.shard index).size
  let (result, mutation) := use ⟨s.shard index, false, s.metrics⟩
  let finalLen := mutation.map.size
  (result,
    { map :=
        { s.map with
          tables := { s.map.tables with
            active := s.map.tables.active.set index (some mutation.map) }
          totalLen :=
            if initialLen < finalLen then s.map.totalLen + (finalLen - initialLen)
            else s.map.totalLen - (initialLen - finalLen)
          writeEpoch :=
            if mutation.changed ∨ finalLen ≠ initialLen then (s.map.writeEpoch + 1) % 2 ^ 64
            else s.map.writeEpoch }
      metrics := mutation.metrics })

section Keyed

variable [DecidableEq K] (hash : K → Nat)

/-- `promote_previous`: `promote_entry` moves the entry, and the active one wins. -/
def promotePrevious (k : K) (t : Tables K V) : Tables K V :=
  match previousShard (hash k) t with
  | none => t
  | some _ => t.move hash (hash k % t.previousShardCount) k

def Live.promote (k : K) (s : Live K V) : Live K V :=
  { s with map := { s.map with tables := promotePrevious hash k s.map.tables } }

/-- Lock the active shard of a key and bring the key into it. -/
def Live.lockKey (k : K) (s : Live K V) : Live K V :=
  (s.initShard (s.index hash k)).promote hash k

def trackedInsert (k : K) (v : V) (m : ShardMutation K V) : Option V × ShardMutation K V :=
  (m.map.lookup k, ⟨m.map.insert k v, true, m.metrics.count .inserts⟩)

def trackedRemove (k : K) (m : ShardMutation K V) : Option V × ShardMutation K V :=
  (m.map.lookup k, ⟨m.map.erase k, m.changed,
    if (m.map.lookup k).isSome then m.metrics.count .removes else m.metrics⟩)

def insert (k : K) (v : V) (s : Live K V) : Option V × Live K V :=
  (s.lockKey hash k).mutate (s.index hash k) (trackedInsert k v)

def readWith {R : Type} (k : K) (read : V → R) (s : Live K V) : Option R × Live K V :=
  let value := readInner (·.lookup k) (hash k) s.map.tables
  (value.map read, s.recordRead value.isSome)

def get (k : K) (s : Live K V) : Option V × Live K V := readWith hash k id s

def contains (k : K) (s : Live K V) : Bool × Live K V :=
  let (found, s) := readWith hash k (fun _ => ()) s
  (found.isSome, s)

/-- A slot that was never used holds no key of a map that does not migrate. -/
def remove (flavor : Flavor) (mode : SnapshotMode) (k : K) (s : Live K V) :
    Option V × Live K V :=
  if flavor = .sync ∧ s.map.tables.active[s.index hash k]?.join.isNone ∧
      s.map.tables.previousShardCount = 0 then
    (none, s)
  else
    let locked := s.lockKey hash k
    if mode = .cow ∧ ((locked.shard (s.index hash k)).lookup k).isNone then
      (none, locked)
    else locked.mutate (s.index hash k) (trackedRemove k)

def getOrInsertWith (k : K) (f : Unit → V) (s : Live K V) : V × Live K V :=
  let locked := s.lockKey hash k
  let current := (locked.shard (s.index hash k)).lookup k
  let locked := locked.recordRead current.isSome
  match current with
  | some v => (v, locked)
  | none =>
    let value := f ()
    (value, (locked.mutate (s.index hash k) (trackedInsert k value)).2)

def computeIfPresent (k : K) (f : V → Option V) (s : Live K V) : Option V × Live K V :=
  let locked := s.lockKey hash k
  let current := (locked.shard (s.index hash k)).lookup k
  let locked := locked.recordRead current.isSome
  match current with
  | none => (none, locked)
  | some v => match f v with
    | some value =>
      (some value, (locked.mutate (s.index hash k) (trackedInsert k value)).2)
    | none => (none, (locked.mutate (s.index hash k) (trackedRemove k)).2)

section Compare

-- `PartialEq` of the values, of which nothing is assumed
variable (eq : V → V → Bool)

def compareAndSwap (k : K) (expected new : V) (s : Live K V) : CasResult V × Live K V :=
  let locked := s.lockKey hash k
  let current := (locked.shard (s.index hash k)).lookup k
  let locked := locked.recordRead current.isSome
  match current with
  | some current =>
    if eq current expected then
      (.success new, (locked.mutate (s.index hash k) (trackedInsert k new)).2)
    else (.failure current, locked)
  | none => (.failure new, locked)

def compareAndRemove (k : K) (expected : V) (s : Live K V) : Bool × Live K V :=
  let locked := s.lockKey hash k
  let current := (locked.shard (s.index hash k)).lookup k
  let locked := locked.recordRead current.isSome
  if current.any fun current => eq current expected then
    (true, (locked.mutate (s.index hash k) (trackedRemove k)).2)
  else (false, locked)

end Compare

section Batches

variable (flavor : Flavor)

/-- `previous_shard_count != 0` of the sync map, `is_migrating` of the async map. -/
def Live.migrating (s : Live K V) : Bool :=
  match flavor with
  | .sync => decide (s.map.tables.previousShardCount ≠ 0)
  | .async => s.map.tracker.migrating

def countNew (old : Option V) (n : Nat) : Nat := if old.isSome then n else n + 1

def countGone (old : Option V) (n : Nat) : Nat := if old.isSome then n + 1 else n

def insertOne (acc : Nat × Live K V) (e : K × V) : Nat × Live K V :=
  let r := insert hash e.1 e.2 acc.2
  (countNew r.1 acc.1, r.2)

def insertTracked (acc : Nat × ShardMutation K V) (e : K × V) : Nat × ShardMutation K V :=
  let r := trackedInsert e.1 e.2 acc.2
  (countNew r.1 acc.1, r.2)

def insertBucket (buckets : Assoc Nat (List (K × V))) (acc : Nat × Live K V) (index : Nat) :
    Nat × Live K V :=
  (acc.2.initShard index).mutate index fun m => ((buckets.lookup index).getD []).foldl insertTracked (acc.1, m)

/-- `order` is the iteration order of the bucket map. -/
def batchInsert (order : List Nat) (entries : List (K × V)) (s : Live K V) : Nat × Live K V :=
  if s.migrating flavor then entries.foldl (insertOne hash) (0, s)
  else order.foldl (insertBucket (Data.bucketize (fun e => s.index hash e.1) entries)) (0, s)

variable (mode : SnapshotMode)

def removeOne (acc : Nat × Live K V) (k : K) : Nat × Live K V :=
  let r := remove hash flavor mode k acc.2
  (countGone r.1 acc.1, r.2)

def removeTracked (acc : Nat × ShardMutation K V) (k : K) : Nat × ShardMutation K V :=
  let r := trackedRemove k acc.2
  (countGone r.1 acc.1, r.2)

def removeBucket (buckets : Assoc Nat (List K)) (acc : Nat × Live K V) (index : Nat) :
    Nat × Live K V :=
  let keys := (buckets.lookup index).getD []
  match acc.2.map.tables.active[index]?.join with
  | none => acc
  | some shard =>
    -- an absent key must not copy a retained shard
    if mode = .cow ∧ !keys.any fun k => (shard.lookup k).isSome then acc
    else acc.2.mutate index fun m => keys.foldl removeTracked (acc.1, m)

def batchRemove (order : List Nat) (keys : List K) (s : Live K V) : Nat × Live K V :=
  if s.migrating flavor then keys.foldl (removeOne hash flavor mode) (0, s)
  else order.foldl (removeBucket mode (Data.bucketize (fun k => s.index hash k) keys)) (0, s)

/-- The result of one key is written at its position. -/
def getOne (acc : List (Option V) × Live K V) (e : Nat × K) : List (Option V) × Live K V :=
  let r := get hash e.2 acc.2
  (acc.1.set e.1 r.1, r.2)

def getTracked (shard : Option (Assoc K V)) (acc : List (Option V) × Live K V) (e : Nat × K) :
    List (Option V) × Live K V :=
  match shard with
  | some m => (acc.1.set e.1 (m.lookup e.2), acc.2.recordRead (m.lookup e.2).isSome)
  | none => (acc.1, acc.2.recordRead false)

def getBucket (buckets : Assoc Nat (List (Nat × K))) (acc : List (Option V) × Live K V)
    (index : Nat) : List (Option V) × Live K V :=
  ((buckets.lookup index).getD []).foldl
    (getTracked acc.2.map.tables.active[index]?.join) acc

def positions (keys : List K) : List (Nat × K) := keys.zipIdx.map Prod.swap

def batchGet (order : List Nat) (keys : List K) (s : Live K V) :
    List (Option V) × Live K V :=
  if s.migrating flavor then
    (positions keys).foldl (getOne hash) (List.replicate keys.length none, s)
  else
    order.foldl (getBucket (Data.bucketize (fun e => s.index hash e.2) (positions keys)))
      (List.replicate keys.length none, s)

end Batches

section Transactions

variable (mode : SnapshotMode)

/-- The guards of a transaction are held; the key is promoted before its operation. -/
def transactionOp (s : Live K V) (op : TxnOp K V) : Live K V :=
  let k := op.key
  let promoted := s.promote hash k
  match op with
  | .read _ => promoted.recordRead ((promoted.shard (s.index hash k)).lookup k).isSome
  | .write _ v => (promoted.mutate (s.index hash k) (trackedInsert k v)).2
  | .remove _ =>
    if mode = .cow ∧ ((promoted.shard (s.index hash k)).lookup k).isNone then promoted
    else (promoted.mutate (s.index hash k) (trackedRemove k)).2

/-- The active shards of all operations are initialised first. -/
def executeTransaction (ops : List (TxnOp K V)) (s : Live K V) : TransactionResult × Live K V :=
  let locked := ops.foldl (fun s op => s.initShard (s.index hash op.key)) s
  (.committed, ops.foldl (transactionOp hash mode) locked)

end Transactions
end Keyed

section Exclusive

/-- `record_remove` for each entry of a bulk removal. -/
def countRemoves (n : Nat) (m : Metrics) : Metrics :=
  { m with removes := m.removes + UInt64.ofNat n }

theorem countRemoves_zero (m : Metrics) : countRemoves 0 m = m := by
  simp [countRemoves]

theorem countRemoves_add (n n' : Nat) (m : Metrics) :
    countRemoves n' (countRemoves n m) = countRemoves (n + n') m := by
  simp only [countRemoves, UInt64.ofNat_add, UInt64.add_assoc]

/-- `extract_if` on one shard, with `record_write(0, 1)` for each entry. -/
def retainShard (predicate : K → V → Bool) (m : Assoc K V) : Assoc K V := m.retain predicate

def retain (predicate : K → V → Bool) (s : Live K V) : Live K V :=
  let t := s.map.tables
  let shards (slots : Shards K V) := slots.map fun m => m.map (retainShard predicate)
  let removed := ((t.active ++ t.previous.getD []).map fun m =>
    (m.getD ∅).size - (retainShard predicate (m.getD ∅)).size).sum
  { map :=
      { s.map with
        tables := { t with active := shards t.active, previous := t.previous.map shards }
        totalLen := s.map.totalLen - removed
        writeEpoch := (s.map.writeEpoch + removed) % 2 ^ 64 }
    metrics := countRemoves removed s.metrics }

/-- The body of the sync `clear` and `drain`: the entries shard by shard, with one
`record_write` for each shard that is not empty. -/
def removeAll (now : Nat) (s : Live K V) : List (K × V) × Live K V :=
  let t := s.map.tables
  let removed := t.entries
  let shards := (t.active ++ t.previous.getD []).filter fun m => (m.getD ∅).size ≠ 0
  (removed,
    { map :=
        { tables := t.clear
          totalLen := s.map.totalLen - removed.length
          writeEpoch := (s.map.writeEpoch + shards.length) % 2 ^ 64
          tracker := s.map.tracker.finish now }
      metrics := countRemoves removed.length s.metrics })

def clear (now : Nat) (s : Live K V) : Live K V := (removeAll now s).2

structure DrainIterator (K V : Type) where
  items : List (K × V)
  index : Nat

def drain (now : Nat) (s : Live K V) : DrainIterator K V × Live K V :=
  let (items, s) := removeAll now s
  (⟨items, 0⟩, s)

def DrainIterator.next (it : DrainIterator K V) : Option (K × V) × DrainIterator K V :=
  if it.index < it.items.length then
    (it.items[it.index]?, { it with items := swapRemove it.items it.index })
  else (none, it)

def DrainIterator.len (it : DrainIterator K V) : Nat := it.items.length - it.index

end Exclusive

section Topology

def pauseRebalance (s : Migration.State K V) : Bool × Migration.State K V :=
  (s.tracker.migrating, { s with tracker := s.tracker.pause true })

def resumeRebalance (s : Migration.State K V) : Bool × Migration.State K V :=
  (s.tracker.migrating, { s with tracker := s.tracker.pause false })

/-- A migration in progress is retained. -/
def startRebalanceOnline (newShardCount now : Nat) (s : Migration.State K V) :
    Except ShardCountError Unit × Migration.State K V :=
  match strictShardCount newShardCount MAX_SHARDS with
  | .error e => (.error e, s)
  | .ok target =>
    if s.tracker.migrating ∨ target = s.tables.shardCount then (.ok (), s)
    else (.ok (), { s with
      tables := s.tables.begin target
      tracker := s.tracker.beginWithCounts s.tables.shardCount target s.totalLen now })

end Topology
end Starshard.Foreground
