import Starshard.Concurrent.Schedule
import Starshard.Locking.Deadlock

/-! The actions of a map, computed: shards are read in table order, the clock stands still
and the lifecycle answers a given value. What is computed is one outcome of the action. -/
namespace Starshard

open Data Concurrent
open Locking (plainEnv plainLifecycle)

variable {K V : Type} [DecidableEq K] {env : Env K V} {L : Lifecycle K V}

/-- The outcome of an action of task `t`, when only the tasks below `n` own guards. -/
def perform (answer : (c : LifeCall K V) → L.State → c.Reply × L.State) (n : Nat)
    (G : Nat → List (Guard K V)) (t : Nat) : (a : Act K V) → State K V L.State →
      Option (Resp a × State K V L.State × List (Guard K V))
  | .lock l m, s =>
    if (List.range n).all fun u => (G u).all fun g => !g.excludes l m then
      some ((), s, .lock l m :: G t)
    else none
  | .unlock l, s => some ((), s, (G t).eraseP (Guard.holds l))
  | .user, s | .yield, s => some ((), s, G t)
  | .crash, _ | .diverge, _ => none
  | .push g, s => some ((), s, g :: G t)
  | .pop, s => some ((), s, (G t).tail)
  | .mark id, s => some ((), s, (G t).map (Guard.mark id))
  | .retire k v, s => some ((), s, (G t).map (Guard.retire k v))
  | .opened id, s => (Guard.opened (G t) id).map fun r => (r, s, G t)
  | .shards, s => some (s.shards, s, G t)
  | .previous, s => some (s.previous, s, G t)
  | .initSlot i, s => match s.shards[i]? with
    | none => none
    | some (some id) => some (id, s, G t)
    | some none => some (s.next, { s with
        shards := s.shards.set i (some s.next)
        heap := Function.update s.heap s.next ∅
        next := s.next + 1 }, G t)
  | .install maps, s => some (s.shards, { s with
      shards := allocate s.next maps
      heap := allocated s.heap s.next maps
      next := s.next + maps.length }, G t)
  | .setPrevious slots, s => some (s.previous, { s with previous := slots }, G t)
  | .get id k, s => some ((s.heap id).lookup k, s, G t)
  | .len id, s => some ((s.heap id).size, s, G t)
  | .entries id, s => some ((s.heap id).items, s, G t)
  | .put id k v, s => some ((s.heap id).lookup k,
      { s with heap := Function.update s.heap id ((s.heap id).insert k v) }, G t)
  | .take id k, s => some ((s.heap id).lookup k,
      { s with heap := Function.update s.heap id ((s.heap id).erase k) }, G t)
  | .drain id, s => some ((s.heap id).items,
      { s with heap := Function.update s.heap id ∅ }, G t)
  | .promote dst src k, s => some (((s.heap src).lookup k).isSome,
      { s with heap := promoted s.heap dst src k }, G t)
  | .shardCount, s => some (s.shardCount, s, G t)
  | .setShardCount n, s => some ((), { s with shardCount := n }, G t)
  | .previousShardCount, s => some (s.previousShardCount, s, G t)
  | .setPreviousShardCount n, s => some ((), { s with previousShardCount := n }, G t)
  | .totalLen, s => some (s.totalLen, s, G t)
  | .addLen n, s => some ((), { s with totalLen := s.totalLen + n }, G t)
  | .subLen n, s =>
    if n ≤ s.totalLen then some ((), { s with totalLen := s.totalLen - n }, G t) else none
  | .setLen n, s => some ((), { s with totalLen := n }, G t)
  | .writeEpoch, s => some (s.writeEpoch, s, G t)
  | .bump, s => some ((), { s with published := s.published + 1 }, G t)
  | .tracker f, s => some (s.tracker, { s with tracker := f s.tracker }, G t)
  | .readCache, s => some (s.cache, s, G t)
  | .writeCache c, s => some ((), { s with cache := c }, G t)
  | .count m, s => some ((), { s with metrics := s.metrics.count m }, G t)
  | .life c, s => some ((answer c s.life).1, { s with life := (answer c s.life).2 }, G t)
  | .clock, s => some ((0 : Nat), s, G t)
  | .cancelled, s => some (false, s, G t)
  | .arrange indices, s => some (indices, s, G t)

theorem perform_sound {answer : (c : LifeCall K V) → L.State → c.Reply × L.State}
    (ha : ∀ c e, L.step c e (answer c e).1 (answer c e).2) {n : Nat}
    {G : Nat → List (Guard K V)} {t : Nat} {a : Act K V} {s s' : State K V L.State}
    {r : Resp a} {gs : List (Guard K V)} (hG : ∀ u, n ≤ u → G u = [])
    (h : perform answer n G t a s = some (r, s', gs)) : exec L G t a s r s' gs := by
  cases a with
  | lock l m =>
    dsimp only [perform] at h
    split at h
    · next hfree =>
      cases h
      refine ⟨fun u g hg hx => ?_, rfl, rfl⟩
      by_cases hu : u < n
      · have hall := List.all_eq_true.mp hfree u (List.mem_range.mpr hu)
        simpa [hx] using List.all_eq_true.mp hall g hg
      · rw [hG u (Nat.le_of_not_lt hu)] at hg
        cases hg
    · cases h
  | opened id =>
    dsimp only [perform] at h
    obtain ⟨r, hr, heq⟩ := Option.map_eq_some_iff.mp h
    cases heq
    exact ⟨hr, rfl, rfl⟩
  | initSlot i =>
    dsimp only [perform] at h
    unfold exec
    split at h
    · cases h
    · next heq =>
      cases h
      refine ⟨rfl, ?_⟩
      rw [heq]
      exact ⟨rfl, rfl⟩
    · next heq =>
      cases h
      refine ⟨rfl, ?_⟩
      rw [heq]
      exact ⟨rfl, rfl⟩
  | subLen m =>
    dsimp only [perform] at h
    split at h
    · next hle =>
      cases h
      exact ⟨hle, rfl, rfl⟩
    · cases h
  | crash => cases h
  | diverge => cases h
  | entries id | arrange indices =>
    cases h
    exact ⟨.refl _, rfl, rfl⟩
  | life c =>
    cases h
    exact ⟨⟨_, ha c s.life, rfl⟩, rfl⟩
  | drain id =>
    cases h
    exact ⟨.refl _, rfl, rfl⟩
  | _ =>
    cases h
    first | exact ⟨rfl, rfl, rfl⟩ | exact ⟨rfl, rfl⟩

/-- The performer of a map; a call may end in user code. -/
def performer (env : Env K V) (answer : (c : LifeCall K V) → L.State → c.Reply × L.State)
    (ha : ∀ c e, L.step c e (answer c e).1 (answer c e).2) (n : Nat) :
    Performer (semantics env L) where
  tasks := n
  perform := perform answer n
  sound := perform_sound ha
  cuts a := match a with
    | .user => true
    | _ => false
  cuts_sound {a s} h := by
    cases a with
    | user => rfl
    | _ => cases h

/-- A map that caches its snapshots. -/
def cachingEnv : Env Nat Nat := { plainEnv with snapshotMode := .cached }

/-- What a lifecycle without a capacity answers. -/
def unlimited : (c : LifeCall Nat Nat) → Unit → c.Reply × Unit
  | .prepareInsert _ _, _ | .maintenanceGeneration, _ | .weight _ _, _ => ((0 : Nat), ())
  | .dirty, _ | .overMemoryBudget, _ | .validate _, _ => (false, ())
  | .candidates _, _ | .candidatesForKeys _ _, _ | .minimumCandidate _, _ =>
    (([] : List (EvictionCandidate Nat)), ())
  | .mutation, _ | .abandon, _ | .markDirty, _ | .markPending, _ | .markMaintained _, _
  | .recordInsert _ _ _, _ | .dropPrepared _, _ | .recordRead _, _ | .recordRemove _, _
  | .reconcile _, _ | .recordEviction _, _ | .recordEvictionDuration _, _
  | .dispatchCallbacks _, _ => ((), ())

/-- Ten tasks on a map that caches its snapshots. -/
def cachingMap : Performer (semantics cachingEnv plainLifecycle) :=
  performer (L := plainLifecycle) cachingEnv unlimited (fun _ _ => trivial) 10

end Starshard
