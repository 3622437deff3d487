import Starshard.Concurrent.Discipline
import Starshard.Concurrent.Sequential
import Starshard.Sync.Serde

/-! Insertions leave the layout of the map alone: they neither set the shard count nor
replace the previous directory. -/
namespace Starshard

open Data Concurrent

variable {K V : Type} [DecidableEq K] {env : Env K V} {L : Lifecycle K V} {α : Type}

def Act.frames : Act K V → Bool
  | .setShardCount _ | .setPrevious _ => false
  | _ => true

/-- The discipline of programs that keep the layout. -/
abbrev framing (K V : Type) : Discipline (Act K V) Resp Unit where
  admits _ a := a.frames = true
  answers _ _ _ _ := True

abbrev Framed (p : Prog K V α) : Prop := (framing K V).Neutral p

namespace Framed

omit [DecidableEq K] in
theorem act {a : Act K V} (ha : a.frames = true) : Framed (act a) :=
  fun _ _ h => ⟨ha, fun r _ _ => h r⟩

omit [DecidableEq K] in
theorem crash {β : Type} : Framed (crash : Prog K V β) := fun _ _ _ => ⟨rfl, nofun⟩

theorem exec_step {G : Nat → List (Guard K V)} {t : Nat} {a : Act K V} {s s' : State K V L.State}
    {r : Resp a} {gs : List (Guard K V)} (ha : a.frames = true) (he : exec L G t a s r s' gs) :
    s'.shardCount = s.shardCount ∧ s'.previous = s.previous := by
  cases a with
  | setShardCount n => cases ha
  | setPrevious slots => cases ha
  | crash => exact he.elim
  | diverge => exact he.elim
  | initSlot i =>
    obtain ⟨_, he⟩ := he
    revert he
    cases s.shards[i]? with
    | none => exact False.elim
    | some slot =>
      cases slot with
      | none =>
        rintro ⟨_, rfl⟩
        exact ⟨rfl, rfl⟩
      | some id =>
        rintro ⟨_, rfl⟩
        exact ⟨rfl, rfl⟩
  | life c =>
    obtain ⟨⟨e, _, rfl⟩, _⟩ := he
    exact ⟨rfl, rfl⟩
  | lock l m | opened id =>
    obtain ⟨_, rfl, _⟩ := he
    exact ⟨rfl, rfl⟩
  | install maps | put id k v | take id k | drain id | promote dst src k =>
    obtain ⟨_, _, rfl⟩ := he
    exact ⟨rfl, rfl⟩
  | shards | previous | get id k | len id | entries id | shardCount | previousShardCount
  | totalLen | writeEpoch | readCache | arrange indices =>
    obtain ⟨_, rfl, _⟩ := he
    exact ⟨rfl, rfl⟩
  | subLen n | tracker f =>
    obtain ⟨_, rfl, _⟩ := he
    exact ⟨rfl, rfl⟩
  | _ =>
    obtain ⟨rfl, _⟩ := he
    exact ⟨rfl, rfl⟩

theorem exec {p : Prog K V α} {s s' : State K V L.State} {gs gs' : List (Guard K V)} {x : α}
    {Φ : α → Unit → Prop} (hp : (framing K V).Obeys p () Φ)
    (he : Exec (semantics env L) p s gs x s' gs') :
    Φ x () ∧ s'.shardCount = s.shardCount ∧ s'.previous = s.previous := by
  induction p generalizing s gs with
  | done y =>
    obtain ⟨rfl, rfl, _⟩ := he.done_inv
    exact ⟨hp, rfl, rfl⟩
  | step a k ih =>
    obtain ⟨r, s₁, gs₁, ha, he⟩ := he.step_inv
    obtain ⟨hx, h₁, h₂⟩ := ih r (hp.2 r () trivial) he
    obtain ⟨h₃, h₄⟩ := exec_step hp.1 ha
    exact ⟨hx, h₁.trans h₃, h₂.trans h₄⟩

omit [DecidableEq K]

theorem shardIndex (k : K) : Framed (shardIndex env k) :=
  (act rfl).bind fun _ => (act rfl).bind fun (_ : Nat) => .ite crash (.done _)

theorem getOrInitShard (index : Nat) : Framed (getOrInitShard index : Prog K V Nat) := by
  refine (act rfl).bind fun _ => (act rfl).bind fun (slots : Slots) => ?_
  cases slots[index]? with
  | none => exact crash
  | some slot =>
    cases slot with
    | some id => exact (act rfl).bind fun _ => .done _
    | none =>
      exact (act rfl).bind fun _ => (act rfl).bind fun _ => (act rfl).bind fun _ =>
        (act rfl).bind fun _ => .done _

theorem drop (id : Nat) : Framed (ShardMutation.drop id : Prog K V Unit) := by
  refine (act rfl).bind fun (opened : Nat × Bool) => (act rfl).bind fun (finalLen : Nat) => ?_
  have hend : Framed (do
      if opened.2 ∨ finalLen ≠ opened.1 then
        Starshard.act .bump
      Starshard.act .pop : Prog K V Unit) := .ite ((act rfl).bind fun _ => act rfl) (act rfl)
  exact .ite ((act rfl).bind fun _ => hend) (.ite ((act rfl).bind fun _ => hend) hend)

theorem previousSlots : Framed (Starshard.previousSlots : Prog K V (Option Slots)) :=
  (act rfl).bind fun _ => (act rfl).bind fun _ => (act rfl).bind fun _ => .done _

theorem previousShard (k : K) : Framed (Sync.previousShard env k) := by
  refine (act rfl).bind fun (count : Nat) => .ite (.done _) ((act rfl).bind fun _ =>
    previousSlots.bind fun slots => ?_)
  cases slots with
  | none => exact .done _
  | some slots =>
    dsimp only
    cases slots[env.hash k % count]? with
    | none => exact crash
    | some shard => exact .done _

theorem promotePrevious (k : K) (active : Nat) : Framed (Sync.promotePrevious env k active) := by
  refine (previousShard k).bind fun shard => ?_
  cases shard with
  | none => exact .done _
  | some shard =>
    refine (act rfl).bind fun _ => (act rfl).bind fun _ => (act rfl).bind fun (found : Option V) => ?_
    refine .ite (.bind ?_ fun _ => act rfl) (act rfl)
    exact (act rfl).bind fun _ => (act rfl).bind fun _ => act rfl

theorem insertInner (k : K) (v : V) : Framed (Sync.insertInner env k v) := by
  refine (shardIndex k).bind fun index => (getOrInitShard index).bind fun shard => ?_
  refine (act rfl).bind fun _ => (promotePrevious k shard).bind fun _ => (act rfl).bind fun _ => ?_
  refine .bind ((act rfl).bind fun _ => act rfl) fun _ => .bind ?_ fun _ =>
    (drop shard).bind fun _ => (act rfl).bind fun _ => .done _
  refine .bind ((act rfl).bind fun _ => act rfl) fun _ => ?_
  refine .bind ((act rfl).bind fun _ => (act rfl).bind fun _ => .done _) fun weight => ?_
  refine .bind ((act rfl).bind fun _ => (act rfl).bind fun _ => (act rfl).bind fun _ => .done _)
    fun previous => ?_
  refine .bind ((act rfl).bind fun _ => (act rfl).bind fun _ => act rfl) fun _ => ?_
  exact (act rfl).bind fun _ => .done _

theorem insert (hev : env.eviction = none) (k : K) (v : V) : Framed (Sync.insert env k v) := by
  refine (act rfl).bind fun _ => (act rfl).bind fun _ => (insertInner k v).bind fun _ => ?_
  refine (act rfl).bind fun _ => .bind ?_ fun _ => (act rfl).bind fun _ => (act rfl).bind fun _ =>
    .done _
  have hidle : Sync.runEviction env none none = return 0 := by
    rw [Sync.runEviction, hev]
  show Framed (Sync.runEviction env none none >>= fun _ => pure ())
  rw [hidle]
  exact .done _

end Framed
end Starshard
