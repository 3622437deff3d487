import Mathlib.Algebra.GroupWithZero.Nat
import Mathlib.Data.List.Induction
import Mathlib.Order.Basic

/-! The quorum decision of one replicated write. The coordinator takes the ends of
the remote calls one by one; a deadline event stops the calls that still run. -/
namespace Starshard.Replication

inductive ReplicaError where
  | connectionFailed
  | timeout
  | rejected (reason : String)
  | quorumFailed
  deriving DecidableEq

structure QuorumConfig where
  /-- Including the primary. -/
  replicaCount : Nat
  writeQuorum : Nat
  readQuorum : Nat
  timeoutNs : Nat

def QuorumConfig.isValid (c : QuorumConfig) : Bool :=
  decide (c.replicaCount > 0) && decide (c.timeoutNs ≠ 0) &&
    decide (c.writeQuorum > c.replicaCount / 2) && decide (c.readQuorum > 0) &&
    decide (c.writeQuorum ≤ c.replicaCount) && decide (c.readQuorum ≤ c.replicaCount)

def invalidConfiguration (reason : String) : ReplicaError :=
  .rejected ("invalid replication configuration: " ++ reason)

/-- `usize::checked_add(1)`. -/
def checkedSucc (n : Nat) : Option Nat := if n + 1 < 2 ^ 64 then some (n + 1) else none

/-- Replicas are handles; equal handles are pointer-equal. -/
def validateTopology (replicas : List Nat) (config : QuorumConfig) : Except ReplicaError Unit :=
  if !config.isValid then
    .error (invalidConfiguration
      "quorums must fit a nonempty topology, writes need a majority, and timeout must be nonzero")
  else if checkedSucc replicas.length ≠ some config.replicaCount then
    .error (invalidConfiguration
      "replica_count must equal the remote replica count plus one primary")
  else if replicas.Nodup then .ok ()
  else
    .error (invalidConfiguration
      "the same replica handle cannot be counted more than once")

/-- How a remote call ends. -/
inductive CallEnd where
  | success
  | error
  | panic
  deriving DecidableEq

/-- What the coordinator takes from its tasks and its clock. -/
inductive Taken where
  | ended (c : CallEnd)
  | deadline
  deriving DecidableEq

/-- `Ok(())` is `none`. -/
abbrev Reply := Option ReplicaError

inductive Phase where
  | collecting
  /-- `tasks.shutdown().await`. -/
  | stopping
  | returned
  deriving DecidableEq

@[ext] structure Coordinator where
  /-- `sender.is_some()`. -/
  sender : Bool
  /-- What the caller was sent. -/
  replies : List Reply
  acknowledged : Nat
  /-- `tasks.len()`. -/
  running : Nat
  /-- The ordering guard. -/
  order : Bool
  phase : Phase
  deriving DecidableEq

namespace Coordinator

def acknowledge (result : Reply) (c : Coordinator) : Coordinator :=
  if c.sender then { c with sender := false, replies := c.replies ++ [result] } else c

/-- The statements after the loop. -/
def finish (c : Coordinator) : Coordinator :=
  let c := if c.sender then c.acknowledge (some .quorumFailed) else c
  { c with order := false, phase := .returned }

/-- `while !tasks.is_empty()`. -/
def loopHead (c : Coordinator) : Coordinator := if c.running = 0 then c.finish else c

def start (quorum replicas : Nat) : Coordinator :=
  let c : Coordinator := ⟨true, [], 1, replicas, true, .collecting⟩
  (if c.acknowledged ≥ quorum then c.acknowledge none else c).loopHead

/-- The two checks at the end of an iteration. -/
def check (quorum : Nat) (c : Coordinator) : Coordinator :=
  if c.acknowledged ≥ quorum then c.acknowledge none
  else if c.acknowledged + c.running < quorum then c.acknowledge (some .quorumFailed)
  else c

def take (quorum : Nat) (c : Coordinator) : Taken → Coordinator
  | .ended call =>
    match c.phase with
    | .collecting =>
      let c := { c with running := c.running - 1 }
      let c := match call with
        | .success => { c with acknowledged := c.acknowledged + 1 }
        | .error | .panic => c
      (c.check quorum).loopHead
    | .stopping => { c with running := c.running - 1 }.loopHead
    | .returned => c
  | .deadline =>
    match c.phase with
    | .collecting => { c.acknowledge (some .timeout) with phase := .stopping }.loopHead
    | .stopping | .returned => c

/-- The coordinator of `replicas` calls after the given events. -/
def run (quorum replicas : Nat) (events : List Taken) : Coordinator :=
  events.foldl (take quorum) (start quorum replicas)

end Coordinator

def successes (ends : List CallEnd) : Nat := ends.countP (· = .success)

def failures (ends : List CallEnd) : Nat := ends.countP (· ≠ .success)

/-- The ends of all calls in order, with the deadline after the first `p` of them. -/
def schedule (ends : List CallEnd) : Option Nat → List Taken
  | none => ends.map .ended
  | some p => (ends.take p).map .ended ++ .deadline :: (ends.drop p).map .ended

/-- The ends taken before the deadline. -/
def taken (ends : List CallEnd) : Option Nat → List CallEnd
  | none => ends
  | some p => ends.take p

theorem successes_add_failures (ends : List CallEnd) :
    successes ends + failures ends = ends.length := by
  induction ends with
  | nil => rfl
  | cons c ends ih =>
    cases c <;> simp_all [successes, failures] <;> omega

/-- What is decided once these calls of `n` have ended, without a deadline. -/
def verdict (quorum n : Nat) (ends : List CallEnd) : Option Reply :=
  if quorum ≤ 1 + successes ends then some none
  else if n + 1 < quorum + failures ends then some (some .quorumFailed)
  else none

/-- The coordinator while no deadline event came. -/
def progress (quorum n : Nat) (ends : List CallEnd) : Coordinator where
  sender := (verdict quorum n ends).isNone
  replies := (verdict quorum n ends).toList
  acknowledged := 1 + successes ends
  running := n - ends.length
  order := ends.length ≠ n
  phase := if ends.length = n then .returned else .collecting

section Run

variable {quorum n : Nat} {ends : List CallEnd}

/-- When every call has ended, the reply is decided. -/
theorem verdict_complete (hn : ends.length = n) : (verdict quorum n ends).isSome := by
  have := successes_add_failures ends
  unfold verdict
  split
  · rfl
  · rw [if_pos (by omega)]
    rfl

theorem verdict_nil (hq : quorum ≤ n + 1) :
    verdict quorum n [] = if quorum ≤ 1 then some none else none := by
  have hs : successes [] = 0 := rfl
  have hf : failures [] = 0 := rfl
  rw [verdict, hs, hf]
  split
  · rfl
  · rw [if_neg (by omega)]

theorem verdict_snoc (hn : ends.length < n) (c : CallEnd) {r : Reply}
    (h : verdict quorum n ends = some r) : verdict quorum n (ends ++ [c]) = some r := by
  have hsum := successes_add_failures ends
  have hs : successes (ends ++ [c]) = successes ends + if c = .success then 1 else 0 := by
    cases c <;> simp [successes]
  have hf : failures (ends ++ [c]) = failures ends + if c = .success then 0 else 1 := by
    cases c <;> simp [failures]
  unfold verdict at h ⊢
  rw [hs, hf]
  split at h
  · rw [if_pos (by omega)]
    exact h
  · split at h
    · rw [if_neg (by split <;> omega), if_pos (by split <;> omega)]
      exact h
    · cases h

theorem progress_take (hn : ends.length < n) (c : CallEnd) :
    (progress quorum n ends).take quorum (.ended c) = progress quorum n (ends ++ [c]) := by
  have hphase : (progress quorum n ends).phase = .collecting := if_neg (by omega)
  have hs : successes (ends ++ [c]) = successes ends + if c = .success then 1 else 0 := by
    cases c <;> simp [successes]
  have hf : failures (ends ++ [c]) = failures ends + if c = .success then 0 else 1 := by
    cases c <;> simp [failures]
  have hsum := successes_add_failures ends
  let c₁ : Coordinator := ⟨(verdict quorum n ends).isNone, (verdict quorum n ends).toList,
    1 + successes (ends ++ [c]), n - (ends ++ [c]).length, decide (ends.length ≠ n), .collecting⟩
  have htake : (progress quorum n ends).take quorum (.ended c) = (c₁.check quorum).loopHead := by
    rw [Coordinator.take, hphase]
    cases c <;> simp [progress, c₁, hs, Nat.sub_sub, Nat.add_assoc, if_neg (Nat.ne_of_lt hn)]
  have hcheck : c₁.check quorum = { c₁ with
      sender := (verdict quorum n (ends ++ [c])).isNone
      replies := (verdict quorum n (ends ++ [c])).toList } := by
    cases hv : verdict quorum n ends with
    | some r =>
      rw [verdict_snoc hn c hv]
      simp [Coordinator.check, Coordinator.acknowledge, c₁, hv]
    | none =>
      have hrem : 1 + successes (ends ++ [c]) + (n - (ends ++ [c]).length) < quorum ↔
          n + 1 < quorum + failures (ends ++ [c]) := by
        have := successes_add_failures (ends ++ [c])
        have hlen : (ends ++ [c]).length = ends.length + 1 := by simp
        omega
      have hc : c₁.sender = true := by simp [c₁, hv]
      have hreplies : c₁.replies = [] := by simp [c₁, hv]
      rw [Coordinator.check, verdict]
      by_cases h₁ : quorum ≤ 1 + successes (ends ++ [c])
      · rw [if_pos h₁, if_pos h₁, Coordinator.acknowledge, if_pos hc, hreplies]
        rfl
      · rw [if_neg h₁, if_neg h₁]
        by_cases h₂ : n + 1 < quorum + failures (ends ++ [c])
        · rw [if_pos h₂, if_pos (hrem.mpr h₂), Coordinator.acknowledge, if_pos hc, hreplies]
          rfl
        · rw [if_neg h₂, if_neg (fun h => h₂ (hrem.mp h))]
          exact Coordinator.ext hc hreplies rfl rfl rfl rfl
  rw [htake, hcheck, Coordinator.loopHead]
  by_cases hlast : (ends ++ [c]).length = n
  · have hsome : (verdict quorum n (ends ++ [c])).isSome := verdict_complete hlast
    obtain ⟨r, hr⟩ := Option.isSome_iff_exists.mp hsome
    simp [Coordinator.finish, c₁, progress, hlast, hr]
  · have hne : n - (ends ++ [c]).length ≠ 0 := by
      have : (ends ++ [c]).length = ends.length + 1 := by simp
      omega
    have hne' : ends.length ≠ n := by omega
    simp only [c₁, progress, if_neg hne, hne', hlast, ne_eq, if_false]

theorem run_ended (hq : quorum ≤ n + 1) (hn : ends.length ≤ n) :
    Coordinator.run quorum n (ends.map .ended) = progress quorum n ends := by
  induction ends using List.reverseRecOn with
  | nil =>
    have hs : successes [] = 0 := rfl
    by_cases h₀ : n = 0
    · subst h₀
      simp [Coordinator.run, Coordinator.start, Coordinator.acknowledge, Coordinator.loopHead,
        Coordinator.finish, progress, verdict_nil hq, hs, show quorum ≤ 1 from hq]
    · by_cases h₁ : quorum ≤ 1 <;>
        simp [Coordinator.run, Coordinator.start, Coordinator.acknowledge, Coordinator.loopHead,
          progress, verdict_nil hq, hs, h₁, h₀, Ne.symm h₀]
  | append_singleton ends c ih =>
    rw [List.length_append, List.length_singleton] at hn
    rw [List.map_append, Coordinator.run, List.foldl_append, ← Coordinator.run, ih (by omega)]
    exact progress_take (by omega) c

/-- The coordinator after the deadline, when `rest` of the stopped calls have ended. -/
def stopped (quorum n : Nat) (ends rest : List CallEnd) : Coordinator where
  sender := false
  replies := [(verdict quorum n ends).getD (some .timeout)]
  acknowledged := 1 + successes ends
  running := n - ends.length - rest.length
  order := ends.length + rest.length ≠ n
  phase := if ends.length + rest.length = n then .returned else .stopping

theorem run_stopped (hq : quorum ≤ n + 1) {rest : List CallEnd} (hlt : ends.length < n)
    (hn : ends.length + rest.length ≤ n) :
    Coordinator.run quorum n (ends.map .ended ++ .deadline :: rest.map .ended) =
      stopped quorum n ends rest := by
  induction rest using List.reverseRecOn with
  | nil =>
    have hne : n - ends.length ≠ 0 := by omega
    have hne' : ends.length ≠ n := by omega
    rw [Coordinator.run, List.foldl_append, ← Coordinator.run, run_ended hq (by omega)]
    simp only [List.map_nil, List.foldl_cons, List.foldl_nil, Coordinator.take, progress,
      if_neg hne', stopped, List.length_nil, Nat.add_zero, Nat.sub_zero]
    cases verdict quorum n ends <;>
      simp [Coordinator.acknowledge, Coordinator.loopHead, hne]
  | append_singleton rest c ih =>
    rw [List.length_append, List.length_singleton] at hn
    have hne' : ends.length + rest.length ≠ n := by omega
    have hsplit : ends.map Taken.ended ++ .deadline :: (rest ++ [c]).map .ended =
        (ends.map .ended ++ .deadline :: rest.map .ended) ++ [.ended c] := by simp
    rw [hsplit, Coordinator.run, List.foldl_append, ← Coordinator.run, ih (by omega)]
    by_cases hlast : ends.length + (rest.length + 1) = n
    · have hz : n - ends.length - rest.length - 1 = 0 := by omega
      simp [Coordinator.take, stopped, hne', hlast, Coordinator.loopHead, Coordinator.finish, hz]
      omega
    · have hz : n - ends.length - rest.length - 1 ≠ 0 := by omega
      simp [Coordinator.take, stopped, hne', hlast, Coordinator.loopHead, hz]
      omega

/-- A deadline after the last end is never taken. -/
theorem run_late (hq : quorum ≤ n + 1) (hn : ends.length = n) :
    Coordinator.run quorum n (ends.map .ended ++ [.deadline]) = progress quorum n ends := by
  rw [Coordinator.run, List.foldl_append, ← Coordinator.run, run_ended hq (by omega)]
  simp [Coordinator.take, progress, hn]

end Run

/-- The calls that ended in these events. -/
def endedIn (events : List Taken) : Nat := events.countP (· ≠ .deadline)

/-- Quorum was reached by calls taken before the deadline. -/
def Reached (quorum : Nat) (ends : List CallEnd) : Prop :=
  quorum = 1 ∨ quorum - 1 ≤ successes ends

/-- So many of `n` calls failed that quorum is out of reach. -/
def Unreachable (quorum n : Nat) (ends : List CallEnd) : Prop :=
  1 + (n - failures ends) < quorum

/-- What the events of a schedule decide: the ends before the deadline, if it came. -/
def Decided (quorum n : Nat) (events : List Taken) : Prop :=
  let ends := (events.takeWhile (· ≠ .deadline)).filterMap fun
    | .ended c => some c
    | .deadline => none
  Reached quorum ends ∨ Unreachable quorum n ends ∨ .deadline ∈ events

theorem validateTopology_ok {replicas : List Nat} {config : QuorumConfig}
    (h : validateTopology replicas config = .ok ()) :
    0 < config.writeQuorum ∧ config.writeQuorum ≤ replicas.length + 1 := by
  unfold validateTopology at h
  split at h
  · cases h
  next hvalid =>
    split at h
    · cases h
    next hcount =>
      simp only [QuorumConfig.isValid, Bool.not_eq_true', Bool.and_eq_false_iff, not_or,
        Bool.not_eq_false, decide_eq_true_eq] at hvalid
      have hcount := not_not.mp hcount
      unfold checkedSucc at hcount
      split at hcount
      · have := Option.some.inj hcount
        omega
      · cases hcount

section Decision

variable {quorum n : Nat} {ends pre : List CallEnd} {deadline : Option Nat} {es : List Taken}

theorem reached_iff (hq : 0 < quorum) : Reached quorum ends ↔ quorum ≤ 1 + successes ends := by
  unfold Reached
  omega

theorem unreachable_iff (hn : ends.length ≤ n) :
    Unreachable quorum n ends ↔ n + 1 < quorum + failures ends := by
  have := successes_add_failures ends
  unfold Unreachable
  omega

theorem verdict_ok (hq : 0 < quorum) :
    verdict quorum n ends = some none ↔ Reached quorum ends := by
  rw [reached_iff hq, verdict]
  split
  · simpa
  · split <;> simp <;> omega

theorem verdict_failed (hn : ends.length ≤ n) :
    verdict quorum n ends = some (some .quorumFailed) ↔ Unreachable quorum n ends := by
  have hsum := successes_add_failures ends
  rw [unreachable_iff hn, verdict]
  split
  · simp
    omega
  · split <;> simp <;> omega

theorem verdict_none (hq : 0 < quorum) (hn : ends.length ≤ n) :
    verdict quorum n ends = none ↔ ¬ Reached quorum ends ∧ ¬ Unreachable quorum n ends := by
  rw [← verdict_ok hq (n := n), ← verdict_failed hn, verdict]
  split
  · simp
  · split <;> simp

theorem Unreachable.mono (h : Unreachable quorum n pre) (hp : pre <+: ends) :
    Unreachable quorum n ends := by
  have := hp.sublist.countP_le (p := fun c => decide (c ≠ CallEnd.success))
  have : failures pre ≤ failures ends := this
  unfold Unreachable at h ⊢
  omega

theorem prefix_schedule (h : es <+: schedule ends deadline) :
    (∃ pre, pre <+: taken ends deadline ∧ es = pre.map .ended) ∨
      ∃ p rest, deadline = some p ∧ rest <+: ends.drop p ∧
        es = (ends.take p).map .ended ++ .deadline :: rest.map .ended := by
  cases deadline with
  | none =>
    obtain ⟨pre, hpre, rfl⟩ := List.prefix_map_iff.mp h
    exact .inl ⟨pre, hpre, rfl⟩
  | some p =>
    rcases List.prefix_or_prefix_of_prefix h (List.prefix_append _ _) with h | ⟨es', rfl⟩
    · obtain ⟨pre, hpre, rfl⟩ := List.prefix_map_iff.mp h
      exact .inl ⟨pre, hpre, rfl⟩
    · have h := (List.prefix_append_right_inj _).mp h
      cases es' with
      | nil => exact .inl ⟨ends.take p, List.prefix_refl _, by simp⟩
      | cons e es' =>
        obtain ⟨rfl, hrest⟩ := List.cons_prefix_cons.mp h
        obtain ⟨rest, hsub, rfl⟩ := List.prefix_map_iff.mp hrest
        exact .inr ⟨p, rest, rfl, hsub, rfl⟩

theorem verdict_prefix (hp : pre <+: ends) (hn : ends.length ≤ n) {r : Reply}
    (h : verdict quorum n pre = some r) : verdict quorum n ends = some r := by
  obtain ⟨rest, rfl⟩ := hp
  induction rest using List.reverseRecOn with
  | nil => rwa [List.append_nil]
  | append_singleton rest c ih =>
    rw [← List.append_assoc] at hn ⊢
    rw [List.length_append, List.length_singleton] at hn
    exact verdict_snoc (by omega) c (ih (by omega))

theorem decided_ended : Decided quorum n (pre.map .ended) ↔
    Reached quorum pre ∨ Unreachable quorum n pre := by
  have h₁ : (pre.map Taken.ended).takeWhile (· ≠ .deadline) = pre.map .ended := by
    induction pre with
    | nil => rfl
    | cons c pre ih => simpa using ih
  have h₂ : Taken.deadline ∉ pre.map Taken.ended := by simp
  unfold Decided
  rw [h₁, List.filterMap_map]
  simp [Function.comp_def, h₂]

theorem decided_deadline {rest : List Taken} :
    Decided quorum n (es ++ .deadline :: rest) := .inr (.inr (by simp))

theorem run_prefix (hq : 0 < quorum) (hq' : quorum ≤ n + 1) (hn : ends.length = n)
    (hp : ∀ p, deadline = some p → p ≤ n) (h : es <+: schedule ends deadline) :
    ((Coordinator.run quorum n es).replies ≠ [] ↔ Decided quorum n es) ∧
      ((Coordinator.run quorum n es).order = false → endedIn es = n) := by
  rcases prefix_schedule h with ⟨pre, hpre, rfl⟩ | ⟨p, rest, rfl, hrest, rfl⟩
  · have hlen : pre.length ≤ n := by
      refine Nat.le_trans hpre.length_le ?_
      cases deadline with
      | none => exact Nat.le_of_eq hn
      | some p =>
        simp only [taken, List.length_take, hn]
        omega
    rw [run_ended hq' hlen, decided_ended]
    refine ⟨?_, fun ho => ?_⟩
    · have := verdict_none (n := n) hq hlen
      simp only [progress, ne_eq, Option.toList_eq_nil_iff, this]
      tauto
    · have ho : pre.length = n := by simpa [progress] using ho
      have : endedIn (pre.map .ended) = pre.length := by
        induction pre <;> simp_all [endedIn, Function.comp_def]
      omega
  · have hp := hp p rfl
    have hrl : rest.length ≤ n - p := by
      refine Nat.le_trans hrest.length_le ?_
      simp [hn]
    have htake : (ends.take p).length = p := by simp [hn, hp]
    have hended : endedIn ((ends.take p).map .ended ++ .deadline :: rest.map .ended) =
        p + rest.length := by
      rw [endedIn, List.countP_append, List.countP_map, List.countP_cons, List.countP_map]
      simp [Function.comp_def, hn, hp]
    refine ⟨iff_of_true ?_ decided_deadline, fun ho => ?_⟩
    · by_cases hlt : p < n
      · rw [run_stopped hq' (by omega) (by omega)]
        simp [stopped]
      · obtain rfl : rest = [] := List.eq_nil_of_length_eq_zero (by omega)
        rw [List.map_nil, run_late hq' (by omega)]
        have : (verdict quorum n (ends.take p)).isSome := verdict_complete (by omega)
        simp only [progress, ne_eq, Option.toList_eq_nil_iff]
        intro hnone
        rw [hnone] at this
        cases this
    · rw [hended]
      by_cases hlt : p < n
      · rw [run_stopped hq' (by omega) (by omega)] at ho
        have ho : (ends.take p).length + rest.length = n := by simpa [stopped] using ho
        omega
      · omega

theorem run_schedule (hq' : quorum ≤ n + 1) (hn : ends.length = n)
    (hp : ∀ p, deadline = some p → p ≤ n) :
    (Coordinator.run quorum n (schedule ends deadline)).replies =
        [(verdict quorum n (taken ends deadline)).getD (some .timeout)] ∧
      (Coordinator.run quorum n (schedule ends deadline)).order = false := by
  have hdone : ∀ pre : List CallEnd, pre.length = n →
      (progress quorum n pre).replies = [(verdict quorum n pre).getD (some .timeout)] ∧
        (progress quorum n pre).order = false := by
    intro pre hpre
    have hsome : (verdict quorum n pre).isSome := verdict_complete hpre
    obtain ⟨r, hr⟩ := Option.isSome_iff_exists.mp hsome
    simp [progress, hr, hpre]
  cases deadline with
  | none =>
    rw [schedule, run_ended hq' (Nat.le_of_eq hn)]
    exact hdone ends hn
  | some p =>
    have hp := hp p rfl
    have htake : (ends.take p).length = p := by simp [hn, hp]
    by_cases hlt : p < n
    · rw [schedule, run_stopped hq' (by omega) (by simp [hn, hp])]
      simp [stopped, taken, hn, hp]
    · have hdrop : ends.drop p = [] := List.drop_eq_nil_of_le (by omega)
      rw [schedule, hdrop, List.map_nil, run_late hq' (by omega)]
      exact hdone (ends.take p) (by omega)

/-- What the caller is sent depends on the ends before the deadline. -/
theorem reply_cases (hq : 0 < quorum) (hn : ends.length ≤ n) :
    ((verdict quorum n ends).getD (some .timeout) = none ↔ Reached quorum ends) ∧
      ((verdict quorum n ends).getD (some .timeout) = some .quorumFailed ↔
        Unreachable quorum n ends) ∧
      ((verdict quorum n ends).getD (some .timeout) = some .timeout ↔
        ¬ Reached quorum ends ∧ ¬ Unreachable quorum n ends) := by
  rw [← verdict_ok hq (n := n), ← verdict_failed hn, verdict]
  split
  · simp
  · split <;> simp

/-- What decides a failure is decided at its first moment. -/
theorem unreachable_first (hq : 0 < quorum) (hn : ends.length ≤ n) :
    Unreachable quorum n ends ↔
      ∃ pre, pre <+: ends ∧ ¬ Reached quorum pre ∧ Unreachable quorum n pre := by
  refine ⟨fun h => ⟨ends, List.prefix_refl _, fun hr => ?_, h⟩, fun ⟨_, hp, _, h⟩ => h.mono hp⟩
  have h₁ := (verdict_ok hq (n := n)).mpr hr
  rw [(verdict_failed hn).mpr h] at h₁
  cases h₁

/-- A reply that was sent is the reply of the whole schedule. -/
theorem run_replies (hq' : quorum ≤ n + 1) (hn : ends.length = n)
    (hp : ∀ p, deadline = some p → p ≤ n) (h : es <+: schedule ends deadline) :
    (Coordinator.run quorum n es).replies = [] ∨ (Coordinator.run quorum n es).replies =
      [(verdict quorum n (taken ends deadline)).getD (some .timeout)] := by
  have hbefore : (taken ends deadline).length ≤ n := by
    cases deadline <;> simp [taken, hn, Nat.min_le_right]
  rcases prefix_schedule h with ⟨pre, hpre, rfl⟩ | ⟨p, rest, rfl, hrest, rfl⟩
  · rw [run_ended hq' (Nat.le_trans hpre.length_le hbefore)]
    cases hv : verdict quorum n pre with
    | none => exact .inl (by simp [progress, hv])
    | some r => exact .inr (by simp [progress, hv, verdict_prefix hpre hbefore hv])
  · have hp := hp p rfl
    have hrl : rest.length ≤ n - p := by
      refine Nat.le_trans hrest.length_le ?_
      simp [hn]
    have htake : (ends.take p).length = p := by simp [hn, hp]
    by_cases hlt : p < n
    · rw [run_stopped hq' (by omega) (by omega)]
      exact .inr rfl
    · obtain rfl : rest = [] := List.eq_nil_of_length_eq_zero (by omega)
      rw [List.map_nil, run_late hq' (by omega)]
      have hsome : (verdict quorum n (ends.take p)).isSome := verdict_complete (by omega)
      obtain ⟨r, hr⟩ := Option.isSome_iff_exists.mp hsome
      exact .inr (by simp [progress, taken, hr])

end Decision

/-- The caller gets one result, at the event that decides it, and the ordering guard
is kept until every call has ended. -/
theorem replicate_to_quorum {replicas : List Nat} {config : QuorumConfig}
    (hv : validateTopology replicas config = .ok ()) (ends : List CallEnd)
    (hn : ends.length = replicas.length) (deadline : Option Nat)
    (hp : ∀ p, deadline = some p → p ≤ replicas.length) :
    ∃ reply : Reply,
      (Coordinator.run config.writeQuorum replicas.length (schedule ends deadline)).replies =
        [reply] ∧
      (reply = none ↔ config.writeQuorum = 1 ∨
        config.writeQuorum - 1 ≤ successes (taken ends deadline)) ∧
      (reply = some .quorumFailed ↔ ∃ pre, pre <+: taken ends deadline ∧
        ¬ Reached config.writeQuorum pre ∧
        Unreachable config.writeQuorum replicas.length pre) ∧
      (reply = some .timeout ↔ deadline.isSome ∧
        ¬ Reached config.writeQuorum (taken ends deadline) ∧
        ¬ Unreachable config.writeQuorum replicas.length (taken ends deadline)) ∧
      (deadline = none → reply =
        if config.writeQuorum ≤ 1 + successes ends then none else some .quorumFailed) ∧
      (∀ es, es <+: schedule ends deadline →
        ((Coordinator.run config.writeQuorum replicas.length es).replies = [] ∨
          (Coordinator.run config.writeQuorum replicas.length es).replies = [reply]) ∧
        ((Coordinator.run config.writeQuorum replicas.length es).replies ≠ [] ↔
          Decided config.writeQuorum replicas.length es) ∧
        ((Coordinator.run config.writeQuorum replicas.length es).order = false →
          endedIn es = replicas.length)) ∧
      (Coordinator.run config.writeQuorum replicas.length (schedule ends deadline)).order =
        false := by
  obtain ⟨hq, hq'⟩ := validateTopology_ok hv
  have hbefore : (taken ends deadline).length ≤ replicas.length := by
    cases deadline <;> simp [taken, hn, Nat.min_le_right]
  obtain ⟨hreplies, horder⟩ := run_schedule hq' hn hp
  obtain ⟨hok, hfailed, htimeout⟩ := reply_cases hq hbefore
  refine ⟨_, hreplies, hok, hfailed.trans (unreachable_first hq hbefore), ?_, fun hd => ?_,
    fun es hes => ⟨run_replies hq' hn hp hes, run_prefix hq hq' hn hp hes⟩, horder⟩
  · rw [htimeout]
    refine ⟨fun h => ⟨?_, h⟩, fun h => h.2⟩
    cases deadline with
    | some p => rfl
    | none =>
      have hsome : (verdict config.writeQuorum replicas.length ends).isSome := verdict_complete hn
      have hnone : verdict config.writeQuorum replicas.length ends = none :=
        (verdict_none hq hbefore).mpr h
      rw [hnone] at hsome
      cases hsome
  · subst hd
    have hsum := successes_add_failures ends
    rw [taken, verdict]
    split
    · rfl
    · rw [if_pos (by omega)]
      rfl

/-- A majority of three: one remote fails, one succeeds before the deadline. -/
theorem replicate_to_quorum_majority :
    ∃ reply : Reply, (Coordinator.run 2 2 (schedule [.error, .success] (some 2))).replies =
      [reply] ∧ (reply = none ↔ 2 = 1 ∨ 2 - 1 ≤ successes [.error, .success]) := by
  have hv : validateTopology [10, 11] ⟨3, 2, 2, 5000000000⟩ = .ok () := rfl
  obtain ⟨reply, h₁, h₂, -⟩ := replicate_to_quorum hv [.error, .success] rfl (some 2)
    (fun p h => by cases h; exact Nat.le_refl 2)
  exact ⟨reply, h₁, h₂⟩

end Starshard.Replication
