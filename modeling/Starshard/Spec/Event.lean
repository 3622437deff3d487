import Starshard.Concurrent.History
import Starshard.Data.Assoc
import Starshard.Types

/-! What a sharded map is for: one finite map, a version, the contents that
snapshots were labelled with, and operation counters. Operations are sequences of
the atomic events below; shards, generations, locks and migrations do not occur
here. -/
namespace Starshard

open Data Concurrent

variable {K V : Type}

abbrev Contents (K V : Type) := K → Option V

inductive Event (K V : Type) where
  | read (k : K) (found : Option V)
  /-- A single-key step: it found `old` and left `new`. -/
  | modify (k : K) (old new : Option V)
  /-- All operations in one step; `found` lists what each of them found. -/
  | transact (ops : List (TxnOp K V)) (found : List (Option V))
  /-- The entries that fail the predicate are dropped. -/
  | retain (predicate : K → V → Bool) (dropped : List (K × V))
  | drain (items : List (K × V))
  | snapshot (version : Nat) (contents : Contents K V)
  /-- The version that was asked for is not the current one. -/
  | outdated (version : Nat)
  /-- The version advances. -/
  | publish
  | count (m : Metric)
  /-- An operation that did not return left some keys in an unspecified state. -/
  | torn (keys : K → Prop)

structure Abstract (K V : Type) where
  contents : Contents K V
  version : Nat
  /-- The contents a version was handed out with. -/
  labels : Nat → Option (Contents K V)
  metrics : Metrics

namespace Event

/-- Events that change nothing but the contents. -/
def isData : Event K V → Bool
  | .snapshot _ _ | .outdated _ | .publish | .count _ => false
  | _ => true

/-- Events a caller learns of. -/
def isVisible : Event K V → Bool
  | .publish | .count _ => false
  | _ => true

def metric? : Event K V → Option Metric
  | .count m => some m
  | _ => none

/-- A transaction step wrote or removed an entry. -/
def touches : TxnOp K V → Option V → Bool
  | .read _, _ => false
  | .write _ _, _ => true
  | .remove _, found => found.isSome

/-- The event put or removed an entry. -/
def changes : Event K V → Prop
  | .modify _ _ _ | .torn _ => True
  | .transact ops found => ∃ e ∈ ops.zip found, touches e.1 e.2
  | .retain _ dropped => dropped ≠ []
  | .drain items => items ≠ []
  | _ => False

end Event

/-- A removal that finds nothing reads. -/
def Event.removal (k : K) : Option V → Event K V
  | some v => .modify k (some v) none
  | none => .read k none

/-- The events of an operation that its caller learns of. -/
def visible (es : List (Event K V)) : List (Event K V) := es.filter Event.isVisible

def counted (es : List (Event K V)) : List Metric := es.filterMap Event.metric?

@[simp] theorem visible_nil : visible ([] : List (Event K V)) = [] := rfl

@[simp] theorem visible_append (es fs : List (Event K V)) :
    visible (es ++ fs) = visible es ++ visible fs := List.filter_append _ _

@[simp] theorem counted_nil : counted ([] : List (Event K V)) = [] := rfl

@[simp] theorem counted_append (es fs : List (Event K V)) :
    counted (es ++ fs) = counted es ++ counted fs := List.filterMap_append

@[simp] theorem visible_publish : visible [(.publish : Event K V)] = [] := rfl

@[simp] theorem visible_count (m : Metric) : visible [(.count m : Event K V)] = [] := rfl

@[simp] theorem visible_snapshot (n : Nat) (c : Contents K V) :
    visible [.snapshot n c] = [.snapshot n c] := rfl

@[simp] theorem visible_outdated (n : Nat) :
    visible [(.outdated n : Event K V)] = [.outdated n] := rfl

@[simp] theorem counted_outdated (n : Nat) : counted [(.outdated n : Event K V)] = [] := rfl

@[simp] theorem counted_publish : counted [(.publish : Event K V)] = [] := rfl

@[simp] theorem counted_count (m : Metric) : counted [(.count m : Event K V)] = [m] := rfl

@[simp] theorem counted_snapshot (n : Nat) (c : Contents K V) :
    counted [.snapshot n c] = [] := rfl

theorem visible_all {es : List (Event K V)} (he : ∀ e ∈ es, e.isData) : visible es = es :=
  List.filter_eq_self.mpr fun e h => by
    have := he e h
    cases e <;> first | rfl | cases this

theorem counted_all {es : List (Event K V)} (he : ∀ e ∈ es, e.isData) : counted es = [] :=
  List.filterMap_eq_nil_iff.mpr fun e h => by
    have := he e h
    cases e <;> first | rfl | cases this

variable [DecidableEq K]

def applyOp (c : Contents K V) : TxnOp K V → Contents K V
  | .read _ => c
  | .write k v => Function.update c k (some v)
  | .remove k => Function.update c k none

def applyOps (c : Contents K V) (ops : List (TxnOp K V)) : Contents K V := ops.foldl applyOp c

/-- What each operation finds when they are applied in order. -/
def foundBy : Contents K V → List (TxnOp K V) → List (Option V)
  | _, [] => []
  | c, op :: ops => c op.key :: foundBy (applyOp c op) ops

namespace Event

/-- The keys whose entries an event reads or writes. -/
def keys : Event K V → K → Prop
  | .read k _ | .modify k _ _ => fun k' => k' = k
  | .transact ops _ => fun k => ∃ op ∈ ops, op.key = k
  | .torn keys => keys
  | .outdated _ | .publish | .count _ => fun _ => False
  | _ => fun _ => True

def effect : Event K V → Contents K V → Contents K V → Prop
  | .read k found, c, c' => c k = found ∧ c' = c
  | .modify k old new, c, c' => c k = old ∧ c' = Function.update c k new
  | .transact ops found, c, c' => found = foundBy c ops ∧ c' = applyOps c ops
  | .retain predicate dropped, c, c' => (c' = fun k => (c k).filter (predicate k)) ∧
      Represents dropped fun k => (c k).filter fun v => !predicate k v
  | .drain items, c, c' => Represents items c ∧ c' = fun _ => none
  | .torn keys, c, c' => ∀ k, ¬ keys k → c' k = c k
  | .snapshot _ _, c, c' | .outdated _, c, c' | .publish, c, c' | .count _, c, c' => c' = c

def step : Event K V → Abstract K V → Abstract K V → Prop
  | .snapshot version contents, a, b =>
      contents = a.contents ∧ version = a.version ∧
      (a.labels version = none ∨ a.labels version = some contents) ∧
      b = { a with labels := Function.update a.labels version (some contents) }
  | .outdated version, a, b => version ≠ a.version ∧ b = a
  | .publish, a, b => b = { a with version := a.version + 1 }
  | .count m, a, b => b = { a with metrics := a.metrics.count m }
  | e, a, b => ∃ c, e.effect a.contents c ∧ b = { a with contents := c }

/-- A step of a map that knows its version modulo `2 ^ 64` only: a snapshot that was cached a
multiple of `2 ^ 64` publications ago passes for a current one. -/
def stepWrapping : Event K V → Abstract K V → Abstract K V → Prop
  | .snapshot version contents, a, b => version = wrapping a.version ∧
      (step (.snapshot a.version contents) a b ∨
        b = a ∧ ∃ n < a.version, wrapping n = version ∧ a.labels n = some contents)
  | .outdated version, a, b => version ≠ wrapping a.version ∧ b = a
  | e, a, b => e.step a b

theorem step_of_effect {e : Event K V} (he : e.isData) {a : Abstract K V} {c : Contents K V}
    (h : e.effect a.contents c) : e.step a { a with contents := c } := by
  cases e with
  | snapshot _ _ => cases he
  | outdated _ => cases he
  | publish => cases he
  | count _ => cases he
  | _ => exact ⟨c, h, rfl⟩

theorem stepWrapping_of_step {e : Event K V} (he : e.isData) {a b : Abstract K V}
    (h : e.step a b) : e.stepWrapping a b := by
  cases e with
  | snapshot _ _ => cases he
  | outdated _ => cases he
  | _ => exact h

theorem effect_of_stepWrapping {e : Event K V} {a b : Abstract K V} (h : e.stepWrapping a b) :
    e.effect a.contents b.contents := by
  cases e with
  | snapshot version contents =>
    obtain ⟨-, ⟨-, -, -, rfl⟩ | ⟨rfl, -⟩⟩ := h
    · rfl
    · rfl
  | outdated version =>
    obtain ⟨-, rfl⟩ := h
    rfl
  | publish =>
    obtain rfl := h
    rfl
  | count m =>
    obtain rfl := h
    rfl
  | _ =>
    obtain ⟨c, he, rfl⟩ := h
    exact he

theorem stepWrapping_version {e : Event K V} {a b : Abstract K V} (h : e.stepWrapping a b) :
    a.version ≤ b.version := by
  cases e with
  | snapshot version contents =>
    obtain ⟨-, ⟨-, -, -, rfl⟩ | ⟨rfl, -⟩⟩ := h
    · exact le_rfl
    · exact le_rfl
  | outdated version =>
    obtain ⟨-, rfl⟩ := h
    exact le_rfl
  | publish =>
    obtain rfl := h
    exact Nat.le_succ _
  | count m =>
    obtain rfl := h
    exact le_rfl
  | _ =>
    obtain ⟨c, -, rfl⟩ := h
    exact le_rfl

/-- Before the version wraps, a snapshot shows the current contents. -/
theorem step_of_stepWrapping {e : Event K V} {a b : Abstract K V} (h : e.stepWrapping a b)
    (hw : a.version < 2 ^ 64) : e.step a b := by
  cases e with
  | snapshot version contents =>
    obtain ⟨hversion, hstep | ⟨-, n, hn, heq, -⟩⟩ := h
    · rwa [hversion, wrapping_of_lt hw]
    · rw [wrapping_of_lt (Nat.lt_trans hn hw), hversion, wrapping_of_lt hw] at heq
      exact absurd heq (Nat.ne_of_lt hn)
  | outdated version =>
    obtain ⟨hversion, rfl⟩ := h
    rw [wrapping_of_lt hw] at hversion
    exact ⟨hversion, rfl⟩
  | _ => exact h

theorem replay_contents {es : List (Event K V)} {a b : Abstract K V}
    (h : Concurrent.Replay stepWrapping a es b) :
    Concurrent.Replay effect a.contents es b.contents := by
  induction h with
  | nil => exact .nil
  | cons he _ ih => exact .cons (effect_of_stepWrapping he) ih

theorem replay_version {es : List (Event K V)} {a b : Abstract K V}
    (h : Concurrent.Replay stepWrapping a es b) : a.version ≤ b.version := by
  induction h with
  | nil => exact le_rfl
  | cons he _ ih => exact Nat.le_trans (stepWrapping_version he) ih

/-- Events that end before the version wraps are those of a map whose version never does. -/
theorem replay_unwrapped {es : List (Event K V)} {a b : Abstract K V}
    (h : Concurrent.Replay stepWrapping a es b) (hw : b.version < 2 ^ 64) :
    Concurrent.Replay step a es b := by
  induction h with
  | nil => exact .nil
  | cons he hes ih =>
    have hle := Nat.le_trans (stepWrapping_version he) (replay_version hes)
    exact .cons (step_of_stepWrapping he (Nat.lt_of_le_of_lt hle hw)) (ih hw)

end Event

omit [DecidableEq K] in
@[simp] theorem Event.isData_removal (k : K) (old : Option V) :
    (Event.removal k old).isData = true := by
  cases old <;> rfl

omit [DecidableEq K] in
theorem Event.keys_removal {k k' : K} {old : Option V} (h : (Event.removal k old).keys k') :
    k' = k := by
  cases old <;> exact h

theorem Event.effect_removal {k : K} {old : Option V} {c : Contents K V} (h : c k = old) :
    (Event.removal k old).effect c (Function.update c k none) := by
  cases old with
  | some v => exact ⟨h, rfl⟩
  | none =>
    refine ⟨h, ?_⟩
    rw [← h, Function.update_eq_self]

omit [DecidableEq K] in
theorem Event.changes_removal {k : K} {old : Option V} (h : old.isSome) :
    (Event.removal k old).changes := by
  cases old with
  | some v => trivial
  | none => cases h

theorem applyOp_other {c : Contents K V} {op : TxnOp K V} {k : K} (h : op.key ≠ k) :
    applyOp c op k = c k := by
  cases op with
  | read k' => rfl
  | write k' v => exact Function.update_of_ne (Ne.symm h) _ _
  | remove k' => exact Function.update_of_ne (Ne.symm h) _ _

theorem applyOps_other {c : Contents K V} {ops : List (TxnOp K V)} {k : K}
    (h : ∀ op ∈ ops, op.key ≠ k) : applyOps c ops k = c k := by
  induction ops generalizing c with
  | nil => rfl
  | cons op ops ih =>
    rw [applyOps, List.foldl_cons]
    refine (ih fun o ho => h o (by simp [ho])).trans (applyOp_other (h op (by simp)))

theorem applyOp_congr {c c' : Contents K V} (op : TxnOp K V) {k : K} (h : c k = c' k) :
    applyOp c op k = applyOp c' op k := by
  cases op with
  | read _ => exact h
  | write k' v => by_cases hk : k = k' <;> simp [applyOp, hk, h]
  | remove k' => by_cases hk : k = k' <;> simp [applyOp, hk, h]

theorem applyOps_congr {c c' : Contents K V} {ops : List (TxnOp K V)} {k : K}
    (h : c k = c' k) : applyOps c ops k = applyOps c' ops k := by
  induction ops generalizing c c' with
  | nil => exact h
  | cons op ops ih => exact ih (applyOp_congr op h)

theorem foundBy_congr {c c' : Contents K V} {ops : List (TxnOp K V)}
    (h : ∀ op ∈ ops, c op.key = c' op.key) : foundBy c ops = foundBy c' ops := by
  induction ops generalizing c c' with
  | nil => rfl
  | cons op ops ih =>
    rw [foundBy, foundBy, h op (by simp),
      ih fun o ho => applyOp_congr op (h o (by simp [ho]))]

/-- A data event may be replayed on any contents that agree on a set of keys
containing its own, and leaves the other keys alone. -/
theorem Event.local {e : Event K V} (he : e.isData) {S : K → Prop} (hS : ∀ k, e.keys k → S k)
    {c c' d : Contents K V} (h : e.effect c c') (hd : ∀ k, S k → d k = c k) :
    ∃ d', e.effect d d' ∧ (∀ k, S k → d' k = c' k) ∧ ∀ k, ¬ e.keys k → d' k = d k := by
  classical
  cases e with
  | read k found =>
    obtain ⟨hf, rfl⟩ := h
    exact ⟨d, ⟨(hd k (hS k rfl)).trans hf, rfl⟩, hd, fun _ _ => rfl⟩
  | modify k old new =>
    obtain ⟨hold, rfl⟩ := h
    refine ⟨Function.update d k new, ⟨(hd k (hS k rfl)).trans hold, rfl⟩, ?_, ?_⟩
    · intro k' hk'
      by_cases hk : k' = k
      · simp [hk]
      · simp [hk, hd k' hk']
    · intro k' hk'
      exact Function.update_of_ne hk' _ _
  | transact ops found =>
    obtain ⟨rfl, rfl⟩ := h
    refine ⟨applyOps d ops, ⟨?_, rfl⟩, fun k hk => applyOps_congr (hd k hk), fun k hk => ?_⟩
    · exact foundBy_congr fun op ho => (hd _ (hS _ ⟨op, ho, rfl⟩)).symm
    · exact applyOps_other fun op ho hop => hk ⟨op, ho, hop⟩
  | retain predicate dropped =>
    obtain ⟨rfl, hdrop⟩ := h
    have hdc : d = c := funext fun k => hd k (hS k trivial)
    exact ⟨_, ⟨rfl, hdc ▸ hdrop⟩, fun k hk => by simp [hd k hk], fun k hk => absurd trivial hk⟩
  | drain items =>
    obtain ⟨hr, rfl⟩ := h
    have hdc : d = c := funext fun k => hd k (hS k trivial)
    exact ⟨_, ⟨hdc ▸ hr, rfl⟩, fun _ _ => rfl, fun k hk => absurd trivial hk⟩
  | snapshot _ _ => cases he
  | outdated _ => cases he
  | publish => cases he
  | count _ => cases he
  | torn keys =>
    refine ⟨fun k => if keys k then c' k else d k, fun k hk => by simp [hk], ?_, ?_⟩
    · intro k hk
      by_cases hkk : keys k
      · simp [hkk]
      · simp [hkk, hd k hk, h k hkk]
    · intro k hk
      have : ¬ keys k := hk
      simp [this]

namespace Event

def effects : List (Event K V) → Contents K V → Contents K V → Prop
  | [], c, c' => c' = c
  | e :: es, c, c' => ∃ d, e.effect c d ∧ effects es d c'

theorem effects_append {es fs : List (Event K V)} {c d c' : Contents K V} (h : effects es c d)
    (h' : effects fs d c') : effects (es ++ fs) c c' := by
  induction es generalizing c with
  | nil =>
    obtain rfl := h
    exact h'
  | cons e es ih =>
    obtain ⟨b, he, hes⟩ := h
    exact ⟨b, he, ih hes⟩

theorem replay_of_effects {es : List (Event K V)} (he : ∀ e ∈ es, e.isData) {a : Abstract K V}
    {c : Contents K V} (h : effects es a.contents c) :
    Concurrent.Replay stepWrapping a es { a with contents := c } := by
  induction es generalizing a with
  | nil =>
    obtain rfl := h
    exact .nil
  | cons e es ih =>
    obtain ⟨d, hd, h⟩ := h
    have hdata := he e (by simp)
    exact .cons (stepWrapping_of_step hdata (step_of_effect hdata hd))
      (ih (a := { a with contents := d }) (fun e' h' => he e' (by simp [h'])) h)

theorem local_effects {es : List (Event K V)} (he : ∀ e ∈ es, e.isData) {S : K → Prop}
    (hS : ∀ e ∈ es, ∀ k, e.keys k → S k) {c c' d : Contents K V} (h : effects es c c')
    (hd : ∀ k, S k → d k = c k) :
    ∃ d', effects es d d' ∧ (∀ k, S k → d' k = c' k) ∧
      ∀ k, (∀ e ∈ es, ¬ e.keys k) → d' k = d k := by
  induction es generalizing c d with
  | nil =>
    obtain rfl := h
    exact ⟨d, rfl, hd, fun _ _ => rfl⟩
  | cons e es ih =>
    obtain ⟨b, hb, h⟩ := h
    obtain ⟨b', hb', hread, hother⟩ := Event.local (he e (by simp)) (hS e (by simp)) hb hd
    obtain ⟨d', hd', hread', hother'⟩ :=
      ih (fun e' h' => he e' (by simp [h'])) (fun e' h' => hS e' (by simp [h'])) h hread
    refine ⟨d', ⟨b', hb', hd'⟩, hread', fun k hk => ?_⟩
    rw [hother' k fun e' h' => hk e' (by simp [h']), hother k (hk e (by simp))]

end Event

end Starshard
