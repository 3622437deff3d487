import Starshard.Bookkeeping.Sums

/-! However a hook ends, it leaves exact sums, and it subtracts only what is there. -/
namespace Starshard.Bookkeeping

open Data Retirement
open Repair (Entry Metadata Engine)

variable {K : Type} {fx : K → UInt64} {u : Prop} {e e' : Engine K} {hash : UInt64} {x : Entry K}
  {n : Nat}

theorem subtract_of_le {a b : Nat} (h : b ≤ a) : (subtract a b : Hook K Nat) = pure (a - b) :=
  if_neg (Nat.not_lt.mpr h)

/-- A hook that adds no entry. -/
def Keeps {α : Type} (fx : K → UInt64) (u : Prop) (x : Hook K α) (e : Engine K) : Prop :=
  Failing.Ends (fun _ e' => Exact fx u e') (fun c e' => c = .user ∧ Exact fx u e') x e

theorem removeWhere_keeps {test : Nat → Entry K → Except Fault Bool} (h : Exact fx u e)
    (ht : ∀ n x c, test n x = .error c → c = .user) :
    Keeps fx u (removeWhere hash test) e := by
  refine Failing.Ends.get_bind ?_
  dsimp only
  cases hp : position test ((e.stripes (stripeOf hash)).bucket hash) with
  | error c =>
    obtain ⟨n, x, hx⟩ := position_error hp
    exact ⟨ht n x c hx, h⟩
  | ok found =>
    cases found with
    | none => exact h.drop hash
    | some found =>
      obtain ⟨x, n⟩ := found
      have hx := position_some hp
      obtain ⟨hweight, hentries⟩ := h.found hx
      dsimp only
      simp only [subtract_of_le hweight, subtract_of_le hentries, pure_bind]
      exact (h.removed hx rfl rfl rfl rfl).drop hash

section Hooks

variable {panics : User → Bool} {eq : K → Bool} {c : Fault}

theorem stamp_keeps (h : Exact fx u e) : Keeps fx u stamp e :=
  show Exact fx u { e with sequence := e.sequence + 1 } from
    h.congr (fun _ => rfl) (fun _ => rfl) rfl

theorem apply_update {α : Type} {i : Stripe} {m : Metadata K} (s : Stripe → Metadata K)
    (part : Metadata K → α) (h : part m = part (s i)) (j : Stripe) :
    part (Function.update s i m j) = part (s j) := by
  by_cases hj : j = i
  · subst hj
    rwa [Function.update_self]
  · rw [Function.update_of_ne hj]

theorem deferKey_keeps (h : Exact fx u e) (hash : UInt64) (key : Handle K) :
    Keeps fx u (deferKey hash key) e := by
  exact h.congr (apply_update _ Metadata.buckets rfl) (apply_update _ Metadata.weight rfl) rfl

theorem compareKey_error (h : compareKey panics eq n x = .error c) : c = .user := by
  unfold compareKey at h
  split at h
  · cases h
    rfl
  · cases h

theorem recordRead_keeps (h : Exact fx u e) (q : Query K) (hit : Bool) :
    Keeps fx u (recordRead panics q hit) e := by
  unfold recordRead
  cases hit with
  | false => exact h
  | true =>
    rw [if_pos rfl]
    cases hp : panics .hash with
    | true => exact ⟨rfl, h⟩
    | false =>
      refine Failing.Ends.get_bind ?_
      dsimp only
      cases hf : position (compareKey panics q.eq)
        ((e.stripes (stripeOf q.hash)).bucket q.hash) with
      | error c =>
        obtain ⟨n, x, hx⟩ := position_error hf
        exact ⟨compareKey_error hx, h⟩
      | ok found =>
        cases found with
        | none => exact h
        | some found =>
          obtain ⟨x, n⟩ := found
          have hx := position_some hf
          have hweight := (h.found hx).1
          have hnarrow := (h.bucket q.hash).narrow x (List.mem_of_getElem? hx)
          exact h.rewritten hx (y := touched e.sequence x) rfl hnarrow rfl rfl
            (fun _ => (Nat.sub_add_cancel hweight).symm) rfl

theorem recordRemove_keeps (h : Exact fx u e) (q : Query K) :
    Keeps fx u (recordRemove panics q) e := by
  unfold recordRemove
  cases hp : panics .hash with
  | true => exact ⟨rfl, h⟩
  | false => exact removeWhere_keeps h fun _ _ _ => compareKey_error

theorem recordEviction_keeps (h : Exact fx u e) (hash incarnation : UInt64) :
    Keeps fx u (recordEviction hash incarnation) e :=
  removeWhere_keeps h fun _ _ _ hc => by cases hc

theorem weight_ends (h : Exact fx u e) (weighed : Option UInt64) :
    Failing.Ends (fun _ e' => e' = e) (fun c e' => c = .user ∧ Exact fx u e')
      (weight panics weighed) e := by
  unfold weight
  cases weighed with
  | none => rfl
  | some w =>
    cases hp : panics .weigh with
    | true => exact ⟨rfl, h⟩
    | false => rfl

theorem refreshed_key (stamp weight : UInt64) (replaced : Bool) (x : Entry K) :
    (refreshed stamp weight replaced x).key = x.key := by
  unfold refreshed
  split <;> rfl

theorem refreshed_weight (stamp weight : UInt64) (replaced : Bool) (x : Entry K) :
    (refreshed stamp weight replaced x).weight = weight.toNat := by
  unfold refreshed
  split <;> rfl

variable [DecidableEq K]

theorem sameKey_error {key : Handle K} (h : sameKey panics key n x = .error c) : c = .user := by
  unfold sameKey at h
  split at h
  · cases h
  · exact compareKey_error h

theorem sameKey_false {key : Handle K} (h : sameKey panics key n x = .ok false) :
    x.key.key ≠ key.key := by
  unfold sameKey compareKey at h
  split at h
  · cases h
  · split at h
    · cases h
    · exact of_decide_eq_false (Except.ok.inj h)

omit [DecidableEq K] in
theorem openBucket_keeps (h : Exact fx u e) (hash : UInt64) :
    Keeps fx u (openBucket hash) e := by
  let stripe := e.stripes (stripeOf hash)
  let m : Metadata K := { stripe with buckets := stripe.buckets.insert hash (stripe.bucket hash) }
  let e' : Engine K := { e with stripes := Function.update e.stripes (stripeOf hash) m }
  have hedit : e'.contents.length + _ = _ := length_edit (m := m) rfl rfl
  have hroom : e'.contents.length < 2 ^ 64 := by
    rw [Nat.add_right_cancel hedit]
    exact h.room
  exact h.edit rfl rfl (h.bucket hash) hroom (fun w heq _ => (Nat.add_right_cancel heq).symm)
    fun n heq _ => (Nat.add_right_cancel heq).symm

theorem insertEntry_ends (h : Exact fx u e) {p : Prepared K} (hk : fx p.key.key = p.hash)
    (replaced : Bool) (stamp : UInt64) :
    Failing.Ends (fun _ e' => e'.contents.length < 2 ^ 64 → Exact fx u e')
      (fun c e' => c = .user ∧ Exact fx u e') (insertEntry panics p replaced stamp) e := by
  refine Failing.Ends.get_bind ?_
  dsimp only
  cases hf : position (sameKey panics p.key) ((e.stripes (stripeOf p.hash)).bucket p.hash) with
  | error c =>
    obtain ⟨n, x, hx⟩ := position_error hf
    exact (deferKey_keeps h p.hash p.key).bind fun _ e' h' => ⟨sameKey_error hx, h'⟩
  | ok found =>
    cases found with
    | none =>
      intro hroom
      have hnew : ∀ y ∈ (e.stripes (stripeOf p.hash)).bucket p.hash, y.key.key ≠ p.key.key := by
        intro y hy
        obtain ⟨n, hn⟩ := position_none hf hy
        exact sameKey_false hn
      refine h.edit rfl rfl ((h.bucket p.hash).push hk p.weight.toNat_lt hnew) hroom
        (fun w heq hlt => ?_) fun n heq hlt => ?_
      · rw [weights_append, weights_cons, weights_nil] at heq
        have hw : w = (e.stripes (stripeOf p.hash)).weight + p.weight.toNat := by
          dsimp only at heq
          omega
        rw [hw] at hlt ⊢
        exact Nat.mod_eq_of_lt hlt
      · rw [List.length_append, List.length_singleton] at heq
        have hn : n = e.entries + 1 := by omega
        rw [hn] at hlt ⊢
        exact Nat.mod_eq_of_lt hlt
    | some found =>
      obtain ⟨x, n⟩ := found
      have hx := position_some hf
      have hweight := (h.found hx).1
      dsimp only
      rw [subtract_of_le hweight, pure_bind]
      intro _
      refine h.rewritten hx (refreshed_key stamp p.weight replaced x) ?_ rfl rfl ?_ rfl
      · rw [refreshed_weight]
        exact p.weight.toNat_lt
      · rw [refreshed_weight]
        exact Nat.mod_eq_of_lt

theorem recordInsert_ends (h : Exact fx u e) {p : Prepared K} (hk : fx p.key.key = p.hash)
    (replaced : Bool) :
    Failing.Ends (fun _ e' => e'.contents.length < 2 ^ 64 → Exact fx u e')
      (fun c e' => c = .user ∧ Exact fx u e') (recordInsert panics p replaced) e := by
  refine (stamp_keeps h).bind fun stamp e₁ h₁ => ?_
  refine (openBucket_keeps h₁ p.hash).bind fun _ e₂ h₂ => ?_
  exact insertEntry_ends h₂ hk replaced stamp

variable (panics) in
theorem prepareInsert_ends (h : Exact fx u e) (k : K) (weighed : Option UInt64)
    (allocation : Nat) :
    Failing.Ends (fun p e' => fx p.key.key = p.hash ∧ Exact fx u e')
      (fun c e' => c = .user ∧ Exact fx u e') (prepareInsert panics fx k weighed allocation) e := by
  refine (weight_ends h weighed).bind fun w e' he => ?_
  rw [he]
  cases hp : panics .hash with
  | true => exact ⟨rfl, h⟩
  | false =>
    refine Failing.Ends.get_bind ?_
    dsimp only
    cases hf : position (compareKey panics fun key => decide (key = k))
      ((e.stripes (stripeOf (fx k))).bucket (fx k)) with
    | error c =>
      obtain ⟨n, x, hx⟩ := position_error hf
      exact ⟨compareKey_error hx, h⟩
    | ok found =>
      cases found with
      | none =>
        cases hc : panics .clone with
        | true => exact ⟨rfl, h⟩
        | false => exact ⟨rfl, h⟩
      | some found =>
        exact ⟨(h.bucket (fx k)).hashed _ (List.mem_of_getElem? (position_some hf)), h⟩

end Hooks

end Starshard.Bookkeeping
