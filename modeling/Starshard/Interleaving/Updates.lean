import Starshard.Interleaving.Effects

/-! Concurrent updates of one key are all applied, each to the result of another. -/
namespace Starshard

open Data Concurrent
open Locking (plainEnv plainLifecycle)

variable {K V : Type} [DecidableEq K] {env : Env K V} {L : Lifecycle K V} {k : K} {f : V → V}
  {op : Sync.Op K V} {r : Answer K V} {es : List (Event K V)} {e : Event K V}

/-- The operation neither writes nor removes the key. -/
def leaves (k : K) : Sync.Op K V → Prop
  | .insert k' _ | .remove k' | .getOrInsertWith k' _ | .computeIfPresent k' _
  | .compareAndSwap k' _ _ | .compareAndRemove k' _ => k' ≠ k
  | .batchInsert entries => ∀ e ∈ entries, e.1 ≠ k
  | .batchRemove keys => k ∉ keys
  | .executeTransaction ops => ∀ op ∈ ops, op.key ≠ k
  | .retain _ | .clear | .drain | .runEviction _ _ => False
  | _ => True

def Event.leaves (k : K) : Event K V → Prop
  | .modify k' _ _ => k' ≠ k
  | .transact ops _ => ∀ op ∈ ops, op.key ≠ k
  | .retain _ _ | .drain _ | .torn _ => False
  | _ => True

/-- The event replaces a value of the key by `f` of it. -/
def Event.applies (k : K) (f : V → V) (e : Event K V) : Prop :=
  ∃ v, e = .modify k (some v) (some (f v))

theorem Event.effect_leaves (he : e.leaves k) {c c' : Contents K V} (h : e.effect c c') :
    c' k = c k := by
  cases e with
  | read k' found =>
    obtain ⟨_, rfl⟩ := h
    rfl
  | modify k' old new =>
    obtain ⟨_, rfl⟩ := h
    exact Function.update_of_ne (Ne.symm he) _ _
  | transact ops found =>
    obtain ⟨_, rfl⟩ := h
    exact applyOps_other he
  | snapshot _ _ | outdated _ | publish | count _ =>
    obtain rfl := h
    rfl
  | _ => exact he.elim

def Event.updates (k : K) : Event K V → Nat
  | .modify k' _ _ => if k' = k then 1 else 0
  | _ => 0

theorem Event.updates_leaves (he : e.leaves k) : e.updates k = 0 := by
  cases e with
  | modify k' old new => exact if_neg he
  | _ => rfl

/-- A run of updates applies each of them once. -/
theorem replay_updates (f : V → V) {c c' : Contents K V}
    (he : ∀ e ∈ es, e.leaves k ∨ e.applies k f) (h : Replay Event.effect c es c') :
    c' k = (Option.map f)^[(es.map (Event.updates k)).sum] (c k) := by
  induction h with
  | nil => rfl
  | @cons a b c e es hstep _ ih =>
    rw [ih fun e hmem => he e (List.mem_cons_of_mem _ hmem), List.map_cons, List.sum_cons]
    rcases he e (by simp) with hl | ⟨v, rfl⟩
    · rw [Event.effect_leaves hl hstep, Event.updates_leaves hl, Nat.zero_add]
    · obtain ⟨hold, rfl⟩ := hstep
      have hone : (Event.modify k (some v) (some (f v))).updates k = 1 := if_pos rfl
      rw [hone, Nat.add_comm, Function.iterate_succ_apply, hold]
      exact congrArg _ (Function.update_self ..)

omit [DecidableEq K] in
theorem Event.leaves_removal {k' : K} (hk : k' ≠ k) (old : Option V) :
    (Event.removal k' old).leaves k := by
  cases old with
  | none => trivial
  | some v => exact hk

theorem meaning_leaves (hop : leaves k op) {counts : List Metric}
    (hm : meaning env.valueEq op r es counts) : ∀ e ∈ es, e.leaves k := by
  have hone : ∀ {e : Event K V}, e.leaves k → ∀ e' ∈ [e], e'.leaves k := by
    intro e he e' hmem
    obtain rfl := List.mem_singleton.mp hmem
    exact he
  have hsnap : ∀ {answer : Nat → List (K × V) → Answer K V},
      snapshotMeaning answer r es counts → ∀ e ∈ es, e.leaves k := by
    rintro answer ⟨version, items, contents, _, _, rfl, _⟩
    exact hone trivial
  have hcall : ∀ call : KeyCall K V, call.key ≠ k → call.meaning env.valueEq r es counts →
      ∀ e ∈ es, e.leaves k := by
    rintro call hk ⟨old, _, rfl, _⟩
    refine hone ?_
    cases call with
    | get | readWith | contains => trivial
    | insert k' v => exact hk
    | remove k' => exact Event.leaves_removal hk old
    | getOrInsertWith k' g =>
      cases old with
      | none => exact hk
      | some v => trivial
    | computeIfPresent k' g =>
      cases old with
      | none => trivial
      | some v =>
        rw [KeyCall.outcome]
        cases g v <;> exact hk
    | compareAndSwap k' expected new | compareAndRemove k' expected =>
      cases old with
      | none => trivial
      | some v =>
        rw [KeyCall.outcome]
        split
        · exact hk
        · trivial
  cases op with
  | insert k' v => exact hcall (.insert k' v) hop hm
  | remove k' => exact hcall (.remove k') hop hm
  | getOrInsertWith k' g => exact hcall (.getOrInsertWith k' g) hop hm
  | computeIfPresent k' g => exact hcall (.computeIfPresent k' g) hop hm
  | compareAndSwap k' expected new => exact hcall (.compareAndSwap k' expected new) hop hm
  | compareAndRemove k' expected => exact hcall (.compareAndRemove k' expected) hop hm
  | get k' | readWith k' read | contains k' =>
    obtain ⟨old, _, rfl, _⟩ := hm
    exact hone trivial
  | batchInsert entries =>
    obtain ⟨done, hd, _, rfl, _⟩ := hm
    intro e he
    obtain ⟨x, hx, rfl⟩ := List.mem_map.mp he
    exact hop x.1 (hd.mem (List.mem_map_of_mem hx))
  | batchRemove keys =>
    obtain ⟨done, hd, _, rfl, _⟩ := hm
    intro e he
    obtain ⟨x, hx, rfl⟩ := List.mem_map.mp he
    have hmem : x.1 ∈ keys := hd.mem (List.mem_map_of_mem hx)
    exact Event.leaves_removal (fun hk : x.1 = k => hop (hk ▸ hmem)) x.2
  | batchGet keys =>
    obtain ⟨done, vs, _, _, _, _, rfl, _⟩ := hm
    intro e he
    obtain ⟨x, _, rfl⟩ := List.mem_map.mp he
    trivial
  | executeTransaction ops =>
    obtain ⟨found, _, rfl, _⟩ := hm
    exact hone hop
  | snapshotView | captureSnapshot | iter | collect => exact hsnap hm
  | snapshotAtVersion version =>
    rcases hm with ⟨_, rfl, _⟩ | hm
    · exact hone trivial
    · exact hsnap hm
  | retain _ | clear | drain | runEviction _ _ => exact hop.elim
  | _ =>
    obtain ⟨_, rfl, _⟩ := hm
    exact fun _ he => absurd he List.not_mem_nil

variable {h : List (Label (Sync.Op K V) (Answer K V))} {a₀ : Abstract K V}
  {s₀ : State K V L.State} {c : Config (semantics env L) (Sync.Op K V) (Answer K V)}

def updated : Answer K V → Nat
  | .value (some _) => 1
  | _ => 0

omit [DecidableEq K] in
theorem Event.leaves_of_invisible (hv : e.isVisible = false) : e.leaves k := by
  cases e <;> trivial

theorem sum_updates (k : K) (es : List (Event K V)) :
    (es.map (Event.updates k)).sum = ((visible es).map (Event.updates k)).sum := by
  induction es with
  | nil => rfl
  | cons e es ih =>
    have hcons : visible (e :: es) = if e.isVisible then e :: visible es else visible es :=
      List.filter_cons
    rw [List.map_cons, List.sum_cons, hcons, ih]
    split
    · rfl
    · next hv =>
      rw [Event.updates_leaves (Event.leaves_of_invisible (Bool.eq_false_iff.mpr hv)), Nat.zero_add]

omit [DecidableEq K] in
theorem applies_of_visible (h : ∀ e ∈ visible es, e.leaves k ∨ e.applies k f) :
    ∀ e ∈ es, e.leaves k ∨ e.applies k f := fun e he => by
  cases hv : e.isVisible with
  | false => exact .inl (Event.leaves_of_invisible hv)
  | true => exact h e (List.mem_filter.mpr ⟨he, hv⟩)

/-- What an update committed: the new value, or a look at the missing key. -/
theorem Explains.applies (hev : env.eviction = none)
    (h : Explains env (.computeIfPresent k fun v => some (f v)) es r) :
    (∀ e ∈ es, e.leaves k ∨ e.applies k f) ∧ (es.map (Event.updates k)).sum = updated r := by
  obtain ⟨main, counts, ev, ⟨old, rfl, rfl, _⟩, hfollow, hvis, _⟩ := h
  rw [hfollow.1.1 hev, List.append_nil] at hvis
  cases old with
  | none =>
    have hvis : visible es = [.read k none] := hvis
    refine ⟨applies_of_visible fun e he => ?_, by rw [sum_updates, hvis]; rfl⟩
    rw [hvis, List.mem_singleton] at he
    exact .inl (he ▸ trivial)
  | some v =>
    have hvis : visible es = [.modify k (some v) (some (f v))] := hvis
    refine ⟨applies_of_visible fun e he => ?_, ?_⟩
    · rw [hvis, List.mem_singleton] at he
      exact .inr ⟨v, he⟩
    · rw [sum_updates, hvis]
      exact if_pos rfl

/-- What another call committed leaves the key alone. -/
theorem Explains.leaves (hev : env.eviction = none) (hop : leaves k op)
    (h : Explains env op es r) : ∀ e ∈ es, e.leaves k := by
  obtain ⟨main, counts, ev, hm, hfollow, hvis, _⟩ := h
  rw [hfollow.1.1 hev, List.append_nil] at hvis
  intro e he
  cases hv : e.isVisible with
  | false => exact Event.leaves_of_invisible hv
  | true => exact meaning_leaves hop hm e (hvis ▸ List.mem_filter.mpr ⟨he, hv⟩)

/-- No concurrent update is lost: after any run in which one key is only updated in place, by
calls that all apply `f`, its value is `f` applied as often as calls reported success, while
other keys are written and entries migrate. -/
theorem no_update_lost (hsync : env.awaits = false) (hs : Rests env.hash s₀ a₀)
    (hr : Run (semantics env L) (Sync.answer env) s₀ h c) (hev : env.eviction = none)
    (hq : c.Quiescent) (hcut : ∀ t, .cut t ∉ h)
    (hop : ∀ t op, .call t op ∈ h → op = .computeIfPresent k (fun v => some (f v)) ∨ leaves k op)
    {ts : List Nat} (hts : ts.Nodup) (hmem : ∀ t, t ∈ ts ↔
      .call t (.computeIfPresent k fun v => some (f v)) ∈ h ∧ ∃ v, .ret t (.value (some v)) ∈ h) :
    c.shared.contents env.hash k = (Option.map f)^[ts.length] (s₀.contents env.hash k) := by
  obtain ⟨g, lin, hx⟩ := explained hsync hs hr
  have hinv : Inv env.hash c.shared c.guards g := hx.inv
  rw [hx.guards_nil hq] at hinv
  have hrest := Rests.of_inv hinv
  -- a task answers once, and was called with one operation
  have honce : ∀ {t op op'}, .call t op ∈ h → .call t op' ∈ h → op = op' := fun hc hc' =>
    Option.some.inj (((hx.called _ _).mp hc).symm.trans ((hx.called _ _).mp hc'))
  have hans : ∀ {t r r'}, .ret t r ∈ h → .ret t r' ∈ h → r = r' := fun hr hr' => by
    obtain ⟨op, ho⟩ := hx.returned _ _ hr
    obtain ⟨op', ho'⟩ := hx.returned _ _ hr'
    rw [ho] at ho'
    cases ho'
    rfl
  have htask : ∀ t, (∀ e ∈ eventsOf t lin, e.leaves k ∨ e.applies k f) ∧
      ((eventsOf t lin).map (Event.updates k)).sum = if t ∈ ts then 1 else 0 := by
    intro t
    rcases returned_events hr hx hq hcut t with ⟨hnone, hnil⟩ | ⟨op, r, hcall, hret, hexp⟩
    · rw [hnil, if_neg fun ht => hnone _ ((hmem t).mp ht).1]
      exact ⟨nofun, rfl⟩
    · rcases hop t op hcall with rfl | hleaves
      · obtain ⟨happ, hsum⟩ := hexp.applies hev
        refine ⟨happ, hsum.trans ?_⟩
        by_cases ht : t ∈ ts
        · obtain ⟨_, v, hv⟩ := (hmem t).mp ht
          rw [if_pos ht, hans hret hv]
          rfl
        · rw [if_neg ht]
          unfold updated
          split
          · next v => exact absurd ((hmem t).mpr ⟨hcall, v, hret⟩) ht
          · rfl
      · have hl := hexp.leaves hev hleaves
        have ht : t ∉ ts := fun ht => by
          have heq := honce hcall ((hmem t).mp ht).1
          rw [heq] at hleaves
          exact hleaves rfl
        refine ⟨fun e he => .inl (hl e he), ?_⟩
        rw [if_neg ht, List.sum_eq_zero]
        intro n hn
        obtain ⟨e, he, rfl⟩ := List.mem_map.mp hn
        exact Event.updates_leaves (hl e he)
  have hall : ∀ e ∈ lin.map Prod.snd, e.leaves k ∨ e.applies k f := by
    intro e he
    obtain ⟨x, hxl, rfl⟩ := List.mem_map.mp he
    exact (htask x.1).1 x.2 (mem_eventsOf.mpr hxl)
  have hsum : ((lin.map Prod.snd).map (Event.updates k)).sum = ts.length := by
    rw [sum_over_tasks hts fun t ht => (htask t).2.trans (if_neg ht),
      List.map_congr_left fun t ht => (htask t).2.trans (if_pos ht)]
    simp
  have hreplay := replay_updates f hall (Event.replay_contents hx.legal)
  rw [hsum] at hreplay
  rw [← hrest.contents, ← hs.contents]
  exact hreplay

theorem rush_updates {t : Nat} {op : Sync.Op Nat Nat} (h : .call t op ∈ rush) :
    op = .computeIfPresent 1 (fun v => some (v + 1)) ∨ leaves 1 op := by
  simp only [rush, List.mem_cons, Turn.call.injEq, List.not_mem_nil, reduceCtorEq, or_false] at h
  rcases h with ⟨-, rfl⟩ | ⟨-, rfl⟩ | ⟨-, rfl⟩ | ⟨-, rfl⟩ | ⟨-, rfl⟩ | ⟨-, rfl⟩ | ⟨-, rfl⟩ |
    ⟨-, rfl⟩ | ⟨-, rfl⟩ <;> simp [leaves]

theorem no_update_lost_rushed : ∃ (s₀ : State Nat Nat plainLifecycle.State)
    (h : List (Label (Sync.Op Nat Nat) (Answer Nat Nat)))
    (c : Config (semantics cachingEnv plainLifecycle) (Sync.Op Nat Nat) (Answer Nat Nat)),
    s₀.previous.isSome ∧ s₀.contents cachingEnv.hash 1 = some 2 ∧ Rushed s₀ h c ∧
      c.shared.contents cachingEnv.hash 1 = some 4 := by
  obtain ⟨s₀, a₀, h, c, hs, hprev, h₁, -, hc⟩ := rushed
  have hop : ∀ t op, .call t op ∈ h →
      op = .computeIfPresent 1 (fun v => some (v + 1)) ∨ leaves 1 op := fun t op ht =>
    rush_updates ((hc.called t op).mp ht)
  have hmem : ∀ t, t ∈ [0, 1] ↔ .call t (.computeIfPresent 1 fun v => some (v + 1)) ∈ h ∧
      ∃ v, .ret t (.value (some v)) ∈ h := by
    intro t
    constructor
    · intro ht
      rcases List.mem_cons.mp ht with rfl | ht
      · exact ⟨(hc.called _ _).mpr (by simp [rush]), 3, hc.updated.1⟩
      · obtain rfl := List.mem_singleton.mp ht
        exact ⟨(hc.called _ _).mpr (by simp [rush]), 4, hc.updated.2⟩
    · rintro ⟨ht, -⟩
      simpa [rush] using (hc.called t _).mp ht
  have hvalue := no_update_lost rfl hs hc.run rfl hc.quiescent hc.uncut hop (by simp) hmem
  rw [h₁] at hvalue
  exact ⟨s₀, h, c, hprev, h₁, hc, hvalue⟩

end Starshard
