import Starshard.Interleaving.Effects

/-! A key that is present and that no call removes stays visible to every lookup, while
other calls write it and entries migrate. -/
namespace Starshard

open Data Concurrent
open Locking (plainEnv plainLifecycle)

variable {K V : Type} [DecidableEq K] {env : Env K V} {L : Lifecycle K V} {k : K}
  {op : Sync.Op K V} {r : Answer K V} {es : List (Event K V)} {e : Event K V}

/-- The operation may take the key away. -/
def mayRemove (k : K) : Sync.Op K V → Prop
  | .remove k' | .computeIfPresent k' _ | .compareAndRemove k' _ => k' = k
  | .batchRemove keys => k ∈ keys
  | .executeTransaction ops => .remove k ∈ ops
  | .retain _ | .clear | .drain | .runEviction _ _ => True
  | _ => False

def Event.spares (k : K) : Event K V → Prop
  | .modify k' _ new => k' = k → new.isSome
  | .transact ops _ => .remove k ∉ ops
  | .retain _ _ | .drain _ | .torn _ => False
  | _ => True

theorem applyOps_spares {ops : List (TxnOp K V)} (h : .remove k ∉ ops) {c : Contents K V}
    (hc : (c k).isSome) : (applyOps c ops k).isSome := by
  induction ops generalizing c with
  | nil => exact hc
  | cons x ops ih =>
    refine ih (fun hmem => h (List.mem_cons_of_mem _ hmem)) ?_
    cases x with
    | read k' => exact hc
    | write k' v =>
      by_cases hk : k = k'
      · subst hk
        simp [applyOp]
      · simpa [applyOp, hk] using hc
    | remove k' =>
      have hk : k ≠ k' := fun hk => h (by simp [hk])
      simpa [applyOp, hk] using hc

theorem Event.effect_spares (he : e.spares k) {c c' : Contents K V} (h : e.effect c c')
    (hc : (c k).isSome) : (c' k).isSome := by
  cases e with
  | read k' found =>
    obtain ⟨_, rfl⟩ := h
    exact hc
  | modify k' old new =>
    obtain ⟨_, rfl⟩ := h
    by_cases hk : k' = k
    · subst hk
      rw [Function.update_self]
      exact he rfl
    · rwa [Function.update_of_ne (Ne.symm hk)]
  | transact ops found =>
    obtain ⟨_, rfl⟩ := h
    exact applyOps_spares he hc
  | snapshot _ _ | outdated _ | publish | count _ =>
    obtain rfl := h
    exact hc
  | _ => exact he.elim

theorem replay_spares {c c' : Contents K V} (he : ∀ e ∈ es, e.spares k)
    (h : Replay Event.effect c es c') (hc : (c k).isSome) : (c' k).isSome := by
  induction h with
  | nil => exact hc
  | cons hstep _ ih =>
    exact ih (fun e hmem => he e (List.mem_cons_of_mem _ hmem))
      (Event.effect_spares (he _ (by simp)) hstep hc)

omit [DecidableEq K] in
theorem Event.spares_removal {k' : K} (hk : k' ≠ k) (old : Option V) :
    (Event.removal k' old).spares k := by
  cases old with
  | none => trivial
  | some v => exact fun h => absurd h hk

theorem meaning_spares (hop : ¬ mayRemove k op) {counts : List Metric}
    (hm : meaning env.valueEq op r es counts) : ∀ e ∈ es, e.spares k := by
  have hone : ∀ {e : Event K V}, e.spares k → ∀ e' ∈ [e], e'.spares k := by
    intro e he e' hmem
    obtain rfl := List.mem_singleton.mp hmem
    exact he
  have hsnap : ∀ {answer : Nat → List (K × V) → Answer K V},
      snapshotMeaning answer r es counts → ∀ e ∈ es, e.spares k := by
    rintro answer ⟨version, items, contents, _, _, rfl, _⟩
    exact hone trivial
  cases op with
  | get k' | readWith k' read | contains k' =>
    obtain ⟨old, _, rfl, _⟩ := hm
    exact hone trivial
  | insert k' v =>
    obtain ⟨old, _, rfl, _⟩ := hm
    exact hone fun _ => rfl
  | remove k' =>
    obtain ⟨old, _, rfl, _⟩ := hm
    exact hone (Event.spares_removal hop old)
  | getOrInsertWith k' f =>
    obtain ⟨old, _, rfl, _⟩ := hm
    cases old with
    | none => exact hone fun _ => rfl
    | some v => exact hone trivial
  | computeIfPresent k' f =>
    obtain ⟨old, _, rfl, _⟩ := hm
    cases old with
    | none => exact hone trivial
    | some v =>
      rw [KeyCall.outcome]
      cases f v <;> exact hone fun hk => absurd hk hop
  | compareAndSwap k' expected new =>
    obtain ⟨old, _, rfl, _⟩ := hm
    cases old with
    | none => exact hone trivial
    | some v =>
      rw [KeyCall.outcome]
      split
      · exact hone fun _ => rfl
      · exact hone trivial
  | compareAndRemove k' expected =>
    obtain ⟨old, _, rfl, _⟩ := hm
    cases old with
    | none => exact hone trivial
    | some v =>
      rw [KeyCall.outcome]
      split
      · exact hone fun hk => absurd hk hop
      · exact hone trivial
  | batchInsert entries =>
    obtain ⟨done, _, _, rfl, _⟩ := hm
    intro e he
    obtain ⟨x, _, rfl⟩ := List.mem_map.mp he
    exact fun _ => rfl
  | batchRemove keys =>
    obtain ⟨done, hd, _, rfl, _⟩ := hm
    intro e he
    obtain ⟨x, hx, rfl⟩ := List.mem_map.mp he
    refine Event.spares_removal (fun hk => hop ?_) x.2
    have hmem : x.1 ∈ keys := hd.perm.mem_iff.mp (List.mem_map_of_mem hx)
    exact hk ▸ hmem
  | batchGet keys =>
    obtain ⟨done, vs, _, _, _, _, rfl, _⟩ := hm
    intro e he
    obtain ⟨x, _, rfl⟩ := List.mem_map.mp he
    trivial
  | executeTransaction ops =>
    obtain ⟨found, _, rfl, _⟩ := hm
    exact hone hop
  | snapshotView | captureSnapshot | iter | collect => exact hsnap hm
  | snapshotAtVersion version =>
    rcases hm with ⟨_, rfl, _⟩ | hm
    · exact hone trivial
    · exact hsnap hm
  | retain _ | clear | drain | runEviction _ _ => exact absurd trivial hop
  | _ =>
    obtain ⟨_, rfl, _⟩ := hm
    exact fun _ he => absurd he List.not_mem_nil

theorem Begins.spares (hev : env.eviction = none) (hop : ¬ mayRemove k op)
    (h : Begins env op (visible es)) : ∀ e ∈ es, e.spares k := by
  obtain ⟨rest, r, main, counts, ev, hm, hfollow, heq⟩ := h
  rw [hfollow.1.1 hev, List.append_nil] at heq
  intro e he
  cases hv : e.isVisible with
  | true =>
    have hmem : e ∈ visible es := List.mem_filter.mpr ⟨he, hv⟩
    exact meaning_spares hop hm e (heq ▸ List.mem_append_left _ hmem)
  | false => cases e <;> trivial

variable {h : List (Label (Sync.Op K V) (Answer K V))} {a₀ : Abstract K V}
  {s₀ : State K V L.State} {c : Config (semantics env L) (Sync.Op K V) (Answer K V)}

/-- No event of such a run takes the key away. -/
theorem all_spare {g : Ghost K V} {lin : List (Nat × Event K V)}
    (hx : (protocol env L False).Explained (Begins env) (Explains env) a₀ h c g lin)
    (hev : env.eviction = none) (hcut : ∀ t, .cut t ∉ h)
    (hop : ∀ t op, .call t op ∈ h → ¬ mayRemove k op) : ∀ x ∈ lin, x.2.spares k := fun x hmem => by
  have hlin := hx.linearization hcut
  obtain ⟨op, hcall⟩ := hlin.called x hmem
  have hbegins : Begins env op (visible (eventsOf x.1 lin)) := hlin.pending x.1 op hcall
  exact hbegins.spares hev (hop x.1 op hcall) x.2 (mem_eventsOf.mpr hmem)

omit [DecidableEq K] in
theorem mem_of_visible {es main ev : List (Event K V)} {e : Event K V}
    (h : visible es = main ++ ev) (he : e ∈ main) : e ∈ es :=
  (List.mem_filter.mp (h ▸ List.mem_append_left _ he)).1

def found : Answer K V → Prop
  | .value v => v.isSome
  | .flag b => b = true
  | _ => False

/-- A lookup never misses a key that is present during its whole execution: in a map without
capacity, whatever inserts, updates, snapshots and steps of a migration run meanwhile, and
also while another task promotes the key. -/
theorem present_key_found (hsync : env.awaits = false) (hs : Rests env.hash s₀ a₀)
    (hr : Run (semantics env L) (Sync.answer env) s₀ h c) (hev : env.eviction = none)
    (hk : (s₀.contents env.hash k).isSome) (hcut : ∀ t, .cut t ∉ h)
    (hop : ∀ t op, .call t op ∈ h → ¬ mayRemove k op) {t : Nat} {r : Answer K V}
    (hret : .ret t r ∈ h)
    (hcall : .call t (.get k) ∈ h ∨ .call t (.contains k) ∈ h) : found r := by
  obtain ⟨g, lin, hx⟩ := explained hsync hs hr
  have hspares := all_spare hx hev hcut hop
  -- the lookup found what the map held at the point of its read
  have hread : ∀ old, Event.read k old ∈ eventsOf t lin → old.isSome := by
    intro old hmem
    obtain ⟨l₁, l₂, heq⟩ := List.append_of_mem (mem_eventsOf.mp hmem)
    have hlegal : Replay Event.effect a₀.contents (lin.map Prod.snd) g.abs.contents :=
      Event.replay_contents hx.legal
    rw [heq, List.map_append] at hlegal
    obtain ⟨b, h₁, h₂⟩ := hlegal.of_append
    have hb : (b k).isSome := by
      refine replay_spares (fun e he => ?_) h₁ (hs.contents ▸ hk)
      obtain ⟨x, hx', rfl⟩ := List.mem_map.mp he
      exact hspares x (heq ▸ List.mem_append_left _ hx')
    cases h₂ with
    | cons hstep _ =>
      exact hstep.1 ▸ hb
  rcases hcall with hcall | hcall
  · obtain ⟨main, counts, ev, ⟨old, rfl, rfl, _⟩, _, heq, _⟩ := hx.accepted hcall hret
    exact hread old (mem_of_visible heq (by simp [KeyCall.outcome]))
  · obtain ⟨main, counts, ev, ⟨old, rfl, rfl, _⟩, _, heq, _⟩ := hx.accepted hcall hret
    exact hread old (mem_of_visible heq (by simp [KeyCall.outcome]))

theorem rush_keeps (k : Nat) (hk : 1 ≠ k) {t : Nat} {op : Sync.Op Nat Nat}
    (h : .call t op ∈ rush) : ¬ mayRemove k op := by
  simp only [rush, List.mem_cons, Turn.call.injEq, List.not_mem_nil, reduceCtorEq, or_false] at h
  rcases h with ⟨-, rfl⟩ | ⟨-, rfl⟩ | ⟨-, rfl⟩ | ⟨-, rfl⟩ | ⟨-, rfl⟩ | ⟨-, rfl⟩ | ⟨-, rfl⟩ |
    ⟨-, rfl⟩ | ⟨-, rfl⟩ <;> simp [mayRemove, hk]

theorem present_key_found_rushed : ∃ (s₀ : State Nat Nat plainLifecycle.State)
    (h : List (Label (Sync.Op Nat Nat) (Answer Nat Nat)))
    (c : Config (semantics cachingEnv plainLifecycle) (Sync.Op Nat Nat) (Answer Nat Nat)),
    s₀.previous.isSome ∧ s₀.contents cachingEnv.hash 2 = some 5 ∧ Rushed s₀ h c ∧
      .call 7 (.get 2) ∈ h ∧ found (.value (some 5) : Answer Nat Nat) := by
  obtain ⟨s₀, a₀, h, c, hs, hprev, -, h₂, hc⟩ := rushed
  have hcall : .call 7 (.get 2) ∈ h := (hc.called _ _).mpr (by simp [rush])
  exact ⟨s₀, h, c, hprev, h₂, hc, hcall, present_key_found rfl hs hc.run rfl (h₂ ▸ rfl) hc.uncut
    (fun t op ht => rush_keeps 2 (by decide) ((hc.called t op).mp ht)) hc.found (.inl hcall)⟩

/-- An event that found the key absent is the first that made it present. -/
theorem first_present {lin : List (Nat × Event K V)} {c₀ final : Contents K V}
    (hlegal : Replay Event.effect c₀ (lin.map Prod.snd) final)
    (hspares : ∀ x ∈ lin, x.2.spares k) {t u : Nat} {v v' : V} (htu : t ≠ u)
    (ht : (t, Event.modify k none (some v)) ∈ lin) : (u, Event.modify k none (some v')) ∉ lin := by
  -- one of the two comes first, and the other finds the key present
  have hafter : ∀ {t u : Nat} {v v' : V} {l₁ l₂ : List (Nat × Event K V)},
      lin = l₁ ++ (t, .modify k none (some v)) :: l₂ → (u, .modify k none (some v')) ∉ l₂ := by
    intro t u v v' l₁ l₂ heq hmem
    obtain ⟨m₁, m₂, rfl⟩ := List.append_of_mem hmem
    rw [heq, List.map_append] at hlegal
    obtain ⟨b, _, h₂⟩ := hlegal.of_append
    cases h₂ with
    | cons hstep hrest =>
      obtain ⟨_, rfl⟩ := hstep
      rw [List.map_append] at hrest
      obtain ⟨b', h₃, h₄⟩ := hrest.of_append
      have hb : (b' k).isSome := by
        refine replay_spares (fun e he => ?_) h₃ ?_
        · obtain ⟨x, hx, rfl⟩ := List.mem_map.mp he
          exact hspares x (by rw [heq]; simp [hx])
        · rw [Function.update_self]
          rfl
      cases h₄ with
      | cons hstep' _ =>
        rw [hstep'.1] at hb
        cases hb
  intro hu
  obtain ⟨l₁, l₂, heq⟩ := List.append_of_mem ht
  rw [heq] at hu
  rcases List.mem_append.mp hu with hu | hu
  · obtain ⟨m₁, m₂, rfl⟩ := List.append_of_mem hu
    have heq' : lin = m₁ ++ (u, .modify k none (some v')) ::
        (m₂ ++ (t, .modify k none (some v)) :: l₂) := by
      rw [heq, List.append_assoc, List.cons_append]
    exact hafter heq' (List.mem_append_right _ List.mem_cons_self)
  · rcases List.mem_cons.mp hu with hu | hu
    · cases hu
      exact htu rfl
    · exact hafter heq hu

/-- The initializer of an absent key runs at most once, however many calls race for the key
and while its slot is initialised or its shard migrates: of all calls only one reports that
it inserted, unless a call may have removed the key in between. -/
theorem initializer_runs_once (hsync : env.awaits = false) (hs : Rests env.hash s₀ a₀)
    (hr : Run (semantics env L) (Sync.answer env) s₀ h c) (hev : env.eviction = none)
    (hcut : ∀ t, .cut t ∉ h) (hop : ∀ t op, .call t op ∈ h → ¬ mayRemove k op) :
    {t | ∃ f v, .call t (.getOrInsertWith k f) ∈ h ∧ .ret t (.entry v true) ∈ h}.Subsingleton := by
  obtain ⟨g, lin, hx⟩ := explained hsync hs hr
  have hspares := all_spare hx hev hcut hop
  have hinsert : ∀ {t : Nat} {f : Unit → V} {v : V}, .call t (.getOrInsertWith k f) ∈ h →
      .ret t (.entry v true) ∈ h → (t, Event.modify k none (some (f ()))) ∈ lin := by
    intro t f v hcall hret
    obtain ⟨main, counts, ev, ⟨old, heq, rfl, _⟩, _, hvis, _⟩ :=
      hx.accepted hcall hret
    cases old with
    | none => exact mem_eventsOf.mp (mem_of_visible hvis (by simp [KeyCall.outcome]))
    | some w => cases heq
  rintro t ⟨f, v, hcall, hret⟩ u ⟨f', v', hcall', hret'⟩
  by_contra htu
  exact first_present (Event.replay_contents hx.legal) hspares htu (hinsert hcall hret)
    (hinsert hcall' hret')

theorem initializer_runs_once_rushed : ∃ (s₀ : State Nat Nat plainLifecycle.State)
    (h : List (Label (Sync.Op Nat Nat) (Answer Nat Nat)))
    (c : Config (semantics cachingEnv plainLifecycle) (Sync.Op Nat Nat) (Answer Nat Nat)),
    s₀.previous.isSome ∧ Rushed s₀ h c ∧ .ret 5 (.entry 4 false) ∈ h ∧ .ret 6 (.entry 4 true) ∈ h ∧
      {t | ∃ f v, .call t (.getOrInsertWith 9 f) ∈ h ∧ .ret t (.entry v true) ∈ h}.Subsingleton := by
  obtain ⟨s₀, a₀, h, c, hs, hprev, -, -, hc⟩ := rushed
  exact ⟨s₀, h, c, hprev, hc, hc.initialized.1, hc.initialized.2,
    initializer_runs_once rfl hs hc.run rfl hc.uncut fun t op ht =>
      rush_keeps 9 (by decide) ((hc.called t op).mp ht)⟩

end Starshard
