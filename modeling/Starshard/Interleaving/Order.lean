import Starshard.Concurrent.Order
import Starshard.Interleaving.Presence

/-! The calls on single keys in one sequential order, while the map is cleared and migrates. -/
namespace Starshard

open Data Concurrent
open Function (update)
open Locking (plainEnv plainLifecycle)

variable {K V : Type} [DecidableEq K]

/-- The operations on one key, `clear`, and those that move the map to another layout. -/
def single : Sync.Op K V → Bool
  | .get _ | .readWith _ _ | .contains _ | .insert _ _ | .remove _ | .getOrInsertWith _ _
  | .computeIfPresent _ _ | .compareAndSwap _ _ _ | .compareAndRemove _ _ | .clear
  | .startRebalanceOnline _ | .pauseRebalance | .resumeRebalance | .advanceRebalance _ _
  | .advanceRebalanceWithOptions _ _ | .rebalanceTo _ _ _ => true
  | _ => false

/-- What such an operation answers and leaves when it has a finite map for itself. -/
def onMap (valueEq : V → V → Bool) : Sync.Op K V → Contents K V → Answer K V × Contents K V
  | .get k, c => (.value (c k), c)
  | .readWith k read, c => (.value ((c k).map read), c)
  | .contains k, c => (.flag (c k).isSome, c)
  | .insert k v, c => (.value (c k), update c k (some v))
  | .remove k, c => (.value (c k), update c k none)
  | .getOrInsertWith k f, c => match c k with
    | some v => (.entry v false, c)
    | none => (.entry (f ()) true, update c k (some (f ())))
  | .computeIfPresent k f, c => match c k with
    | some v => (.value (f v), update c k (f v))
    | none => (.value none, c)
  | .compareAndSwap k expected new, c => match c k with
    | some v =>
      if valueEq v expected then (.swap (.success new), update c k (some new))
      else (.swap (.failure v), c)
    | none => (.swap (.failure new), c)
  | .compareAndRemove k expected, c => match c k with
    | some v => if valueEq v expected then (.flag true, update c k none) else (.flag false, c)
    | none => (.flag false, c)
  | .clear, _ => (.done, fun _ => none)
  | _, c => (.done, c)

/-- A call takes effect, or the maintenance of a call evicts a key. -/
inductive Effect (K : Type) where
  | call (t : Nat)
  | evict (t : Nat) (k : K)
  deriving DecidableEq

def Effect.task : Effect K → Nat
  | .call t | .evict t _ => t

/-- A call that returned answered what it answers alone on the map. -/
def Effect.step (env : Env K V) (h : List (Label (Sync.Op K V) (Answer K V))) :
    Effect K → Contents K V → Contents K V → Prop
  | .call t, c, c' => ∃ op, .call t op ∈ h ∧
      (∀ r, .ret t r ∈ h → r = (onMap env.valueEq op c).1) ∧ c' = (onMap env.valueEq op c).2
  | .evict t k, c, c' => env.eviction.isSome ∧ (∃ op, .call t op ∈ h ∧ maintains op) ∧
      (c k).isSome ∧ c' = update c k none

/-- The calls of a history in an order in which they behave as on one finite map. -/
structure Serial (env : Env K V) (h : List (Label (Sync.Op K V) (Answer K V)))
    (init : Contents K V) (order : List (Effect K)) (final : Contents K V) : Prop where
  legal : Replay (Effect.step env h) init order final
  completed : ∀ t r, .ret t r ∈ h → .call t ∈ order
  once : ∀ t, order.count (.call t) ≤ 1
  realtime : order.Pairwise fun x y => ¬ Precedes h y.task x.task

variable {env : Env K V} {L : Lifecycle K V} {op : Sync.Op K V} {r : Answer K V}
  {es : List (Event K V)} {counts : List Metric}

/-- Such an operation commits one event, which does to the map what the operation does
alone; those that only move entries commit none. -/
theorem meaning_single (hop : single op) (hm : meaning env.valueEq op r es counts) :
    (es = [] ∧ maintains op = false ∧ ∀ c, onMap env.valueEq op c = (r, c)) ∨
      ∃ e, es = [e] ∧ ∀ c c', e.effect c c' → onMap env.valueEq op c = (r, c') := by
  cases op with
  | get k | readWith k read | contains k | insert k v =>
    obtain ⟨old, rfl, rfl, -⟩ := hm
    refine .inr ⟨_, rfl, fun c c' he => ?_⟩
    obtain ⟨rfl, rfl⟩ := he
    rfl
  | remove k =>
    obtain ⟨old, rfl, rfl, -⟩ := hm
    refine .inr ⟨_, rfl, fun c c' he => ?_⟩
    cases old with
    | some v =>
      obtain ⟨hk, rfl⟩ := he
      simp [onMap, KeyCall.outcome, hk]
    | none =>
      obtain ⟨hk, rfl⟩ := he
      simp [onMap, KeyCall.outcome, ← hk]
  | getOrInsertWith k f =>
    obtain ⟨old, rfl, rfl, -⟩ := hm
    refine .inr ⟨_, rfl, fun c c' he => ?_⟩
    cases old with
    | some _ | none =>
      obtain ⟨hk, rfl⟩ := he
      simp [onMap, KeyCall.outcome, hk]
  | computeIfPresent k f =>
    obtain ⟨old, rfl, rfl, -⟩ := hm
    refine .inr ⟨_, rfl, fun c c' he => ?_⟩
    cases old with
    | some v =>
      cases hf : f v <;>
      · simp only [KeyCall.outcome, hf] at he ⊢
        obtain ⟨hk, rfl⟩ := he
        simp [onMap, hk, hf]
    | none =>
      obtain ⟨hk, rfl⟩ := he
      simp [onMap, KeyCall.outcome, hk]
  | compareAndSwap k expected _ | compareAndRemove k expected =>
    obtain ⟨old, rfl, rfl, -⟩ := hm
    refine .inr ⟨_, rfl, fun c c' he => ?_⟩
    cases old with
    | some v =>
      by_cases hv : env.valueEq v expected <;>
      · simp only [KeyCall.outcome, hv] at he ⊢
        obtain ⟨hk, rfl⟩ := he
        simp [onMap, hk, hv]
    | none =>
      obtain ⟨hk, rfl⟩ := he
      simp [onMap, KeyCall.outcome, hk]
  | clear =>
    obtain ⟨items, rfl, rfl, -⟩ := hm
    refine .inr ⟨_, rfl, fun c c' he => ?_⟩
    obtain ⟨-, rfl⟩ := he
    rfl
  | startRebalanceOnline _ | pauseRebalance | resumeRebalance | advanceRebalance _ _
  | advanceRebalanceWithOptions _ _ | rebalanceTo _ _ _ =>
    obtain ⟨rfl, rfl, -⟩ := hm
    exact .inl ⟨rfl, rfl, fun _ => rfl⟩
  | _ => cases hop

variable {h : List (Label (Sync.Op K V) (Answer K V))} {a₀ : Abstract K V}
  {s₀ : State K V L.State} {c : Config (semantics env L) (Sync.Op K V) (Answer K V)}
  {g : Ghost K V} {lin : List (Nat × Event K V)}

/-- The calls that contributed to `l`, in the order in which their events follow each other. -/
structure Placed (env : Env K V) (h : List (Label (Sync.Op K V) (Answer K V)))
    (init : Contents K V) (l : List (Nat × Event K V)) (order : List (Effect K))
    (b : Contents K V) : Prop where
  legal : Replay (Effect.step env h) init order b
  realtime : order.Pairwise fun x y => ¬ Precedes h y.task x.task
  tasks : ∀ x ∈ order, ∃ e, (x.task, e) ∈ l
  count : ∀ t, order.count (.call t) = if visible (eventsOf t l) = [] then 0 else 1

section Placed

variable {init a b : Contents K V} {l : List (Nat × Event K V)} {order : List (Effect K)} {t : Nat}
  {e : Event K V}

omit [DecidableEq K] in
theorem visible_snoc (u : Nat) : visible (eventsOf u (l ++ [(t, e)])) =
    visible (eventsOf u l) ++ if u = t then visible [e] else [] := by
  by_cases hu : u = t
  · simp [hu, eventsOf]
  · simp [eventsOf, hu, Ne.symm hu]

theorem Placed.keep (hp : Placed env h init l order b) (hv : ¬ e.isVisible) :
    Placed env h init (l ++ [(t, e)]) order b where
  legal := hp.legal
  realtime := hp.realtime
  tasks x hmem := (hp.tasks x hmem).imp fun _ => List.mem_append_left _
  count u := by
    have hnone : visible [e] = [] := List.filter_cons_of_neg hv
    rw [hp.count, visible_snoc, hnone, ite_self, List.append_nil]

/-- The first visible event of a task places its call, the others place evictions. -/
theorem Placed.snoc (hp : Placed env h init l order a)
    (hnew : ∀ x ∈ order, ¬ Precedes h t x.task) (hv : e.isVisible) {x : Effect K}
    (hx : visible (eventsOf t l) = [] ∧ x = .call t ∨
      visible (eventsOf t l) ≠ [] ∧ ∃ k, x = .evict t k)
    (hstep : Effect.step env h x a b) :
    Placed env h init (l ++ [(t, e)]) (order ++ [x]) b where
  legal := hp.legal.append (.single hstep)
  realtime := by
    have hxt : x.task = t := by
      obtain ⟨-, rfl⟩ | ⟨-, k, rfl⟩ := hx <;> rfl
    simpa [List.pairwise_append, hp.realtime, hxt] using hnew
  tasks y hmem := by
    rcases List.mem_append.mp hmem with hmem | hmem
    · exact (hp.tasks y hmem).imp fun _ => List.mem_append_left _
    · obtain rfl := List.mem_singleton.mp hmem
      obtain ⟨-, rfl⟩ | ⟨-, k, rfl⟩ := hx <;> exact ⟨e, by simp [Effect.task]⟩
  count u := by
    have hsome : visible [e] = [e] := List.filter_cons_of_pos hv
    rw [List.count_append, hp.count, visible_snoc, hsome]
    by_cases hu : u = t
    · subst hu
      obtain ⟨hnil, rfl⟩ | ⟨hne, k, rfl⟩ := hx
      · simp [hnil]
      · simp [hne]
    · obtain ⟨-, rfl⟩ | ⟨-, k, rfl⟩ := hx
      · simp [hu, Ne.symm hu]
      · simp [hu]

end Placed

section Explained

variable (hx : (protocol env L False).Explained (Begins env) (Explains env) a₀ h c g lin)
  (hcut : ∀ t, .cut t ∉ h)

include hx

theorem called_once {t : Nat} {op op' : Sync.Op K V} (hop : .call t op ∈ h)
    (hop' : .call t op' ∈ h) : op = op' :=
  Option.some.inj (((hx.called t op).mp hop).symm.trans ((hx.called t op').mp hop'))

theorem returned_once {t : Nat} {r r' : Answer K V} (hr : .ret t r ∈ h) (hr' : .ret t r' ∈ h) :
    r = r' := by
  obtain ⟨op, ht⟩ := hx.returned t r hr
  obtain ⟨op', ht'⟩ := hx.returned t r' hr'
  rw [ht] at ht'
  exact (Task.finished.inj ht').2

theorem call_of_ret {t : Nat} {r : Answer K V} (hr : .ret t r ∈ h) : ∃ op, .call t op ∈ h := by
  obtain ⟨op, ht⟩ := hx.returned t r hr
  refine ⟨op, (hx.called t op).mpr ?_⟩
  rw [ht]
  rfl

include hcut

/-- The events of a call are those of an answer, which is its own if it returned. -/
theorem begun {t : Nat} {op : Sync.Op K V} (hcall : .call t op ∈ h) :
    ∃ r main counts ev rest, (∀ r', .ret t r' ∈ h → r' = r) ∧
      meaning env.valueEq op r main counts ∧ Follows env op ev ∧
      visible (eventsOf t lin) ++ rest = main ++ ev := by
  by_cases hret : ∃ r, .ret t r ∈ h
  · obtain ⟨r, hr⟩ := hret
    obtain ⟨main, counts, ev, hm, hf, hvis, -⟩ := hx.accepted hcall hr
    refine ⟨r, main, counts, ev, [], fun r' hr' => returned_once hx hr' hr, hm, hf, ?_⟩
    rw [List.append_nil, hvis]
  · obtain ⟨rest, r, main, counts, ev, hm, hf, heq⟩ := (hx.linearization hcut).pending t op hcall
    exact ⟨r, main, counts, ev, rest, fun r' hr' => absurd ⟨r', hr'⟩ hret, hm, hf, heq⟩

/-- The first visible event of a call is its effect, the others are evictions. -/
theorem effect_of_event (hop : ∀ t op, .call t op ∈ h → single op) {l₁ l₂ : List (Nat × Event K V)}
    {t : Nat} {e : Event K V} (hl : lin = l₁ ++ (t, e) :: l₂) (hv : e.isVisible)
    {a b : Contents K V} (he : e.effect a b) :
    if visible (eventsOf t l₁) = [] then Effect.step env h (.call t) a b
    else ∃ k, Effect.step env h (.evict t k) a b := by
  obtain ⟨op, hcall⟩ := (hx.linearization hcut).called (t, e) (by simp [hl])
  obtain ⟨r, main, counts, ev, rest, hret, hm, hf, heq⟩ := begun hx hcut hcall
  have hown : eventsOf t ((t, e) :: l₂) = e :: eventsOf t l₂ := by simp [eventsOf]
  have hcons : visible (e :: eventsOf t l₂) = e :: visible (eventsOf t l₂) :=
    List.filter_cons_of_pos hv
  rw [hl, eventsOf_append, hown, visible_append, hcons, List.append_assoc] at heq
  obtain ⟨rfl, hmain, -⟩ | ⟨m, rfl, hmap⟩ := meaning_single (hop t op hcall) hm
  · simp [hf.2 hmain] at heq
  split
  · next hnil =>
    rw [hnil] at heq
    obtain ⟨rfl, -⟩ := List.cons.inj heq
    have halone := hmap a b he
    refine ⟨op, hcall, fun r' hr' => ?_, ?_⟩
    · rw [halone]
      exact hret r' hr'
    · rw [halone]
  · next hne =>
    obtain ⟨x, xs, hxs⟩ := List.exists_cons_of_ne_nil hne
    rw [hxs] at heq
    have hrest : xs ++ (e :: visible (eventsOf t l₂) ++ rest) = ev := (List.cons.inj heq).2
    have hmem : e ∈ ev := by simp [← hrest]
    obtain ⟨k, v, rfl⟩ := hf.1.2 e hmem
    obtain ⟨hk, rfl⟩ := he
    have hev : env.eviction.isSome := by
      rw [Option.isSome_iff_ne_none]
      exact fun hev => by simp [hf.1.1 hev] at hmem
    have hmaintains : maintains op := by
      by_contra hfalse
      simp [hf.2 (Bool.eq_false_iff.mpr hfalse)] at hmem
    exact ⟨k, hev, ⟨op, hcall, hmaintains⟩, by simp [hk], rfl⟩

/-- The events so far give an order of the calls that have taken effect. -/
theorem exists_placed (hop : ∀ t op, .call t op ∈ h → single op) {l₁ l₂ : List (Nat × Event K V)}
    (hl : lin = l₁ ++ l₂) {init b : Contents K V}
    (hreplay : Replay Event.effect init (l₁.map Prod.snd) b) :
    ∃ order, Placed env h init l₁ order b := by
  induction l₁ using List.reverseRecOn generalizing l₂ b with
  | nil => exact ⟨[], hreplay.nil_eq ▸ .nil, .nil, by simp, by simp⟩
  | append_singleton l₁ x ih =>
    obtain ⟨t, e⟩ := x
    rw [List.append_assoc, List.singleton_append] at hl
    rw [List.map_append] at hreplay
    obtain ⟨a, h₁, h₂⟩ := hreplay.of_append
    have he : e.effect a b := by
      cases h₂ with
      | cons he hnil => exact hnil.nil_eq ▸ he
    obtain ⟨order, hp⟩ := ih hl h₁
    have hnew : ∀ x ∈ order, ¬ Precedes h t x.task := by
      intro x hmem hprec
      obtain ⟨e', he'⟩ := hp.tasks x hmem
      obtain ⟨m₁, m₂, rfl⟩ := List.append_of_mem he'
      rw [List.append_assoc, List.cons_append] at hl
      exact hx.realtime t x.task hprec m₁ e' _ hl e (by simp)
    by_cases hv : e.isVisible
    · have heffect := effect_of_event hx hcut hop hl hv he
      split at heffect
      · next hnil => exact ⟨_, hp.snoc hnew hv (.inl ⟨hnil, rfl⟩) heffect⟩
      · next hne =>
        obtain ⟨k, hstep⟩ := heffect
        exact ⟨_, hp.snoc hnew hv (.inr ⟨hne, k, rfl⟩) hstep⟩
    · have heq : b = a := by cases e <;> first | exact he | simp [Event.isVisible] at hv
      exact ⟨order, heq ▸ hp.keep hv⟩

omit hcut in
/-- A call that returned without an event has no effect. -/
theorem effect_of_idle (hop : ∀ t op, .call t op ∈ h → single op) {t : Nat}
    (hret : ∃ r, .ret t r ∈ h) (hnil : visible (eventsOf t lin) = []) (a : Contents K V) :
    Effect.step env h (.call t) a a := by
  obtain ⟨r, hr⟩ := hret
  obtain ⟨op, hcall⟩ := call_of_ret hx hr
  obtain ⟨main, counts, ev, hm, -, hvis, -⟩ := hx.accepted hcall hr
  rw [hnil] at hvis
  obtain ⟨-, -, halone⟩ | ⟨e, rfl, -⟩ := meaning_single (hop t op hcall) hm
  · refine ⟨op, hcall, fun r' hr' => ?_, ?_⟩
    · rw [halone a]
      exact returned_once hx hr' hr
    · rw [halone a]
  · cases hvis

theorem exists_serial (hr : Run (semantics env L) (Sync.answer env) s₀ h c)
    (hop : ∀ t op, .call t op ∈ h → single op) :
    ∃ order, Serial env h a₀.contents order g.abs.contents := by
  classical
  obtain ⟨order, hp⟩ := exists_placed hx hcut hop (List.append_nil lin).symm
    (Event.replay_contents hx.legal)
  let idle := ((h.filterMap Label.returned?).dedup.filter fun t => visible (eventsOf t lin) = [])
  have hidle : ∀ t, t ∈ idle ↔ (∃ r, .ret t r ∈ h) ∧ visible (eventsOf t lin) = [] := by
    intro t
    rw [List.mem_filter, List.mem_dedup, mem_returned, decide_eq_true_eq]
  have hnodup : (idle.map Effect.call : List (Effect K)).Nodup :=
    ((List.nodup_dedup _).filter _).map fun _ _ => Effect.call.inj
  have hstill : ∀ x ∈ (idle.map Effect.call : List (Effect K)), ∀ a, Effect.step env h x a a := by
    intro x hmem a
    obtain ⟨t, ht, rfl⟩ := List.mem_map.mp hmem
    exact effect_of_idle hx hop ((hidle t).mp ht).1 ((hidle t).mp ht).2 a
  obtain ⟨order', hperm, htime', hlegal'⟩ := exists_filling
    (R := fun x y : Effect K => Precedes h x.task y.task) (fun x => hr.precedes_irrefl x.task)
    (fun _ _ _ => hr.precedes_trans) hstill hp.realtime hp.legal
  refine ⟨order', hlegal', fun t r hret => ?_, fun t => ?_, htime'⟩
  · rw [hperm.mem_iff, List.mem_append]
    by_cases hnil : visible (eventsOf t lin) = []
    · exact .inl (List.mem_map_of_mem ((hidle t).mpr ⟨⟨r, hret⟩, hnil⟩))
    · refine .inr (List.count_pos_iff.mp ?_)
      simp [hp.count, hnil]
  · rw [hperm.count_eq, List.count_append, hp.count]
    split
    · exact List.nodup_iff_count_le_one.mp hnodup _
    · next hne =>
      have hnot : .call t ∉ (idle.map Effect.call : List (Effect K)) := by
        simp [hidle, hne]
      simp [List.count_eq_zero_of_not_mem hnot]

end Explained

/-- What a call finds at its place, answers from it, and leaves to the calls after it. -/
theorem Serial.at_call {init final : Contents K V} {order l₁ l₂ : List (Effect K)}
    (hs : Serial env h init order final)
    (hx : (protocol env L False).Explained (Begins env) (Explains env) a₀ h c g lin) {t : Nat}
    {op : Sync.Op K V} (hcall : .call t op ∈ h) (heq : order = l₁ ++ .call t :: l₂) :
    ∃ b, Replay (Effect.step env h) init l₁ b ∧
      (∀ r, .ret t r ∈ h → r = (onMap env.valueEq op b).1) ∧
      Replay (Effect.step env h) b [.call t] (onMap env.valueEq op b).2 ∧
      Replay (Effect.step env h) (onMap env.valueEq op b).2 l₂ final := by
  have hlegal := hs.legal
  rw [heq] at hlegal
  obtain ⟨b, h₁, h₂⟩ := hlegal.of_append
  cases h₂ with
  | cons hstep hrest =>
    obtain ⟨op', hcall', hret, rfl⟩ := id hstep
    obtain rfl := called_once hx hcall hcall'
    exact ⟨b, h₁, hret, .single hstep, hrest⟩

variable (env h) (init : Contents K V) (order : List (Effect K)) (final : Contents K V)

/-- A lookup finds its key if and only if the key is present where the lookup takes effect. -/
def LookupsFind : Prop :=
  ∀ t k r l₁ l₂, .call t (.get k) ∈ h ∨ .call t (.contains k) ∈ h → .ret t r ∈ h →
    order = l₁ ++ .call t :: l₂ →
    ∃ b, Replay (Effect.step env h) init l₁ b ∧ (found r ↔ (b k).isSome)

/-- Where two calls have run their initializer for a key, the key was present after the first
and absent again before the second. -/
def InitializesOnce : Prop :=
  ∀ t u k f f' v v' l₁ l₂ l₃, .call t (.getOrInsertWith k f) ∈ h → .ret t (.entry v true) ∈ h →
    .call u (.getOrInsertWith k f') ∈ h → .ret u (.entry v' true) ∈ h →
    order = l₁ ++ .call t :: l₂ ++ .call u :: l₃ →
    ∃ a b, Replay (Effect.step env h) init (l₁ ++ [.call t]) a ∧ (a k).isSome ∧
      Replay (Effect.step env h) a l₂ b ∧ b k = none

/-- An update that was reported is one of the value that the calls before it left, and the
calls after it start from the updated value. -/
def UpdatesKept : Prop :=
  ∀ t k f w l₁ l₂, .call t (.computeIfPresent k f) ∈ h → .ret t (.value (some w)) ∈ h →
    order = l₁ ++ .call t :: l₂ →
    ∃ b v, Replay (Effect.step env h) init l₁ b ∧ b k = some v ∧ f v = some w ∧
      Replay (Effect.step env h) (update b k (some w)) l₂ final

variable {env h init order final}

section Consequences

variable (hs : Serial env h init order final)
  (hx : (protocol env L False).Explained (Begins env) (Explains env) a₀ h c g lin)

include hs hx

theorem Serial.lookups_find : LookupsFind env h init order := by
  intro t k r l₁ l₂ hcall hret heq
  rcases hcall with hcall | hcall
  · obtain ⟨b, h₁, hanswer, -⟩ := hs.at_call hx hcall heq
    exact ⟨b, h₁, by simp [hanswer r hret, onMap, found]⟩
  · obtain ⟨b, h₁, hanswer, -⟩ := hs.at_call hx hcall heq
    exact ⟨b, h₁, by simp [hanswer r hret, onMap, found]⟩

theorem Serial.initializes_once : InitializesOnce env h init order := by
  intro t u k f f' v v' l₁ l₂ l₃ hcall hret hcall' hret' heq
  rw [List.append_assoc, List.cons_append] at heq
  obtain ⟨a, h₁, hanswer, hstep, hrest⟩ := hs.at_call hx hcall heq
  obtain ⟨b, h₂, h₃⟩ := hrest.of_append
  have hfirst := hanswer _ hret
  cases hk : a k with
  | some x => simp [onMap, hk] at hfirst
  | none =>
    refine ⟨_, b, h₁.append hstep, by simp [onMap, hk], h₂, ?_⟩
    cases h₃ with
    | cons hstep' _ =>
      obtain ⟨op, hop, hanswer', -⟩ := hstep'
      obtain rfl := called_once hx hcall' hop
      have hsecond := hanswer' _ hret'
      cases hb : b k with
      | some x => simp [onMap, hb] at hsecond
      | none => rfl

theorem Serial.updates_kept : UpdatesKept env h init order final := by
  intro t k f w l₁ l₂ hcall hret heq
  obtain ⟨b, h₁, hanswer, -, hrest⟩ := hs.at_call hx hcall heq
  have hw := hanswer _ hret
  cases hk : b k with
  | none => simp [onMap, hk] at hw
  | some v =>
    have hf : f v = some w := by simpa [onMap, hk, eq_comm] using hw
    refine ⟨b, v, h₁, hk, hf, ?_⟩
    simpa [onMap, hk, hf] using hrest

end Consequences

/-- In every interleaving of calls on single keys, `clear` and both kinds of rebalance the
completed calls have a sequential order that keeps real time and in which they behave as on
one finite map. -/
theorem single_keys_linearizable (hsync : env.awaits = false) {count : Nat} (hcount : 0 < count)
    {life : L.State}
    (hs : Reachable (semantics env L) (Sync.answer env) (State.new K V count life) s₀)
    (hr : Run (semantics env L) (Sync.answer env) s₀ h c) (hcut : ∀ t, .cut t ∉ h)
    (hop : ∀ t op, .call t op ∈ h → single op) :
    ∃ order final, Serial env h (s₀.contents env.hash) order final ∧
      (c.Quiescent → c.shared.contents env.hash = final) ∧
      LookupsFind env h (s₀.contents env.hash) order ∧
      InitializesOnce env h (s₀.contents env.hash) order ∧
      UpdatesKept env h (s₀.contents env.hash) order final := by
  obtain ⟨a₀, ha⟩ := rests_of_reachable hsync (Rests.new hcount life) hs
  obtain ⟨g, lin, hx⟩ := explained hsync ha hr
  obtain ⟨order, horder⟩ := exists_serial hx hcut hr hop
  rw [ha.contents] at horder
  refine ⟨order, g.abs.contents, horder, fun hq => ?_, horder.lookups_find hx,
    horder.initializes_once hx, horder.updates_kept hx⟩
  have hinv : Inv env.hash c.shared c.guards g := hx.inv
  rw [hx.guards_nil hq] at hinv
  exact (Rests.of_inv hinv).contents.symm

section Example

/-- On a map in migration two calls update a key, two race to initialize another, one swaps a
value that another inserts while it is looked up, one migrates a shard, and one clears the map
while a key is removed. -/
def bustle : List (Turn (Sync.Op Nat Nat)) :=
  [.call 0 (.computeIfPresent 1 fun v => some (v + 1)),
    .call 1 (.computeIfPresent 1 fun v => some (v + 1)), .call 2 (.compareAndSwap 2 8 7),
    .call 3 (.compareAndRemove 1 4), .call 4 (.advanceRebalance 20 1),
    .call 5 (.getOrInsertWith 9 fun _ => 4), .call 6 (.getOrInsertWith 9 fun _ => 4),
    .call 7 (.get 2), .call 8 (.insert 2 8), .go 8 3, .go 5 4, .go 2 3, .go 6 20, .go 0 6,
    .go 7 8, .go 1 20, .go 5 20, .go 8 40, .go 4 400, .go 0 100, .go 6 100, .go 1 100,
    .go 5 100, .go 8 100, .go 7 100, .go 8 100, .go 2 100, .call 9 .clear, .go 3 6, .go 9 5,
    .go 4 400, .go 3 100, .go 4 400, .go 9 400]

def bustleAnswers : List (Answer Nat Nat) :=
  [.value (some 3), .value (some 4), .swap (.success 7), .flag true, .done, .entry 4 false,
    .entry 4 true, .value (some 5), .value (some 5), .done]

theorem bustle_ends : cachingMap.ends bustleAnswers
    (cachingMap.follow (Sync.answer cachingEnv) bustle ([], .start _ _ _ halfway.2.shared)).2 := by
  decide +kernel

end Example

theorem single_keys_linearizable_bustle :
    ∃ (h : List (Label (Sync.Op Nat Nat) (Answer Nat Nat)))
      (c : Config (semantics cachingEnv plainLifecycle) (Sync.Op Nat Nat) (Answer Nat Nat))
      (order : List (Effect Nat)) (final : Contents Nat Nat),
      Run (semantics cachingEnv plainLifecycle) (Sync.answer cachingEnv) halfway.2.shared h c ∧
        (∀ t op, .call t op ∈ h → .call t op ∈ bustle) ∧
        (∀ t r, bustleAnswers[t]? = some r → .ret t r ∈ h) ∧
        Serial cachingEnv h (halfway.2.shared.contents cachingEnv.hash) order final ∧
        c.shared.contents cachingEnv.hash = final ∧
        LookupsFind cachingEnv h (halfway.2.shared.contents cachingEnv.hash) order ∧
        InitializesOnce cachingEnv h (halfway.2.shared.contents cachingEnv.hash) order ∧
        UpdatesKept cachingEnv h (halfway.2.shared.contents cachingEnv.hash) order final := by
  obtain ⟨tr, hf, he, hcall, hcut⟩ := cachingMap.exists_follows bustle _ bustle_ends
  obtain ⟨hq, hanswer⟩ := hf.ended he
  have huncut : ∀ t, .cut t ∉ tr.1 := fun t hc => by simpa [bustle] using hcut t hc
  have hop : ∀ t op, .call t op ∈ tr.1 → single op := fun t op hc => by
    have hmem := hcall t op hc
    simp only [bustle, List.mem_cons, Turn.call.injEq, List.not_mem_nil, reduceCtorEq,
      or_false, false_or] at hmem
    rcases hmem with ⟨-, rfl⟩ | ⟨-, rfl⟩ | ⟨-, rfl⟩ | ⟨-, rfl⟩ | ⟨-, rfl⟩ | ⟨-, rfl⟩ | ⟨-, rfl⟩ |
      ⟨-, rfl⟩ | ⟨-, rfl⟩ | ⟨-, rfl⟩ <;> rfl
  obtain ⟨order, final, hserial, hend, hfound, honce, hkept⟩ :=
    single_keys_linearizable rfl Nat.two_pos halfway_reachable hf.run huncut hop
  exact ⟨tr.1, tr.2, order, final, hf.run, hcall, hanswer, hserial, hend hq, hfound, honce, hkept⟩

end Starshard
