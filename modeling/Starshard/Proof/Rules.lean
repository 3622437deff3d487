import Starshard.Proof.Protocol

/-! Rules for the actions that leave the topology and the tables alone. -/
namespace Starshard

open Data Concurrent
open Function (update)

variable {K V : Type} [DecidableEq K] {env : Env K V} {L : Lifecycle K V} {alone : Prop}
  {v : View K V L.State}

variable {t : Nat} {G : Nat → Guards K V} {s s' : State K V L.State} {g g' : Ghost K V}

abbrev holds (env : Env K V) (L : Lifecycle K V) (alone : Prop) (t : Nat)
    (v : View K V L.State) (s : State K V L.State) (G : Nat → Guards K V) (g : Ghost K V) : Prop :=
  (protocol env L alone).Holds t v s G g

theorem moves_of {gs : Guards K V} {v' : View K V L.State}
    (hinv : Inv env.hash s' (update G t gs) g') (hgs : v'.gs = gs)
    (hcons : v'.Consistent env.hash alone s' g')
    (hothers : ∀ u, u ≠ t → ∀ w : View K V L.State, w.gs = G u →
      w.Consistent env.hash alone s g →
      Agree env.hash (G u) ⟨s, g.abs.contents, g.acc⟩ ⟨s', g'.abs.contents, g'.acc⟩)
    (hlabels : g'.abs.labels = g.abs.labels) (hpub : s.published ≤ s'.published)
    (hspec : v'.spec = v.spec) {es : List (Event K V)} (hes : v'.evs = v.evs ++ es)
    (hrep : Replay Event.stepWrapping g.abs es g'.abs) :
    (protocol env L alone).Moves t G s g v s' gs g' v' where
  guards := hgs
  spec := hspec
  inv := hinv
  cons := hcons
  others ha u hu w hw hc := by
    have hw : w.gs = G u := hw
    have hc : w.Consistent env.hash alone s g := hc
    refine ⟨hc.agree.trans (hw ▸ hothers u hu w hw hc), fun hf => ⟨(hc.fresh hf).1, ?_⟩, ?_,
      hc.rooted, fun h => absurd h ha, hc.meets⟩
    · intro e d he
      rw [hlabels] at he
      exact lt_of_lt_of_le ((hc.fresh hf).2 e d he) hpub
    · rw [hlabels]
      exact hc.known
  effect := ⟨es, hes, hrep⟩

theorem moves_local (hv : holds env L alone t v s G g) {gs : Guards K V}
    (hg : SameLocks v.gs gs) :
    (protocol env L alone).Moves t G s g v s gs g { v with gs := gs } := by
  have hgt : G t = v.gs := hv.guards
  have hc : v.Consistent env.hash alone s g := hv.cons
  refine moves_of (hv.inv.sameLocks (hgt ▸ hg)) rfl ?_ (fun u _ _ _ _ => .refl _ _) rfl le_rfl rfl
    (List.append_nil _).symm .nil
  refine ⟨hc.agree.mono fun l m => (hg l m).mp, fun hf => ⟨?_, (hc.fresh hf).2⟩, hc.known,
    fun hp id ho => hc.rooted (hg.pinned.mp hp) id ((hg.owns _).mp ho), hc.alone, hc.meets⟩
  rcases (hc.fresh hf).1 with hx | ⟨hp, i, id, hi, ho⟩
  · exact .inl (hg.exclusive.mpr hx)
  · exact .inr ⟨hg.pinned.mpr hp, i, id, hi, (hg.ownsExcl _).mpr ho⟩

theorem moves_refl (hv : holds env L alone t v s G g) :
    (protocol env L alone).Moves t G s g v s v.gs g v := moves_local hv (.refl _)

/-- Rules for actions that change neither the state nor the locks. -/
theorem rule_static {a : Act K V} {Φ : Resp a → View K V L.State → Prop} {gs : Guards K V}
    (hg : SameLocks v.gs gs)
    (hen : ∀ t G s g, holds env L alone t v s G g → ∃ r, exec L G t a s r s gs)
    (hΦ : ∀ t G s g, holds env L alone t v s G g → ∀ r s' gs', exec L G t a s r s' gs' →
      s' = s ∧ gs' = gs ∧ Φ r { v with gs := gs }) :
    (protocol env L alone).Rule a v Φ := by
  intro t s G g hv
  refine ⟨.inr ?_, fun r s' gs' he => ?_⟩
  · obtain ⟨r, hr⟩ := hen t G s g hv
    exact ⟨r, s, gs, hr⟩
  · obtain ⟨rfl, rfl, hr⟩ := hΦ t G s g hv r s' gs' he
    exact ⟨g, _, moves_local hv hg, hr⟩

theorem holds_guards (hv : holds env L alone t v s G g) : G t = v.gs := hv.guards

theorem holds_agree (hv : holds env L alone t v s G g) :
    Agree env.hash v.gs v.toWorld ⟨s, g.abs.contents, g.acc⟩ := hv.cons.agree

theorem holds_alone (hv : holds env L alone t v s G g) (ha : alone) :
    v.st = s ∧ v.abs = g.abs.contents ∧ v.acc = g.acc := hv.cons.alone ha

theorem holds_inv (hv : holds env L alone t v s G g) : Inv env.hash s G g := hv.inv

theorem holds_exclusive (hv : holds env L alone t v s G g) (hx : Exclusive v.gs) :
    State.SameCore v.st s := ((holds_agree hv).exclusive hx).1

section Static

theorem rule_user {Φ : Unit → View K V L.State → Prop} (h : Φ () v) :
    (protocol env L alone).Rule .user v Φ :=
  rule_static (.refl _) (fun _ _ _ _ hv => ⟨(), rfl, (holds_guards hv).symm⟩)
    fun _ _ _ _ hv _ _ _ he => ⟨he.1, he.2.trans (holds_guards hv), h⟩

theorem rule_clock {Φ : Nat → View K V L.State → Prop} (h : ∀ n, Φ n v) :
    (protocol env L alone).Rule .clock v Φ :=
  rule_static (.refl _) (fun _ _ _ _ hv => ⟨(0 : Nat), rfl, (holds_guards hv).symm⟩)
    fun _ _ _ _ hv r _ _ he => ⟨he.1, he.2.trans (holds_guards hv), h r⟩

theorem rule_cancelled {Φ : Bool → View K V L.State → Prop} (h : ∀ b, Φ b v) :
    (protocol env L alone).Rule .cancelled v Φ :=
  rule_static (.refl _) (fun _ _ _ _ hv => ⟨false, rfl, (holds_guards hv).symm⟩)
    fun _ _ _ _ hv r _ _ he => ⟨he.1, he.2.trans (holds_guards hv), h r⟩

theorem rule_arrange {l : List Nat} {Φ : List Nat → View K V L.State → Prop}
    (h : ∀ l', l'.Perm l → Φ l' v) : (protocol env L alone).Rule (.arrange l) v Φ :=
  rule_static (.refl _) (fun _ _ _ _ hv => ⟨l, .refl _, rfl, (holds_guards hv).symm⟩)
    fun _ _ _ _ hv r _ _ he => ⟨he.2.1, he.2.2.trans (holds_guards hv), h r he.1⟩

theorem rule_push {x : Guard K V} (hx : x.isLocal) {Φ : Unit → View K V L.State → Prop}
    (h : Φ () { v with gs := x :: v.gs }) : (protocol env L alone).Rule (.push x) v Φ :=
  rule_static (.cons hx) (fun _ _ _ _ hv => ⟨(), rfl, by rw [holds_guards hv]⟩)
    fun _ _ _ _ hv _ _ _ he => ⟨he.1, he.2.trans (by rw [holds_guards hv]), h⟩

theorem rule_pop {x : Guard K V} {gs : Guards K V} (hgs : v.gs = x :: gs) (hx : x.isLocal)
    {Φ : Unit → View K V L.State → Prop} (h : Φ () { v with gs := gs }) :
    (protocol env L alone).Rule .pop v Φ := by
  have hsame : SameLocks v.gs gs := by
    intro l m
    rw [hgs]
    exact ((SameLocks.cons hx) l m).symm
  refine rule_static hsame (fun _ _ _ _ hv => ⟨(), rfl, ?_⟩)
    fun _ _ _ _ hv _ _ _ he => ⟨he.1, he.2.trans ?_, h⟩
  · rw [holds_guards hv, hgs]
    rfl
  · rw [holds_guards hv, hgs]
    rfl

theorem rule_mark {id : Nat} {Φ : Unit → View K V L.State → Prop}
    (h : Φ () { v with gs := v.gs.map (Guard.mark id) }) :
    (protocol env L alone).Rule (.mark id) v Φ := by
  refine rule_static (.map ?_ fun _ _ => rfl) (fun _ _ _ _ hv => ⟨(), rfl, ?_⟩)
    fun _ _ _ _ hv _ _ _ he => ⟨he.1, he.2.trans ?_, h⟩
  · intro x hx
    cases x <;> exact hx
  · rw [holds_guards hv]
  · rw [holds_guards hv]

theorem rule_retire {k : K} {x : V} {Φ : Unit → View K V L.State → Prop}
    (h : Φ () { v with gs := v.gs.map (Guard.retire k x) }) :
    (protocol env L alone).Rule (.retire k x) v Φ := by
  refine rule_static (.map ?_ fun _ _ => rfl) (fun _ _ _ _ hv => ⟨(), rfl, ?_⟩)
    fun _ _ _ _ hv _ _ _ he => ⟨he.1, he.2.trans ?_, h⟩
  · intro y hy
    cases y <;> exact hy
  · rw [holds_guards hv]
  · rw [holds_guards hv]

theorem rule_opened {id : Nat} {m : Nat × Bool} (hm : Guard.opened v.gs id = some m)
    {Φ : Nat × Bool → View K V L.State → Prop} (h : Φ m v) :
    (protocol env L alone).Rule (.opened id) v Φ := by
  refine rule_static (.refl _) (fun _ _ _ _ hv => ⟨m, ?_, rfl, (holds_guards hv).symm⟩)
    fun _ _ _ _ hv r _ _ he => ⟨he.2.1, he.2.2.trans (holds_guards hv), ?_⟩
  · rw [holds_guards hv]
    exact hm
  · have hr : Guard.opened _ id = some r := he.1
    rw [holds_guards hv, hm] at hr
    cases hr
    exact h

/-- The directory of a task that owns it, or that owns routing exclusively. -/
theorem rule_shards (hd : Exclusive v.gs ∨ (Owns v.gs .routing ∧ Owns v.gs .active))
    {Φ : Slots → View K V L.State → Prop} (h : Φ v.st.shards v) :
    (protocol env L alone).Rule .shards v Φ := by
  refine rule_static (.refl _) (fun _ _ s _ hv => ⟨s.shards, rfl, rfl, (holds_guards hv).symm⟩)
    fun _ _ s _ hv r _ _ he => ⟨he.2.1, he.2.2.trans (holds_guards hv), ?_⟩
  have hr : r = v.st.shards := by
    rcases hd with hx | ⟨hr, ha⟩
    · exact he.1.trans (holds_exclusive hv hx).shards
    · exact he.1.trans ((holds_agree hv).active hr ha)
  exact hr ▸ h

theorem rule_previous (hd : Owns v.gs .routing) {Φ : Option Slots → View K V L.State → Prop}
    (h : Φ v.st.previous v) : (protocol env L alone).Rule .previous v Φ := by
  refine rule_static (.refl _) (fun _ _ s _ hv => ⟨s.previous, rfl, rfl, (holds_guards hv).symm⟩)
    fun _ _ s _ hv r _ _ he => ⟨he.2.1, he.2.2.trans (holds_guards hv), ?_⟩
  have hr : r = v.st.previous := he.1.trans ((holds_agree hv).previous hd)
  exact hr ▸ h

theorem rule_shardCount (hd : Owns v.gs .routing) {Φ : Nat → View K V L.State → Prop}
    (h : Φ v.st.shardCount v) : (protocol env L alone).Rule .shardCount v Φ := by
  refine rule_static (.refl _) (fun _ _ s _ hv => ⟨s.shardCount, rfl, rfl, (holds_guards hv).symm⟩)
    fun _ _ s _ hv r _ _ he => ⟨he.2.1, he.2.2.trans (holds_guards hv), ?_⟩
  have hr : r = v.st.shardCount := he.1.trans ((holds_agree hv).shardCount hd)
  exact hr ▸ h

theorem rule_previousShardCount (hd : Owns v.gs .routing) {Φ : Nat → View K V L.State → Prop}
    (h : Φ v.st.previousShardCount v) :
    (protocol env L alone).Rule .previousShardCount v Φ := by
  refine rule_static (.refl _)
    (fun _ _ s _ hv => ⟨s.previousShardCount, rfl, rfl, (holds_guards hv).symm⟩)
    fun _ _ s _ hv r _ _ he => ⟨he.2.1, he.2.2.trans (holds_guards hv), ?_⟩
  have hr : r = v.st.previousShardCount := he.1.trans ((holds_agree hv).previousShardCount hd)
  exact hr ▸ h

theorem holds_heap (hv : holds env L alone t v s G g) {id : Nat}
    (hd : Exclusive v.gs ∨ Owns v.gs (.shard id)) : s.heap id = v.st.heap id := by
  rcases hd with hx | ho
  · rw [(holds_exclusive hv hx).heap]
  · exact (holds_agree hv).heap id ho

theorem rule_get {id : Nat} {k : K} (hd : Exclusive v.gs ∨ Owns v.gs (.shard id))
    {Φ : Option V → View K V L.State → Prop} (h : Φ ((v.st.heap id).lookup k) v) :
    (protocol env L alone).Rule (.get id k) v Φ := by
  refine rule_static (.refl _)
    (fun _ _ s _ hv => ⟨(s.heap id).lookup k, rfl, rfl, (holds_guards hv).symm⟩)
    fun _ _ s _ hv r _ _ he => ⟨he.2.1, he.2.2.trans (holds_guards hv), ?_⟩
  have hr : r = (v.st.heap id).lookup k := he.1.trans (by rw [holds_heap hv hd])
  exact hr ▸ h

theorem rule_len {id : Nat} (hd : Exclusive v.gs ∨ Owns v.gs (.shard id))
    {Φ : Nat → View K V L.State → Prop} (h : Φ (v.st.heap id).size v) :
    (protocol env L alone).Rule (.len id) v Φ := by
  refine rule_static (.refl _)
    (fun _ _ s _ hv => ⟨(s.heap id).size, rfl, rfl, (holds_guards hv).symm⟩)
    fun _ _ s _ hv r _ _ he => ⟨he.2.1, he.2.2.trans (holds_guards hv), ?_⟩
  have hr : r = (v.st.heap id).size := he.1.trans (by rw [holds_heap hv hd])
  exact hr ▸ h

theorem rule_entries {id : Nat} (hd : Exclusive v.gs ∨ Owns v.gs (.shard id))
    {Φ : List (K × V) → View K V L.State → Prop}
    (h : ∀ l : List (K × V), l.Perm (v.st.heap id).items → Φ l v) :
    (protocol env L alone).Rule (.entries id) v Φ := by
  refine rule_static (.refl _)
    (fun _ _ s _ hv => ⟨(s.heap id).items, .refl _, rfl, (holds_guards hv).symm⟩)
    fun _ _ s _ hv r _ _ he => ⟨he.2.1, he.2.2.trans (holds_guards hv), h r ?_⟩
  rw [← holds_heap hv hd]
  exact he.1

theorem rule_totalLen {Φ : Nat → View K V L.State → Prop}
    (h : ∀ n, (Exclusive v.gs ∨ alone → n = v.st.totalLen) → Φ n v) :
    (protocol env L alone).Rule .totalLen v Φ := by
  refine rule_static (.refl _) (fun _ _ s _ hv => ⟨s.totalLen, rfl, rfl, (holds_guards hv).symm⟩)
    fun _ _ s _ hv r _ _ he => ⟨he.2.1, he.2.2.trans (holds_guards hv), h r fun hd => ?_⟩
  rcases hd with hx | ha
  · exact he.1.trans (holds_exclusive hv hx).totalLen
  · exact he.1.trans (congrArg State.totalLen (holds_alone hv ha).1).symm

end Static

theorem moves_frame (hv : holds env L alone t v s G g) (hs : State.SameCore s s')
    (hcache : s'.cache = s.cache) (hmet : s'.metrics = s.metrics) {st : State K V L.State}
    (hst : State.SameCore v.st st) (heq : v.st = s → st = s') :
    (protocol env L alone).Moves t G s g v s' v.gs g { v with st := st } := by
  have hc : v.Consistent env.hash alone s g := hv.cons
  have hupd : update G t v.gs = G := by rw [← holds_guards hv, Function.update_eq_self]
  refine moves_of ?_ rfl ?_ ?_ rfl (Nat.le_of_eq hs.published.symm) rfl
    (List.append_nil _).symm .nil
  · rw [hupd]
    exact hv.inv.sameCore hs hcache hmet
  · refine ⟨?_, fun hf => ⟨?_, ?_⟩, hc.known, fun hp id ho => ?_, fun ha => ?_, hc.meets⟩
    · have h₁ : Agree env.hash v.gs { v with st := st }.toWorld v.toWorld :=
        .of_sameCore hst.symm rfl rfl
      have h₂ : Agree env.hash v.gs ⟨s, g.abs.contents, g.acc⟩ ⟨s', g.abs.contents, g.acc⟩ :=
        .of_sameCore hs rfl rfl
      exact (h₁.trans hc.agree).trans h₂
    · rcases (hc.fresh hf).1 with hx | ⟨hp, i, id, hi, ho⟩
      · exact .inl hx
      · exact .inr ⟨hp, i, id, hst.shards ▸ hi, ho⟩
    · rw [hs.published]
      exact (hc.fresh hf).2
    · rw [hst.tables.live]
      exact hc.rooted hp id ho
    · obtain ⟨hst, hw⟩ := holds_alone hv ha
      exact ⟨heq hst, hw⟩
  · intro u _ _ _ _
    exact .of_sameCore hs rfl rfl

theorem rule_frame {a : Act K V} {Φ : Resp a → View K V L.State → Prop}
    (hen : ∀ t G s g, holds env L alone t v s G g → ∃ r s', exec L G t a s r s' (G t))
    (hΦ : ∀ t G s g, holds env L alone t v s G g → ∀ r s' gs, exec L G t a s r s' gs →
      gs = G t ∧ State.SameCore s s' ∧ s'.cache = s.cache ∧ s'.metrics = s.metrics ∧
      ∃ st, State.SameCore v.st st ∧ (v.st = s → st = s') ∧ Φ r { v with st := st }) :
    (protocol env L alone).Rule a v Φ := by
  intro t s G g hv
  refine ⟨.inr ?_, fun r s' gs he => ?_⟩
  · obtain ⟨r, s', hr⟩ := hen t G s g hv
    exact ⟨r, s', _, hr⟩
  · obtain ⟨rfl, hs, hcache, hmet, st, hst, heq, hr⟩ := hΦ t G s g hv r s' gs he
    have hG : G t = v.gs := holds_guards hv
    rw [hG]
    exact ⟨g, _, moves_frame hv hs hcache hmet hst heq, hr⟩

section Frame

omit [DecidableEq K] in
theorem sameCore_life (st : State K V L.State) (e : L.State) :
    State.SameCore st { st with life := e } := ⟨rfl, rfl, rfl, rfl, rfl, rfl, rfl, rfl, rfl⟩

theorem rule_life {c : LifeCall K V} {Φ : c.Reply → View K V L.State → Prop}
    (h : ∀ r e, Φ r { v with st := { v.st with life := e } }) :
    (protocol env L alone).Rule (.life c) v Φ := by
  refine rule_frame (fun t G s g hv => ?_) fun t G s g hv r s' gs he => ?_
  · obtain ⟨r, e, he⟩ := L.total c s.life
    exact ⟨r, _, ⟨e, he, rfl⟩, rfl⟩
  · obtain ⟨⟨e, _, rfl⟩, hgs⟩ := he
    exact ⟨hgs, sameCore_life _ _, rfl, rfl, _, sameCore_life _ e, fun h => by rw [h], h r e⟩

/-- Tracker methods that do not touch the layout need no guard. -/
theorem rule_tracker {f : Progress → Progress} (hf : ∀ p, (f p).layout = p.layout)
    {Φ : Progress → View K V L.State → Prop}
    (h : ∀ p, (Owns v.gs .routing → p.layout = v.st.tracker.layout) →
      (alone → p = v.st.tracker) →
      Φ p { v with st := { v.st with tracker := f v.st.tracker } }) :
    (protocol env L alone).Rule (.tracker f) v Φ := by
  refine rule_frame (fun t G s g hv => ⟨s.tracker, _, rfl, rfl, rfl⟩)
    fun t G s g hv r s' gs he => ?_
  obtain ⟨hr, rfl, hgs⟩ := he
  have hr : r = s.tracker := hr
  subst hr
  refine ⟨hgs, ⟨rfl, rfl, rfl, rfl, rfl, rfl, rfl, rfl, hf _⟩, rfl, rfl,
    { v.st with tracker := f v.st.tracker },
    ⟨rfl, rfl, rfl, rfl, rfl, rfl, rfl, rfl, hf _⟩, fun h => by rw [h], h _ ?_ ?_⟩
  · exact (holds_agree hv).layout
  · intro ha
    exact (congrArg State.tracker (holds_alone hv ha).1).symm

end Frame

end Starshard
