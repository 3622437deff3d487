import Starshard.Proof.Settled

/-! Closing an open mutation, and leaving all scopes of a call that ended early. -/
namespace Starshard

open Data Concurrent
open Function (update)

variable {K V : Type} [DecidableEq K] {env : Env K V} {L : Lifecycle K V} {alone : Prop}
  {v v' : View K V L.State}

/-- The action cannot be the last one of its call. -/
def Act.isQuiet : Act K V → Bool
  | .user | .lock _ _ | .yield | .put _ _ _ | .life _ => false
  | _ => true

theorem not_cut_of_quiet {a : Act K V} (h : a.isQuiet) {s s' : State K V L.State} :
    ¬ cut env L a s s' := by
  cases a <;> first | exact id | cases h

theorem wp_quiet {α : Type} {a : Act K V} {f : Resp a → Prog K V α}
    {Φ : α → View K V L.State → Prop} (hq : a.isQuiet)
    (h : (protocol env L alone).Rule a v fun r v' => (protocol env L alone).Wp (f r) v' Φ) :
    (protocol env L alone).Wp (act a >>= f) v Φ :=
  ⟨fun _ _ _ _ _ _ hc => absurd hc (not_cut_of_quiet hq), h⟩

theorem wp_last {a : Act K V} {Φ : Resp a → View K V L.State → Prop}
    (h : (protocol env L alone).Wp (act a >>= Program.done) v Φ) :
    (protocol env L alone).Wp (act a) v Φ := h

section Mutation

variable {id n : Nat} {c : Bool} {gs : Guards K V}

/-- The open mutation has something to publish. -/
def dirty (v : View K V L.State) (id n : Nat) (c : Bool) : Bool :=
  c || decide ((v.st.heap id).size ≠ n)

structure Dropped (env : Env K V) (v : View K V L.State) (gs : Guards K V) (dirty : Bool)
    (v' : View K V L.State) : Prop where
  settled : Settled env.hash v'
  guards : v'.gs = gs
  tables : State.SameTables v.st v'.st
  abs : v'.abs = v.abs
  spec : v'.spec = v.spec
  evs : v'.evs = v.evs ++ if dirty then [Event.publish] else []

theorem Settled.close (hs : Settled env.hash v) (hgs : v.gs = .mutation id n c :: gs)
    (htab : State.SameTables v.st v'.st) (habs : v'.abs = v.abs) (hg : v'.gs = gs)
    (hacc : v'.acc = update v.acc id (v.st.heap id).size) (hf : v.fresh → v'.fresh)
    (hd : dirty v id n c → v'.fresh) : Settled env.hash v' := by
  have hord := hs.ordered
  rw [hgs] at hord
  obtain ⟨hown, hpin, hclosed, hord⟩ := hord
  have hlocks : SameLocks v.gs gs := by
    rw [hgs]
    exact fun l m => ((SameLocks.cons rfl) l m).symm
  have hx : ¬ Exclusive v'.gs := fun hx =>
    hs.single (hlocks.pinned.mp hpin) (hlocks.exclusive.mp (hg ▸ hx))
  refine ⟨hg ▸ hord, fun l hl ho => ?_, fun _ => hx, fun hr => ?_, fun h => absurd h hx,
    fun h => absurd h hx, fun hp id' ho hm => ?_, fun id' m hm => ?_, fun hp k hk => ?_⟩
  · rw [hg] at ho ⊢
    exact (hlocks.owns _).mpr (hs.inner l hl ((hlocks.owns _).mp ho))
  · rw [hg] at hr
    exact htab.wellFormed (hs.wellFormed ((hlocks.owns _).mp hr))
  · rw [hg] at hp ho
    rw [hacc, htab.heap]
    by_cases hid : id' = id
    · subst hid
      exact Function.update_self _ _ _
    · rw [Function.update_of_ne hid]
      refine hs.acc (hlocks.pinned.mp hp) id' ((hlocks.owns _).mp ho) ?_
      rw [hgs, Guard.opened_mutation, if_neg (Ne.symm hid)]
      exact hclosed id'
  · rw [hg, hclosed id'] at hm
    cases hm
  · rw [hg] at hp
    have hk' : Reads env.hash v.gs v.st k := by
      refine (Reads.congr hlocks).mp ?_
      rw [← hg]
      unfold Reads at hk ⊢
      rwa [htab.home] at hk
    rw [habs, htab.contents]
    refine (hs.keys (hlocks.pinned.mp hp) k hk').imp_right fun ⟨hw, hdirty⟩ => ⟨?_, .inl ?_⟩
    · rw [hg]
      refine (Writes.congr hlocks).mpr ?_
      unfold Writes at hw ⊢
      rwa [htab.home]
    · rcases hdirty with h | ⟨id', m, hhome, hm, hd'⟩
      · exact hf h
      · rw [hgs, Guard.opened_mutation] at hm
        split at hm
        · next heq =>
          cases hm
          subst heq
          refine hd ?_
          simpa [dirty] using hd'
        · rw [hclosed id'] at hm
          cases hm

theorem wp_drop (hs : Settled env.hash v) (hgs : v.gs = .mutation id n c :: gs) :
    (protocol env L alone).Wp (ShardMutation.drop id) v fun _ v' =>
      Dropped env v gs (dirty v id n c) v' := by
  have hord := hs.ordered
  rw [hgs] at hord
  obtain ⟨hown, hpin, hclosed, -⟩ := hord
  have hopen : Guard.opened v.gs id = some (n, c) := by
    rw [hgs, Guard.opened_mutation, if_pos rfl]
  obtain ⟨hacc, hactive⟩ := hs.mutation id _ hopen
  have hacc : v.acc id = n := hacc
  have hown' : OwnsExcl v.gs (.shard id) := hgs ▸ List.mem_cons_of_mem _ hown
  have hpin' : Pinned v.gs := hgs ▸ List.mem_cons_of_mem _ hpin
  -- once the length is accounted for, at most the epoch is left to publish
  have tail : ∀ v₁ : View K V L.State, State.SameTables v.st v₁.st → v₁.gs = v.gs →
      v₁.abs = v.abs → v₁.acc = update v.acc id (v.st.heap id).size → v₁.fresh = v.fresh →
      v₁.spec = v.spec → v₁.evs = v.evs →
      (protocol env L alone).Wp (do
        if c ∨ (v.st.heap id).size ≠ n then
          act .bump
        act .pop) v₁ fun _ v' => Dropped env v gs (dirty v id n c) v' := by
    intro v₁ htab hg habs hacc₁ hfresh hspec hevs
    by_cases hd : dirty v id n c
    · rw [if_pos (by simpa [dirty] using hd)]
      refine wp_quiet rfl (rule_bump ?_ ?_)
      · rw [View.Bars, hg, htab.shards]
        exact .inr ⟨hpin', hactive.imp fun i hi => ⟨id, hi, hown'⟩⟩
      · refine wp_last (wp_quiet rfl (rule_pop (by exact hg.trans hgs) rfl ?_))
        refine ⟨hs.close hgs ?_ habs rfl hacc₁ (fun _ => rfl) (fun _ => rfl), rfl, ?_, habs,
          hspec, ?_⟩
        · exact ⟨htab.shards, htab.previous, htab.heap, htab.next, htab.shardCount,
            htab.previousShardCount, htab.layout⟩
        · exact ⟨htab.shards, htab.previous, htab.heap, htab.next, htab.shardCount,
            htab.previousShardCount, htab.layout⟩
        · rw [if_pos hd, ← hevs]
    · rw [if_neg (by simpa [dirty] using hd)]
      refine wp_last (wp_quiet rfl (rule_pop (hg.trans hgs) rfl ?_))
      refine ⟨hs.close hgs htab habs rfl hacc₁ (fun hf => hfresh ▸ hf) (fun h => absurd h hd),
        rfl, htab, habs, hspec, ?_⟩
      rw [if_neg hd, List.append_nil, ← hevs]
  have tab : ∀ m : Nat, State.SameTables v.st { v.st with totalLen := m } := fun _ =>
    ⟨rfl, rfl, rfl, rfl, rfl, rfl, rfl⟩
  unfold ShardMutation.drop
  refine wp_quiet rfl (rule_opened hopen ?_)
  refine wp_quiet rfl (rule_len (.inr hown'.owns) ?_)
  dsimp only
  by_cases hgt : (v.st.heap id).size > n
  · rw [if_pos hgt]
    refine wp_quiet rfl (rule_addLen hpin' hown' (tail _ (tab _) rfl rfl ?_ rfl rfl rfl))
    have : v.acc id + ((v.st.heap id).size - n) = (v.st.heap id).size := by omega
    exact congrArg (update v.acc id) this
  · rw [if_neg hgt]
    by_cases hlt : (v.st.heap id).size < n
    · rw [if_pos hlt]
      refine wp_quiet rfl (rule_subLen hpin' hown' ?_ (tail _ (tab _) rfl rfl ?_ rfl rfl rfl))
      · omega
      · have : v.acc id - (n - (v.st.heap id).size) = (v.st.heap id).size := by omega
        exact congrArg (update v.acc id) this
    · rw [if_neg hlt]
      refine tail v (.refl _) rfl rfl ?_ rfl rfl rfl
      have : (v.st.heap id).size = v.acc id := by omega
      rw [this, Function.update_eq_self]

end Mutation

theorem unwinds (hs : Settled env.hash v) (hspec : ∀ es, v.spec es) :
    (protocol env L alone).Unwinds (Guard.unwind v.gs) v
      (fun x => (protocol env L alone).Released x) := by
  generalize hgs : v.gs = gs
  induction gs generalizing v with
  | nil => exact hgs
  | cons x gs ih =>
    refine Protocol.Unwinds.bind ?_
    have pop : ∀ v₁ : View K V L.State, Settled env.hash v₁ → (∀ es, v₁.spec es) →
        v₁.gs = x :: gs → x.isPlain →
        (protocol env L alone).Unwinds (act .pop) v₁ fun _ v' =>
          (protocol env L alone).Unwinds (Guard.unwind gs) v'
            (fun x => (protocol env L alone).Released x) := fun v₁ h₁ hsp hg hx =>
      rule_pop hg (Guard.local_of_plain hx) (ih (h₁.pop hx hg) hsp rfl)
    have life : ∀ (v₁ : View K V L.State) (e : L.State), Settled env.hash v₁ →
        Settled env.hash { v₁ with st := { v₁.st with life := e } } := fun v₁ e h₁ =>
      h₁.frame (sameCore_life v₁.st e).tables (fun _ => rfl) rfl rfl rfl fun h => h
    cases x with
    | lock l m =>
      have hord := hs.ordered
      rw [hgs] at hord
      have hclosed : Closed v.gs := by
        rw [hgs]
        exact hord.2.1
      refine Protocol.Shift.unwinds (hs.tear hclosed (fun _ => hspec _) fun v₁ hc hg hsp => ?_)
      have hout : without v₁.gs l = gs := by
        rw [hg, hgs]
        simp [without, Guard.holds]
      refine rule_unlock_clean hc (fun hl l' hl' => ?_) ?_
      · rw [hout]
        exact hord.1 hl l' hl'
      · have hstack : Stack (.lock l m :: gs) := hgs ▸ hs.stack hclosed
        have hc' : Clean env.hash gs v₁.toWorld := hc.mono fun l' m' h => by
          rw [hg, hgs]
          exact List.mem_cons_of_mem _ h
        rw [hout]
        exact ih (hc'.settled hstack.tail) (hsp ▸ hspec) rfl
    | mutation id n c =>
      refine ((wp_drop hs hgs).unwinds).mono fun _ v' h => ih h.settled ?_ h.guards
      rw [h.spec]
      exact hspec
    | ticket =>
      exact rule_life fun _ e => pop _ (life v e hs) hspec hgs rfl
    | operation =>
      exact rule_life fun _ e => rule_life fun _ e' =>
        pop _ (life _ e' (life v e hs)) hspec hgs rfl
    | prepared k =>
      exact rule_life fun _ e => pop _ (life v e hs) hspec hgs rfl
    | timer generation started budget =>
      refine rule_clock fun now => rule_tracker (fun _ => by simp) fun p _ _ =>
        pop _ (hs.frame ⟨rfl, rfl, rfl, rfl, rfl, rfl, by simp⟩ (fun _ => rfl) rfl rfl rfl
          fun h => h) hspec hgs rfl
    | batch started entries =>
      exact rule_clock fun now => rule_life fun _ e => rule_life fun _ e' =>
        pop _ (life _ e' (life v e hs)) hspec hgs rfl
    | dispatch entries =>
      exact rule_life fun _ e => pop _ (life v e hs) hspec hgs rfl

end Starshard
