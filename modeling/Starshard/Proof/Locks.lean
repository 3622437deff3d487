import Starshard.Proof.Rules

/-! Rules for taking and releasing locks. -/
namespace Starshard

open Data Concurrent
open Function (update)

section Guards

variable {K V E : Type} {hash : K → Nat} {s : State K V E} {gs : Guards K V} {k : K}

theorem Guard.excludes_lock (l l' : LockId) (m m' : Mode) :
    (Guard.lock l' m' : Guard K V).excludes l m ↔ l' = l ∧ (m = .excl ∨ m' = .excl) := by
  simp [Guard.excludes]

theorem Reads.mono {gs' : Guards K V} (hg : ∀ l m, Guard.lock l m ∈ gs → Guard.lock l m ∈ gs')
    (h : Reads hash gs s k) : Reads hash gs' s k := by
  rcases h with h | ⟨hp, hk⟩
  · exact .inl (hg _ _ h)
  · refine .inr ⟨hg _ _ hp, ?_⟩
    cases hid : s.home hash k <;> rw [hid] at hk <;> obtain ⟨m, hm⟩ := hk <;>
      exact ⟨m, hg _ _ hm⟩

theorem Writes.mono {gs' : Guards K V} (hg : ∀ l m, Guard.lock l m ∈ gs → Guard.lock l m ∈ gs')
    (h : Writes hash gs s k) : Writes hash gs' s k := by
  rcases h with h | ⟨hp, id, hid, ho⟩
  · exact .inl (hg _ _ h)
  · exact .inr ⟨hg _ _ hp, id, hid, hg _ _ ho⟩

theorem mem_erase_lock {l l' : LockId} {m : Mode} (hl : l' ≠ l) :
    Guard.lock l' m ∈ gs.eraseP (Guard.holds l) ↔ Guard.lock l' m ∈ gs :=
  List.mem_eraseP_of_neg (by simp [Guard.holds, hl])

theorem mem_of_mem_erase {l : LockId} {x : Guard K V} (h : x ∈ gs.eraseP (Guard.holds l)) :
    x ∈ gs := List.mem_of_mem_eraseP h

end Guards

variable {K V : Type} [DecidableEq K] {env : Env K V} {L : Lifecycle K V} {alone : Prop}
  {v : View K V L.State} {t : Nat} {G : Nat → Guards K V} {s : State K V L.State} {g : Ghost K V}
  {l : LockId} {m : Mode}

def Free (G : Nat → Guards K V) (l : LockId) (m : Mode) : Prop :=
  ∀ u, ∀ x ∈ G u, ¬ x.excludes l m

theorem Inv.lock (h : Inv env.hash s G g) (hfree : Free G l m)
    (hin : l.inner → Owns (G t) .routing) : Inv env.hash s (update G t (.lock l m :: G t)) g := by
  have hsub : ∀ u, ∀ x ∈ G u, x ∈ update G t (.lock l m :: G t) u := by
    intro u x hx
    by_cases hu : u = t
    · subst hu
      simp [hx]
    · simpa [hu] using hx
  have hmem : ∀ u l' m', Guard.lock l' m' ∈ update G t (.lock l m :: G t) u →
      Guard.lock l' m' ∈ G u ∨ (u = t ∧ l' = l ∧ m' = m) := by
    intro u l' m' hx
    by_cases hu : u = t
    · subst hu
      simp only [Function.update_self, List.mem_cons, Guard.lock.injEq] at hx
      exact hx.elim (fun hx => .inr ⟨rfl, hx⟩) .inl
    · exact .inl (by simpa [hu] using hx)
  have hnone : ∀ u l' m', Guard.lock l' m' ∈ G u → l' = l → m = .shared ∧ m' = .shared := by
    rintro u l' m' hx rfl
    have := hfree u _ hx
    rw [Guard.excludes_lock] at this
    cases m <;> cases m' <;> simp_all
  refine ⟨?_, ?_, ?_, fun hx => h.settled fun u hu => hx u (hsub u _ hu),
    fun k hk => h.contents k fun u hu => hk u (hu.mono fun _ _ => hsub u _),
    fun id hi => h.acc id fun u =>
      ⟨fun hu => (hi u).1 (hsub u _ hu), fun hu => (hi u).2 (hsub u _ hu)⟩,
    h.version, h.metrics, h.labels, h.cache⟩
  · rintro a b l' hab ha ⟨m', hb⟩
    rcases hmem a _ _ ha with ha' | ⟨rfl, rfl, rfl⟩
    · rcases hmem b _ _ hb with hb' | ⟨rfl, rfl, rfl⟩
      · exact h.mutex a b l' hab ha' ⟨m', hb'⟩
      · cases (hnone a _ _ ha' rfl).2
    · rcases hmem b _ _ hb with hb' | ⟨rfl, -, -⟩
      · cases (hnone b _ _ hb' rfl).1
      · exact hab rfl
  · intro a hp hx
    rcases hmem a _ _ hp with hp' | ⟨rfl, hl, hm⟩
    · rcases hmem a _ _ hx with hx' | ⟨rfl, hl, hm⟩
      · exact h.single a hp' hx'
      · cases hm.trans (hnone a _ _ hp' hl).1
    · rcases hmem a _ _ hx with hx' | ⟨-, -, hm'⟩
      · cases (hnone a _ _ hx' hl).2
      · cases hm'.trans hm.symm
  · rintro a l' hl' ⟨m', ha⟩
    have hr : Owns (G a) .routing := by
      rcases hmem a _ _ ha with ha' | ⟨rfl, rfl, -⟩
      · exact h.inner a l' hl' ⟨m', ha'⟩
      · exact hin hl'
    obtain ⟨n, hn⟩ := hr
    exact ⟨n, hsub a _ hn⟩

/-- A newly locked task finds everything it now protects committed. -/
theorem Clean.lock (hv : holds env L alone t v s G g) (hc : Clean env.hash v.gs v.toWorld)
    (hfree : Free G l m) (hin : l.inner → Owns v.gs .routing) :
    Clean env.hash (.lock l m :: v.gs) ⟨s, g.abs.contents, g.acc⟩ := by
  have hG := holds_guards hv
  have hI := holds_inv hv
  have ha := holds_agree hv
  have hI' : Inv env.hash s (update G t (.lock l m :: v.gs)) g := by
    have := hI.lock hfree (by rwa [hG])
    rwa [hG] at this
  have hfree_t : ∀ m', Guard.lock l m' ∈ v.gs → m = .shared ∧ m' = .shared := by
    intro m' hx
    have := hfree t _ (hG ▸ hx)
    rw [Guard.excludes_lock] at this
    cases m <;> cases m' <;> simp_all
  have hnew : ¬ Exclusive v.gs → Owns (.lock l m :: v.gs) .routing → ∀ u, ¬ Exclusive (G u) := by
    intro hx hr u hu
    by_cases hut : u = t
    · subst hut
      exact hx (hG ▸ hu)
    · rcases (owns_lock _ _ _ _).mp hr with hl | hr
      · have := hfree u _ hu
        rw [Guard.excludes_lock] at this
        exact this ⟨hl, .inr rfl⟩
      · exact hI.mutex u t _ hut hu (hG ▸ hr)
  refine ⟨fun hr => ?_, fun hx => ?_, fun id hi => ?_, fun k hk => ?_⟩
  · by_cases hx : Exclusive v.gs
    · exact (ha.exclusive hx).1.tables.wellFormed (hc.wellFormed hx.owns)
    · exact (hI.settled (hnew hx hr)).1
  · by_cases hx' : Exclusive v.gs
    · have hs := (ha.exclusive hx').1
      have hacc : g.acc = v.acc := (ha.exclusive hx').2
      have htot := hc.total hx'
      rw [← hs.totalLen, ← hs.tables.live, ← hacc] at htot
      exact htot
    · exact (hI.settled (hnew hx' hx.owns)).2
  · by_cases hx : Exclusive v.gs
    · have hacc : g.acc = v.acc := (ha.exclusive hx).2
      have hheap : s.heap = v.st.heap := (ha.exclusive hx).1.heap
      show g.acc id = (s.heap id).size
      rw [hacc, hheap]
      exact hc.acc id (.inl hx)
    · by_cases ho : Owns v.gs (.shard id)
      · have hacc : g.acc id = v.acc id := ha.acc id ho
        have hheap : s.heap id = v.st.heap id := ha.heap id ho
        show g.acc id = (s.heap id).size
        rw [hacc, hheap]
        exact hc.acc id (.inr ho)
      · refine hI.acc id fun u => ?_
        rcases hi with hi | hi
        · have hl : l = .routing ∧ m = .excl := ((exclusive_lock _ _ _).mp hi).resolve_right hx
          refine ⟨hnew hx hi.owns u, fun hu => ?_⟩
          obtain ⟨n, hn⟩ := hI.inner u (.shard id) rfl hu.owns
          have := hfree u _ hn
          rw [Guard.excludes_lock] at this
          exact this ⟨hl.1.symm, .inl hl.2⟩
        · have hl : LockId.shard id = l := ((owns_lock _ _ _ _).mp hi).resolve_right ho
          have hr : Owns v.gs .routing := hin (by rw [← hl]; rfl)
          refine ⟨hnew hx ((owns_lock _ _ _ _).mpr (.inr hr)) u, fun hu => ?_⟩
          have := hfree u _ hu
          rw [Guard.excludes_lock] at this
          exact this ⟨hl, .inr rfl⟩
  · by_cases hk' : Reads env.hash v.gs v.st k
    · have habs : g.abs.contents k = v.abs k := ha.abs k hk'
      have hcon : s.contents env.hash k = v.st.contents env.hash k := ha.contents hk'
      show g.abs.contents k = s.contents env.hash k
      rw [habs, hcon]
      exact hc.contents k hk'
    · refine hI.contents k fun u hu => ?_
      by_cases hut : u = t
      · subst hut
        rw [hG] at hu
        exact hk' (hv.cons.writes_of hI hG hu).reads
      · have hk : Reads env.hash (update G t (.lock l m :: v.gs) t) s k := by simpa using hk
        exact hI'.reads_writes hk hut (by simpa [hut] using hu)

/-- After a lock the task may refresh its belief. -/
theorem rule_lock (hc : Clean env.hash v.gs v.toWorld) (hin : l.inner → Owns v.gs .routing)
    (hfree : ∀ x ∈ v.gs, ¬ x.excludes l m)
    (hroot : ∀ id, l = .shard id → Pinned v.gs → id ∈ v.st.live)
    {Φ : Unit → View K V L.State → Prop}
    (h : ∀ w, Agree env.hash v.gs v.toWorld w → Clean env.hash (.lock l m :: v.gs) w →
      (alone → w = v.toWorld) → Φ () { v with toWorld := w, gs := .lock l m :: v.gs }) :
    (protocol env L alone).Rule (.lock l m) v Φ := by
  intro t s G g hv
  have hG := holds_guards hv
  have hcons : v.Consistent env.hash alone s g := hv.cons
  refine ⟨?_, fun r s' gs he => ?_⟩
  · by_cases ha : alone
    · refine .inr ⟨(), s, .lock l m :: G t, fun u x hx => ?_, rfl, rfl⟩
      by_cases hu : u = t
      · subst hu
        exact hfree x (hG ▸ hx)
      · have : G u = [] := hv.alone ha u hu
        rw [this] at hx
        cases hx
    · exact .inl ⟨trivial, ha⟩
  · obtain ⟨hfr, rfl, rfl⟩ := he
    rw [hG]
    let v' : View K V L.State :=
      { v with toWorld := ⟨s', g.abs.contents, g.acc⟩, gs := .lock l m :: v.gs }
    refine ⟨g, v', moves_of ?_ rfl ?_ (fun u _ _ _ _ => .refl _ _) rfl le_rfl rfl
      (List.append_nil _).symm .nil, h ⟨s', g.abs.contents, g.acc⟩ (holds_agree hv)
        (hc.lock hv hfr hin) fun ha => ?_⟩
    · have := (holds_inv hv).lock hfr (by rwa [hG])
      rwa [hG] at this
    · refine ⟨.refl _ _, fun hf => ⟨?_, (hcons.fresh hf).2⟩, hcons.known, fun hp id ho => ?_,
        fun _ => ⟨rfl, rfl, rfl⟩, hcons.meets⟩
      · rcases (hcons.fresh hf).1 with hx | ⟨hp, i, id, hi, ho⟩
        · exact .inl ((exclusive_lock _ _ _).mpr (.inr hx))
        · exact .inr ⟨(pinned_lock _ _ _).mpr (.inr hp), i, id,
            hcons.agree.slots hp.owns i id hi, (ownsExcl_lock _ _ _ _).mpr (.inr ho)⟩
      · have hp' : Pinned v.gs := by
          rcases (pinned_lock _ _ _).mp hp with ⟨rfl, rfl⟩ | hp
          · -- a second read lock of routing: the shard is owned under the first
            rcases (owns_lock _ _ _ _).mp ho with h | ho
            · cases h
            · have hr := (holds_inv hv).inner t (.shard id) rfl (hG.symm ▸ ho)
              rw [hG, owns_routing] at hr
              refine hr.resolve_right fun hx => hfree _ hx ?_
              simp [Guard.excludes]
          · exact hp
        refine hcons.agree.live hp'.owns ?_
        rcases (owns_lock _ _ _ _).mp ho with h | ho
        · exact hroot id h.symm hp'
        · exact hcons.rooted hp' id ho
    · obtain ⟨h₁, h₂, h₃⟩ := holds_alone hv ha
      simp only [← h₁, ← h₂, ← h₃]

/-- Owning routing exclusively, a task relies on no lock it takes inside. -/
theorem Agree.of_exclusive {E : Type} {hash : K → Nat} {gs gs' : Guards K V} {w w' : World K V E}
    (h : Agree hash gs w w') (hx : Exclusive gs) : Agree hash gs' w w' :=
  .of_sameCore (h.exclusive hx).1 (funext fun k => h.abs k (.inl hx)) (h.exclusive hx).2

theorem rule_lock_exclusive (hx : Exclusive v.gs)
    (hfree : ∀ x ∈ v.gs, ¬ x.excludes l m) {Φ : Unit → View K V L.State → Prop}
    (h : Φ () { v with gs := .lock l m :: v.gs }) :
    (protocol env L alone).Rule (.lock l m) v Φ := by
  intro t (s : State K V L.State) (G : Nat → Guards K V) (g : Ghost K V) hv
  have hG := holds_guards hv
  have hcons : v.Consistent env.hash alone s g := hv.cons
  refine ⟨?_, fun r s' gs he => ?_⟩
  · by_cases ha : alone
    · refine .inr ⟨(), s, .lock l m :: G t, fun u x hx => ?_, rfl, rfl⟩
      by_cases hu : u = t
      · subst hu
        exact hfree x (hG ▸ hx)
      · have : G u = [] := hv.alone ha u hu
        rw [this] at hx
        cases hx
    · exact .inl ⟨trivial, ha⟩
  · obtain ⟨hfr, rfl, rfl⟩ := he
    have hI := (holds_inv hv).lock hfr fun _ => hG.symm ▸ hx.owns
    rw [hG] at hI ⊢
    refine ⟨g, { v with gs := .lock l m :: v.gs }, moves_of hI rfl ?_ (fun u _ _ _ _ => .refl _ _) rfl le_rfl rfl
      (List.append_nil _).symm .nil, h⟩
    refine ⟨hcons.agree.of_exclusive hx,
      fun hf => ⟨.inl ((exclusive_lock _ _ _).mpr (.inr hx)), (hcons.fresh hf).2⟩,
      hcons.known, fun hp => ?_, hcons.alone, hcons.meets⟩
    have hs := hI.single t
    rw [Function.update_self] at hs
    exact absurd ((exclusive_lock _ _ _).mpr (.inr hx)) (hs hp)

section Unlock

abbrev without (gs : Guards K V) (l : LockId) : Guards K V := gs.eraseP (Guard.holds l)

theorem Inv.unlock (hv : holds env L alone t v s G g)
    (hc : Exclusive (without v.gs l) ∨ Clean env.hash v.gs v.toWorld)
    (hin : l = .routing → ∀ l', l'.inner → ¬ Owns (without v.gs l) l') :
    Inv env.hash s (update G t (without v.gs l)) g := by
  have hG := holds_guards hv
  have hI := holds_inv hv
  have ha := holds_agree hv
  have hsub : ∀ u, ∀ x ∈ update G t (without v.gs l) u, x ∈ G u := by
    intro u x hx
    by_cases hu : u = t
    · subst hu
      rw [hG]
      exact mem_of_mem_erase (by simpa using hx)
    · simpa [hu] using hx
  have hown : ∀ u l', Owns (update G t (without v.gs l) u) l' → Owns (G u) l' :=
    fun u l' ⟨n, hn⟩ => ⟨n, hsub u _ hn⟩
  have hkeep : ∀ u, u ≠ t → update G t (without v.gs l) u = G u := fun u hu => by simp [hu]
  refine ⟨fun a b l' hab ho hb => hI.mutex a b l' hab (hsub a _ ho) (hown b l' hb),
    fun a hp hx => hI.single a (hsub a _ hp) (hsub a _ hx), ?_, ?_, ?_, ?_,
    hI.version, hI.metrics, hI.labels, hI.cache⟩
  · intro a l' hl' ho
    by_cases hat : a = t
    · subst hat
      rw [Function.update_self] at ho ⊢
      by_cases hl : l = .routing
      · exact absurd ho (hin hl l' hl')
      · obtain ⟨n, hn⟩ := ho
        obtain ⟨n', hn'⟩ := hI.inner a l' hl' ⟨n, hG.symm ▸ mem_of_mem_erase hn⟩
        exact ⟨n', (mem_erase_lock (Ne.symm hl)).mpr (hG ▸ hn')⟩
    · rw [hkeep a hat] at ho ⊢
      exact hI.inner a l' hl' ho
  · intro hx
    by_cases hxt : Exclusive (G t)
    · rw [hG] at hxt
      have hc := hc.resolve_left fun h => hx t (by simpa using h)
      obtain ⟨hs, hacc⟩ := ha.exclusive hxt
      have hacc : g.acc = v.acc := hacc
      refine ⟨hs.tables.wellFormed (hc.wellFormed hxt.owns), ?_⟩
      rw [hacc, hs.totalLen, hs.tables.live]
      exact hc.total hxt
    · refine hI.settled fun u => ?_
      by_cases hu : u = t
      · exact hu ▸ hxt
      · have := hx u
        rwa [hkeep u hu] at this
  · intro k hk
    by_cases hkt : Writes env.hash (G t) s k
    · rw [hG] at hkt
      have hkv := hv.cons.writes_of hI hG hkt
      have hc := hc.resolve_left fun h => hk t (.inl (by simpa using h))
      have habs : g.abs.contents k = v.abs k := ha.abs k hkv.reads
      have hcon : s.contents env.hash k = v.st.contents env.hash k := ha.contents hkv.reads
      rw [habs, hcon]
      exact hc.contents k hkv.reads
    · refine hI.contents k fun u => ?_
      by_cases hu : u = t
      · exact hu ▸ hkt
      · have := hk u
        rwa [hkeep u hu] at this
  · intro id hi
    by_cases hit : Exclusive (G t) ∨ OwnsExcl (G t) (.shard id)
    · rw [hG] at hit
      have hc := hc.resolve_left fun h => (hi t).1 (by simpa using h)
      have hacc := hc.acc id (hit.imp_right OwnsExcl.owns)
      rcases hit with hx | ho
      · obtain ⟨hs, hacc'⟩ := ha.exclusive hx
        have hacc' : g.acc = v.acc := hacc'
        rw [hacc', hs.heap]
        exact hacc
      · have hacc' : g.acc id = v.acc id := ha.acc id ho.owns
        have hheap : s.heap id = v.st.heap id := ha.heap id ho.owns
        rw [hacc', hheap]
        exact hacc
    · refine hI.acc id fun u => ?_
      by_cases hu : u = t
      · subst hu
        exact not_or.mp hit
      · have := hi u
        rwa [hkeep u hu] at this

private theorem rule_unlock (hc : Exclusive (without v.gs l) ∨ Clean env.hash v.gs v.toWorld)
    (hin : l = .routing → ∀ l', l'.inner → ¬ Owns (without v.gs l) l') (fresh : Bool)
    (hfresh : fresh → v.fresh ∧ Exclusive (without v.gs l)) {Φ : Unit → View K V L.State → Prop}
    (h : Φ () { v with gs := without v.gs l, fresh := fresh }) :
    (protocol env L alone).Rule (.unlock l) v Φ := by
  intro t (s : State K V L.State) (G : Nat → Guards K V) (g : Ghost K V) hv
  have hG := holds_guards hv
  have hcons : v.Consistent env.hash alone s g := hv.cons
  refine ⟨.inr ⟨(), s, _, rfl, rfl⟩, fun r s' gs he => ?_⟩
  obtain ⟨rfl, rfl⟩ := he
  rw [hG]
  refine ⟨g, { v with gs := without v.gs l, fresh := fresh },
    moves_of (Inv.unlock hv hc hin) rfl ?_ (fun u _ _ _ _ => .refl _ _) rfl le_rfl rfl
    (List.append_nil _).symm .nil, h⟩
  refine ⟨hcons.agree.mono fun _ _ => mem_of_mem_erase, fun hf => ?_, hcons.known,
    fun hp id ho => ?_, hcons.alone, hcons.meets⟩
  · exact ⟨.inl (hfresh hf).2, (hcons.fresh (hfresh hf).1).2⟩
  · obtain ⟨n, hn⟩ := ho
    exact hcons.rooted (mem_of_mem_erase hp) id ⟨n, mem_of_mem_erase hn⟩

theorem rule_unlock_clean (hc : Clean env.hash v.gs v.toWorld)
    (hin : l = .routing → ∀ l', l'.inner → ¬ Owns (without v.gs l) l')
    {Φ : Unit → View K V L.State → Prop}
    (h : Φ () { v with gs := without v.gs l, fresh := false }) :
    (protocol env L alone).Rule (.unlock l) v Φ :=
  rule_unlock (.inr hc) hin false (by simp) h

theorem rule_unlock_exclusive (hx : Exclusive v.gs) (hl : l ≠ .routing)
    {Φ : Unit → View K V L.State → Prop} (h : Φ () { v with gs := without v.gs l }) :
    (protocol env L alone).Rule (.unlock l) v Φ := by
  have hx' : Exclusive (without v.gs l) := (mem_erase_lock (Ne.symm hl)).mpr hx
  exact rule_unlock (.inl hx') (fun h => absurd h hl) v.fresh (fun hf => ⟨hf, hx'⟩) h

end Unlock

end Starshard
