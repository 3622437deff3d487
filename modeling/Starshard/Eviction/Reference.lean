import Starshard.Eviction.Validation

/-! What the policy orders mean: the stamps agree with the history of each live key. -/
namespace Starshard.Eviction

variable {K : Type} [DecidableEq K]

/-- One life of a key, from the insertion that created it: the times of that insertion
and of the last access, and the number of accesses. -/
structure Life where
  born : Nat
  touched : Nat
  accesses : Nat

structure Meaning (K : Type) where
  time : Nat
  lives : K → Option Life

/-- A hook with the change of the data it belongs to. -/
inductive Act (K : Type) where
  | insert (k : K) (weight : Nat)
  | read (k : K)
  | remove (k : K)
  /-- The data are removed; the hook unwinds and the ticket is dropped. -/
  | removeFailed (k : K)
  | evict (c : EvictionCandidate K)
  | mutation
  /-- An unrelated failure. -/
  | failure
  | reconcile (items : List (K × Nat))

def Life.access (now : Nat) (l : Life) : Life :=
  { l with touched := now, accesses := l.accesses + 1 }

namespace Meaning

def new (K : Type) : Meaning K := ⟨0, fun _ => none⟩

/-- A write: a new life, or one more access. -/
def write (k : K) (m : Meaning K) : Life :=
  match m.lives k with
  | none => ⟨m.time, m.time, 1⟩
  | some l => l.access m.time

def set (m : Meaning K) (k : K) (l : Option Life) : Meaning K :=
  ⟨m.time + 1, Function.update m.lives k l⟩

def step (m : Meaning K) : Act K → Meaning K
  | .insert k _ => m.set k (some (m.write k))
  | .read k => m.set k ((m.lives k).map (Life.access m.time))
  | .remove k | .removeFailed k => m.set k none
  | .evict c => m.set c.key none
  | .mutation | .failure | .reconcile _ => { m with time := m.time + 1 }

@[simp] theorem set_self (m : Meaning K) (k : K) (l : Option Life) : (m.set k l).lives k = l := by
  simp [set]

theorem set_of_ne (m : Meaning K) {k j : K} (h : j ≠ k) (l : Option Life) :
    (m.set k l).lives j = m.lives j := by
  simp [set, h]

def hook (m : Meaning K) : Act K → Hook K
  | .insert k w => .insert k w (m.lives k).isSome
  | .read k => .read k (m.lives k).isSome
  | .remove k => .remove k
  | .removeFailed _ | .failure => .markDirty
  | .evict c => .evict c
  | .mutation => .mutation
  | .reconcile items => .reconcile items

end Meaning

structure Scene (K : Type) where
  engine : Engine K
  meaning : Meaning K

def Scene.new (K : Type) : Scene K := ⟨.new K, .new K⟩

def Scene.step (fx : K → Nat) (s : Scene K) (a : Act K) : Scene K :=
  ⟨(s.meaning.hook a).apply fx s.engine, s.meaning.step a⟩

def Scene.run (fx : K → Nat) (s : Scene K) (acts : List (Act K)) : Scene K :=
  acts.foldl (Scene.step fx) s

/-- The candidate of an eviction still names the entry of its key, and a repair gets
the live keys. -/
def Act.Allowed (fx : K → Nat) (s : Scene K) : Act K → Prop
  | .evict c => c.hash = fx c.key ∧ ∃ x ∈ s.engine.entries, x.key = c.key ∧
      x.incarnation = c.incarnation
  | .reconcile items => (items.map Prod.fst).Nodup ∧
      ∀ k, k ∈ items.map Prod.fst ↔ (s.meaning.lives k).isSome
  | _ => True

def Scene.Fits (fx : K → Nat) : Scene K → List (Act K) → Prop
  | _, [] => True
  | s, a :: acts => a.Allowed fx s ∧ (s.step fx a).Fits fx acts

/-- No hook advances a counter past 64 bits. -/
def Scene.RoomFor (fx : K → Nat) : Scene K → List (Act K) → Prop
  | _, [] => True
  | s, a :: acts => (s.meaning.hook a).Room fx s.engine ∧ (s.step fx a).RoomFor fx acts

/-- `count` is how accesses are counted. -/
def Life.Before (count : Nat → Nat) (policy : CapacityPolicy) (a b : Life) : Prop :=
  match policy with
  | .lru => a.touched < b.touched
  | .lfu => count a.accesses < count b.accesses ∨
      count a.accesses = count b.accesses ∧ a.touched < b.touched
  | .fifo => a.born < b.born

/-- A counter of 64 bits that saturates. -/
def saturated (n : Nat) : Nat := min n (2 ^ 64 - 1)

/-- A stamp of the entries orders the live keys as their history does. -/
def Ordered (f : Entry K → Nat) (g : Life → Nat) (s : Scene K) : Prop :=
  ∀ x ∈ s.engine.entries, ∀ y ∈ s.engine.entries, ∀ a b, s.meaning.lives x.key = some a →
    s.meaning.lives y.key = some b → (f x < f y ↔ g a < g b)

structure Agrees (s : Scene K) : Prop where
  sane : s.engine.Sane
  started : 0 < s.engine.sequence
  tracked : ∀ k l, s.meaning.lives k = some l → ∃ x ∈ s.engine.entries, x.key = k ∧
    x.frequency = saturated l.accesses
  live : s.engine.dirty = false → ∀ x ∈ s.engine.entries, (s.meaning.lives x.key).isSome
  past : ∀ k l, s.meaning.lives k = some l → l.born < s.meaning.time ∧
    l.touched < s.meaning.time ∧ l.accesses < s.engine.sequence
  inserted : Ordered Entry.inserted Life.born s
  accessed : Ordered Entry.accessed Life.touched s

variable {fx : K → Nat} {s s' : Scene K} {k : K} {f : Entry K → Nat} {g : Life → Nat}

def Renewed (f : Entry K → Nat) (g : Life → Nat) (s : Scene K) (y : Entry K) (l : Life) : Prop :=
  f y = s.engine.sequence ∧ g l = s.meaning.time ∨
    ∃ x ∈ s.engine.entries, ∃ a, x.key = y.key ∧ s.meaning.lives x.key = some a ∧ f x = f y ∧
      g a = g l

theorem Ordered.update (od : Ordered f g s) (hb : s.engine.Below f)
    (hp : ∀ k l, s.meaning.lives k = some l → g l < s.meaning.time)
    (hn : (s'.engine.entries.map Entry.key).Nodup)
    (frame : ∀ y ∈ s'.engine.entries, y.key ≠ k → y ∈ s.engine.entries)
    (lives : ∀ j, j ≠ k → s'.meaning.lives j = s.meaning.lives j)
    (own : ∀ y ∈ s'.engine.entries, y.key = k → ∀ l, s'.meaning.lives k = some l →
      Renewed f g s y l) : Ordered f g s' := by
  have hcross : ∀ x ∈ s'.engine.entries, ∀ y ∈ s'.engine.entries, ∀ a b,
      s'.meaning.lives x.key = some a → s'.meaning.lives y.key = some b → x.key = k → y.key ≠ k →
      (f x < f y ↔ g a < g b) ∧ (f y < f x ↔ g b < g a) := by
    intro x hx y hy a b ha hb' hxk hyk
    have hy' := frame y hy hyk
    rw [lives _ hyk] at hb'
    cases own x hx hxk a (hxk ▸ ha) with
    | inl hnew =>
      have hlt := hb y hy'
      have hlt' := hp _ _ hb'
      omega
    | inr hold =>
      obtain ⟨z, hz, c, -, hc, hf, hg⟩ := hold
      have h1 := od z hz y hy' c b hc hb'
      have h2 := od y hy' z hz b c hb' hc
      rw [hf, hg] at h1 h2
      exact ⟨h1, h2⟩
  intro x hx y hy a b ha hb'
  by_cases hxk : x.key = k
  · by_cases hyk : y.key = k
    · have he := entry_ext hn hx hy (hxk.trans hyk.symm)
      subst he
      rw [ha] at hb'
      have hab := Option.some.inj hb'
      subst hab
      simp
    · exact (hcross x hx y hy a b ha hb' hxk hyk).1
  · by_cases hyk : y.key = k
    · exact (hcross y hy x hx b a hb' ha hyk hxk).2
    · rw [lives _ hxk] at ha
      rw [lives _ hyk] at hb'
      exact od x (frame x hx hxk) y (frame y hy hyk) a b ha hb'

theorem Agrees.update (ag : Agrees s) (sn : s'.engine.Sane)
    (frame : ∀ y, y.key ≠ k → (y ∈ s'.engine.entries ↔ y ∈ s.engine.entries))
    (lives : ∀ j, j ≠ k → s'.meaning.lives j = s.meaning.lives j)
    (htime : s'.meaning.time = s.meaning.time + 1)
    (hseq : s.engine.sequence ≤ s'.engine.sequence)
    (own : ∀ l, s'.meaning.lives k = some l → ∃ y ∈ s'.engine.entries, y.key = k ∧
      y.frequency = saturated l.accesses ∧ l.born ≤ s.meaning.time ∧
      l.touched ≤ s.meaning.time ∧ l.accesses < s'.engine.sequence ∧
      Renewed Entry.inserted Life.born s y l ∧ Renewed Entry.accessed Life.touched s y l)
    (live : s'.engine.dirty = false → s.engine.dirty = false ∧
      ∀ y ∈ s'.engine.entries, y.key = k → (s'.meaning.lives k).isSome) : Agrees s' := by
  have hframe : ∀ y ∈ s'.engine.entries, y.key ≠ k → y ∈ s.engine.entries :=
    fun y hy hk => (frame y hk).mp hy
  have hown : ∀ y ∈ s'.engine.entries, y.key = k → ∀ l, s'.meaning.lives k = some l →
      Renewed Entry.inserted Life.born s y l ∧ Renewed Entry.accessed Life.touched s y l := by
    intro y hy hk l hl
    obtain ⟨z, hz, hzk, -, -, -, -, hins, hacc⟩ := own l hl
    have he := entry_ext sn.keys hy hz (hk.trans hzk.symm)
    subst he
    exact ⟨hins, hacc⟩
  refine ⟨sn, Nat.lt_of_lt_of_le ag.started hseq, fun j l hl => ?_, fun hd x hx => ?_,
    fun j l hl => ?_, ?_, ?_⟩
  · by_cases hj : j = k
    · subst hj
      obtain ⟨y, hy, hyk, hfr, -⟩ := own l hl
      exact ⟨y, hy, hyk, hfr⟩
    · rw [lives j hj] at hl
      obtain ⟨x, hx, hxk, hfr⟩ := ag.tracked j l hl
      exact ⟨x, (frame x (hxk ▸ hj)).mpr hx, hxk, hfr⟩
  · obtain ⟨hd', hk⟩ := live hd
    by_cases hxk : x.key = k
    · rw [hxk]
      exact hk x hx hxk
    · rw [lives _ hxk]
      exact ag.live hd' x (hframe x hx hxk)
  · by_cases hj : j = k
    · subst hj
      obtain ⟨y, -, -, -, hb, ht, ha, -, -⟩ := own l hl
      omega
    · rw [lives j hj] at hl
      have hpast := ag.past j l hl
      omega
  · exact ag.inserted.update ag.sane.inserted_lt (fun j l hl => (ag.past j l hl).1) sn.keys hframe
      lives fun y hy hk l hl => (hown y hy hk l hl).1
  · exact ag.accessed.update ag.sane.accessed_lt (fun j l hl => (ag.past j l hl).2.1) sn.keys hframe
      lives fun y hy hk l hl => (hown y hy hk l hl).2

theorem Agrees.remove (ag : Agrees s) {e' : Engine K} (sn : e'.Sane) (hs : e'.sequence = s.engine.sequence)
    (frame : ∀ y, y.key ≠ k → (y ∈ e'.entries ↔ y ∈ s.engine.entries))
    (live : e'.dirty = false → s.engine.dirty = false ∧ ∀ y ∈ e'.entries, y.key ≠ k) :
    Agrees ⟨e', s.meaning.set k none⟩ := by
  have hself : (s.meaning.set k none).lives k = none := s.meaning.set_self k none
  apply ag.update (k := k) sn frame
  · exact fun j hj => s.meaning.set_of_ne hj none
  · rfl
  · exact Nat.le_of_eq hs.symm
  · intro l hl
    exact absurd (hself.symm.trans hl) (by simp)
  · intro hd
    obtain ⟨hd', hk⟩ := live hd
    exact ⟨hd', fun y hy hyk => absurd hyk (hk y hy)⟩

theorem saturated_succ (n : Nat) : min (saturated n + 1) (2 ^ 64 - 1) = saturated (n + 1) := by
  unfold saturated
  omega

theorem Agrees.insert (ag : Agrees s) (hn : s.engine.sequence + 1 < 2 ^ 64) (w : Nat) :
    Agrees ⟨s.engine.recordInsert fx k w (s.meaning.lives k).isSome,
      s.meaning.set k (some (s.meaning.write k))⟩ := by
  obtain ⟨hseq, -, hd, hr⟩ := (@Engine.recordInsert_fields _ _ fx s.engine k) w
    (s.meaning.lives k).isSome
  rw [wrapping_of_lt hn] at hseq
  have hmem := (@Engine.mem_recordInsert _ _ fx _ k) ag.sane.keys w (s.meaning.lives k).isSome
  have hkey := (@Engine.written_key _ _ fx s.engine k) w (s.meaning.lives k).isSome
  have hstamps := (@Engine.written_stamps _ _ fx s.engine k) w
    (s.meaning.lives k).isSome
  have hself : (s.meaning.set k (some (s.meaning.write k))).lives k = some (s.meaning.write k) :=
    s.meaning.set_self k _
  apply ag.update (k := k) (ag.sane.insert hn w _)
  · intro y hy
    dsimp only
    rw [hmem]
    constructor
    · intro h
      exact (h.resolve_right fun he => hy (he ▸ hkey)).1
    · exact fun h => .inl ⟨h, hy⟩
  · exact fun j hj => s.meaning.set_of_ne hj _
  · rfl
  · dsimp only
    omega
  · intro l hl
    have hl' : s.meaning.write k = l := Option.some.inj (hself.symm.trans hl)
    subst hl'
    refine ⟨_, (hmem _).mpr (.inr rfl), hkey, ?_⟩
    dsimp only
    rw [hseq]
    cases hlive : s.meaning.lives k with
    | none =>
      -- a ghost of the key does not matter: the flag says that the life is new
      have hwrite : s.meaning.write k = ⟨s.meaning.time, s.meaning.time, 1⟩ := by
        unfold Meaning.write
        rw [hlive]
      rw [hlive] at hstamps
      have hnew : (Engine.written fx s.engine k w (none : Option Life).isSome).inserted =
          s.engine.sequence ∧
          (Engine.written fx s.engine k w (none : Option Life).isSome).frequency = 1 := by
        unfold Engine.written
        split <;> exact ⟨rfl, rfl⟩
      rw [hwrite]
      exact ⟨hnew.2, Nat.le_refl _, Nat.le_refl _, Nat.succ_lt_succ ag.started, .inl ⟨hnew.1, rfl⟩,
        .inl ⟨hstamps.2, rfl⟩⟩
    | some a =>
      have hwrite : s.meaning.write k = a.access s.meaning.time := by
        unfold Meaning.write
        rw [hlive]
      obtain ⟨x, hx, hxk, hfr⟩ := ag.tracked k a hlive
      have hfind : s.engine.find? fx k = some x := by
        rw [← hxk]
        exact Engine.find?_of_mem ag.sane.keys hx
      have hpast := ag.past k a hlive
      rw [hlive] at hstamps hkey
      have hold : (Engine.written fx s.engine k w (some a).isSome).inserted = x.inserted ∧
          (Engine.written fx s.engine k w (some a).isSome).frequency =
            min (x.frequency + 1) (2 ^ 64 - 1) := by
        unfold Engine.written
        rw [hfind]
        exact ⟨rfl, rfl⟩
      rw [hwrite]
      refine ⟨?_, Nat.le_of_lt hpast.1, Nat.le_refl _, Nat.succ_lt_succ hpast.2.2,
        .inr ⟨x, hx, a, hxk.trans hkey.symm, ?_, hold.1.symm, rfl⟩, .inl ⟨hstamps.2, rfl⟩⟩
      · rw [hold.2, hfr]
        exact saturated_succ a.accesses
      · rw [hxk]
        exact hlive
  · intro hdirty
    have hsame : (s.engine.recordInsert fx k w (s.meaning.lives k).isSome).dirty =
        s.engine.dirty := by
      unfold Engine.dirty
      rw [hd, hr]
    refine ⟨hsame.symm.trans hdirty, fun _ _ _ => ?_⟩
    exact congrArg Option.isSome hself

omit [DecidableEq K] in
theorem Agrees.idle (ag : Agrees s) {e' : Engine K} (hent : e'.entries = s.engine.entries)
    (hs : e'.sequence = s.engine.sequence) (sn : e'.Sane)
    (hd : e'.dirty = false → s.engine.dirty = false) :
    Agrees ⟨e', { s.meaning with time := s.meaning.time + 1 }⟩ := by
  refine ⟨sn, ?_, ?_, ?_, ?_, ?_, ?_⟩
  · dsimp only
    rw [hs]
    exact ag.started
  · dsimp only
    rw [hent]
    exact ag.tracked
  · dsimp only
    rw [hent]
    exact fun h => ag.live (hd h)
  · intro k l hl
    have hp := ag.past k l hl
    dsimp only
    omega
  · unfold Ordered
    dsimp only
    rw [hent]
    exact ag.inserted
  · unfold Ordered
    dsimp only
    rw [hent]
    exact ag.accessed

theorem Agrees.read (ag : Agrees s)
    (hn : (s.meaning.lives k).isSome = true → (s.engine.find? fx k).isSome →
      s.engine.sequence + 1 < 2 ^ 64) :
    Agrees ⟨s.engine.recordRead fx k (s.meaning.lives k).isSome,
      s.meaning.set k ((s.meaning.lives k).map (Life.access s.meaning.time))⟩ := by
  obtain ⟨-, hd, hr⟩ := (@Engine.recordRead_fields _ _ fx s.engine k) (s.meaning.lives k).isSome
  have hseq := Engine.recordRead_sequence hn
  have hsame : (s.engine.recordRead fx k (s.meaning.lives k).isSome).dirty = s.engine.dirty := by
    unfold Engine.dirty
    rw [hd, hr]
  have hmem := (@Engine.mem_recordRead _ _ fx s.engine k) (s.meaning.lives k).isSome
  have hself := s.meaning.set_self k ((s.meaning.lives k).map (Life.access s.meaning.time))
  apply ag.update (k := k) (ag.sane.read hn)
  · intro y hy
    dsimp only
    rw [hmem]
    cases (s.meaning.lives k).isSome with
    | false => exact Iff.rfl
    | true =>
      rw [if_pos rfl]
      constructor
      · intro h
        refine (h.resolve_right fun he => ?_).1
        obtain ⟨x, -, hxk, rfl⟩ := he
        exact hy hxk
      · exact fun h => .inl ⟨h, hy⟩
  · exact fun j hj => s.meaning.set_of_ne hj _
  · rfl
  · dsimp only
    omega
  · intro l hl
    have hl' : (s.meaning.lives k).map (Life.access s.meaning.time) = some l := hself.symm.trans hl
    obtain ⟨a, hlive, rfl⟩ := Option.map_eq_some_iff.mp hl'
    obtain ⟨x, hx, rfl, hfr⟩ := ag.tracked k a hlive
    have hpast := ag.past x.key a hlive
    have hstamp := Engine.recordRead_stamp hx (hn (by rw [hlive, Option.isSome_some]))
    have hacc : max x.accessed s.engine.sequence = s.engine.sequence :=
      Nat.max_eq_right (Nat.le_of_lt (ag.sane.accessed_lt x hx))
    refine ⟨Engine.touch s.engine.sequence x, ?_, rfl, ?_, Nat.le_of_lt hpast.1, Nat.le_refl _, ?_,
      .inr ⟨x, hx, a, rfl, hlive, rfl, rfl⟩, .inl ⟨hacc, rfl⟩⟩
    · dsimp only
      rw [hmem, hlive]
      exact .inr ⟨x, hx, rfl, rfl⟩
    · have hf : (Engine.touch s.engine.sequence x).frequency = min (x.frequency + 1) (2 ^ 64 - 1) := rfl
      rw [hf, hfr]
      exact saturated_succ a.accesses
    · dsimp only
      rw [hlive, Option.isSome_some, hstamp]
      exact Nat.succ_lt_succ hpast.2.2
  · intro hdirty
    have hclean : s.engine.dirty = false := hsame.symm.trans hdirty
    refine ⟨hclean, fun y hy hyk => ?_⟩
    -- no ghost is left in a clean state, so the key is live
    have hlive : (s.meaning.lives k).isSome := by
      have hy' := (hmem y).mp hy
      split at hy'
      · next h => exact h
      · rw [← hyk]
        exact ag.live hclean y hy'
    have hopt := Option.isSome_map (f := Life.access s.meaning.time) (x := s.meaning.lives k)
    exact (congrArg Option.isSome hself).trans (hopt.trans hlive)

theorem Agrees.reconcile (ag : Agrees s) {items : List (K × Nat)}
    (hi : (items.map Prod.fst).Nodup)
    (hlive : ∀ k, k ∈ items.map Prod.fst ↔ (s.meaning.lives k).isSome)
    (hn : s.engine.sequence + items.length < 2 ^ 64) :
    Agrees ⟨s.engine.reconcile fx items, { s.meaning with time := s.meaning.time + 1 }⟩ := by
  obtain ⟨hent, hseq⟩ := (@Engine.reconcile_entries _ _ fx s.engine) hn
  -- every rebuilt entry keeps the stamps of the entry its key had
  have hold : ∀ y ∈ (s.engine.reconcile fx items).entries, ∃ x ∈ s.engine.entries,
      x.key = y.key ∧ x.inserted = y.inserted ∧ x.accessed = y.accessed ∧
        x.frequency = y.frequency := by
    intro y hy
    rw [hent] at hy
    obtain ⟨item, hitem, he, -, -⟩ := Engine.mem_stagedAll hy
    have hkey : y.key = item.1 := by
      rw [he]
      exact Engine.staged_key _ _
    have hsome := (hlive item.1).mp (List.mem_map_of_mem hitem)
    obtain ⟨l, hl⟩ := Option.isSome_iff_exists.mp hsome
    obtain ⟨x, hx, hxk, -⟩ := ag.tracked item.1 l hl
    have hfind : s.engine.find? fx item.1 = some x := by
      rw [← hxk]
      exact Engine.find?_of_mem ag.sane.keys hx
    refine ⟨x, hx, hxk.trans hkey.symm, ?_⟩
    unfold Engine.staged at he
    rw [hfind] at he
    dsimp only at he
    rw [he]
    exact ⟨rfl, rfl, rfl⟩
  have hkeys : ∀ y ∈ (s.engine.reconcile fx items).entries, y.key ∈ items.map Prod.fst := by
    intro y hy
    rw [← (@Engine.stagedAll_keys _ _ fx s.engine) items s.engine.sequence, ← hent]
    exact List.mem_map_of_mem hy
  refine ⟨ag.sane.reconcile hi hn, ?_, ?_, ?_, ?_, ?_, ?_⟩
  · dsimp only
    rw [hseq]
    exact Nat.lt_of_lt_of_le ag.started (Nat.le_add_right _ _)
  · intro k l hl
    have hk : k ∈ items.map Prod.fst := (hlive k).mpr (Option.isSome_of_eq_some hl)
    rw [← (@Engine.stagedAll_keys _ _ fx s.engine) items s.engine.sequence, ← hent] at hk
    obtain ⟨y, hy, hyk⟩ := List.mem_map.mp hk
    refine ⟨y, hy, hyk, ?_⟩
    obtain ⟨x, hx, hxk, -, -, hfr⟩ := hold y hy
    obtain ⟨z, hz, hzk, hfz⟩ := ag.tracked k l hl
    have he := entry_ext ag.sane.keys hx hz (hxk.trans (hyk.trans hzk.symm))
    rw [← hfr, he, hfz]
  · intro _ y hy
    exact (hlive y.key).mp (hkeys y hy)
  · intro k l hl
    have hp := ag.past k l hl
    dsimp only
    rw [hseq]
    omega
  · intro x hx y hy a b ha hb
    obtain ⟨x', hx', hxk, hxf, -, -⟩ := hold x hx
    obtain ⟨y', hy', hyk, hyf, -, -⟩ := hold y hy
    rw [← hxf, ← hyf]
    exact ag.inserted x' hx' y' hy' a b (hxk ▸ ha) (hyk ▸ hb)
  · intro x hx y hy a b ha hb
    obtain ⟨x', hx', hxk, -, hxf, -⟩ := hold x hx
    obtain ⟨y', hy', hyk, -, hyf, -⟩ := hold y hy
    rw [← hxf, ← hyf]
    exact ag.accessed x' hx' y' hy' a b (hxk ▸ ha) (hyk ▸ hb)

omit [DecidableEq K] in
theorem dirty_markDirty {e : Engine K} (sn : e.Sane) (hn : e.dirtyEpoch + 1 < 2 ^ 64) :
    e.markDirty.dirty = true := by
  have hle := sn.epochs
  have hne : wrapping (e.dirtyEpoch + 1) ≠ e.repairedEpoch := by
    rw [wrapping_of_lt hn]
    omega
  simp only [Engine.dirty, Engine.markDirty, Engine.markPending, bne_iff_ne]
  exact hne

omit [DecidableEq K] in
theorem dirty_drop {e : Engine K} (n : Nat) (p : Entry K → Bool) :
    (e.drop fx n p).dirty = e.dirty := by
  obtain ⟨-, -, hd, hr⟩ := (@Engine.drop_fields _ fx e) n p
  unfold Engine.dirty
  rw [hd, hr]

/-- The counter of the stamps is one of 64 bits. -/
theorem Scene.RoomFor.sequence_lt {acts : List (Act K)} (hw : s.RoomFor fx acts)
    (h : s.engine.sequence < 2 ^ 64) : (s.run fx acts).engine.sequence < 2 ^ 64 := by
  induction acts generalizing s with
  | nil => exact h
  | cons a acts ih => exact ih hw.2 (hw.1.advances.2.1 h)

theorem Agrees.step (ag : Agrees s) {a : Act K} (ha : a.Allowed fx s)
    (hw : (s.meaning.hook a).Room fx s.engine) : Agrees (s.step fx a) := by
  cases a with
  | insert k w => exact ag.insert hw w
  | read k => exact ag.read hw
  | remove k =>
    have hmem := (@Engine.mem_recordRemove _ _ fx _ k) ag.sane.keys
    apply ag.remove (ag.sane.apply (h := .remove k) trivial hw)
      (Engine.drop_fields _ _).1
    · intro y hy
      exact (hmem y).trans ⟨fun h => h.1, fun h => ⟨h, hy⟩⟩
    · intro hd
      have hsame : (s.engine.recordRemove fx k).dirty = s.engine.dirty :=
        dirty_drop (e := { s.engine with metrics := s.engine.metrics.count .removes }) _ _
      exact ⟨hsame.symm.trans hd, fun y hy => ((hmem y).mp hy).2⟩
  | removeFailed k =>
    apply ag.remove (k := k) ((@Engine.Sane.apply _ _ fx _ ag.sane .markDirty) trivial hw) rfl
    · exact fun y _ => Iff.rfl
    · intro hd
      exact absurd ((dirty_markDirty ag.sane hw).symm.trans hd) (by simp)
  | evict c =>
    have hmem := (@Engine.mem_recordEviction _ fx _ c) ag.sane.keys ag.sane.incarnations
    obtain ⟨hhash, x, hx, hxk, hxi⟩ := ha
    have hiff : ∀ y ∈ s.engine.entries, (fx y.key = c.hash ∧ y.incarnation = c.incarnation) ↔
        y.key = c.key := by
      intro y hy
      constructor
      · exact fun h => (ag.sane.incarnations y hy x hx (h.2.trans hxi.symm)).trans hxk
      · intro h
        have he := entry_ext ag.sane.keys hy hx (h.trans hxk.symm)
        exact ⟨(congrArg fx h).trans hhash.symm, he ▸ hxi⟩
    apply ag.remove (ag.sane.apply (h := .evict c) trivial hw)
      (Engine.drop_fields _ _).1
    · intro y hy
      refine (hmem y).trans ⟨fun h => h.1, fun h => ⟨h, fun he => hy ((hiff y h).mp he)⟩⟩
    · intro hd
      have hsame : (s.engine.recordEviction fx c).dirty = s.engine.dirty :=
        (Engine.recordEviction_same c).2
      refine ⟨hsame.symm.trans hd, fun y hy hk => ?_⟩
      have hy' := (hmem y).mp hy
      exact hy'.2 ((hiff y hy'.1).mpr hk)
  | mutation => exact ag.idle rfl rfl ((@Engine.Sane.apply _ _ fx _ ag.sane .mutation) trivial hw) id
  | failure =>
    have hent : s.engine.markDirty.entries = s.engine.entries := rfl
    apply ag.idle hent rfl ((@Engine.Sane.apply _ _ fx _ ag.sane .markDirty) trivial hw)
    intro hd
    exact absurd ((dirty_markDirty ag.sane hw).symm.trans hd) (by simp)
  | reconcile items => exact ag.reconcile ha.1 ha.2 hw.1

theorem Agrees.run (ag : Agrees s) {acts : List (Act K)} (hf : s.Fits fx acts)
    (hw : s.RoomFor fx acts) : Agrees (s.run fx acts) := by
  induction acts generalizing s with
  | nil => exact ag
  | cons a acts ih => exact ih (ag.step hf.1 hw.1) hf.2 hw.2

omit [DecidableEq K] in
theorem Agrees.new : Agrees (Scene.new K) := by
  constructor
  · exact .new
  · exact Nat.one_pos
  · exact fun k l hl => absurd hl (by simp [Scene.new, Meaning.new])
  · exact fun _ x hx => absurd hx List.not_mem_nil
  · exact fun k l hl => absurd hl (by simp [Scene.new, Meaning.new])
  · exact fun x hx => absurd hx List.not_mem_nil
  · exact fun x hx => absurd hx List.not_mem_nil

/-! ### The order of the candidates -/

omit [DecidableEq K] in
theorem rank_lt_iff (policy : CapacityPolicy) (e : Engine K) (x y : Entry K) :
    rank policy (e.candidate fx x) < rank policy (e.candidate fx y) ↔
      match policy with
      | .lru => x.accessed < y.accessed ∨ x.accessed = y.accessed ∧
          (x.inserted < y.inserted ∨ x.inserted = y.inserted ∧ x.incarnation < y.incarnation)
      | .lfu => x.frequency < y.frequency ∨ x.frequency = y.frequency ∧
          (x.accessed < y.accessed ∨ x.accessed = y.accessed ∧ x.inserted < y.inserted)
      | .fifo => x.inserted < y.inserted ∨ x.inserted = y.inserted ∧
          (0 < 0 ∨ 0 = 0 ∧ x.incarnation < y.incarnation) := by
  cases policy with
  | lru | lfu | fifo =>
    simp only [rank, policyRank, Engine.candidate, Prod.Lex.toLex_lt_toLex]

omit [DecidableEq K] in
theorem Engine.Sane.rank_key {e : Engine K} (sn : e.Sane) (policy : CapacityPolicy) {x y : Entry K}
    (hx : x ∈ e.entries) (hy : y ∈ e.entries)
    (h : rank policy (e.candidate fx x) = rank policy (e.candidate fx y)) : x.key = y.key := by
  have hstamp := stamp_of_rank h
  cases policy with
  | lru | lfu => exact sn.accessed x hx y hy hstamp
  | fifo => exact sn.inserted x hx y hy hstamp

omit [DecidableEq K] in
/-- The rank of two live keys means what the policy says. -/
theorem Agrees.before (ag : Agrees s) (policy : CapacityPolicy) {x y : Entry K}
    (hx : x ∈ s.engine.entries) (hy : y ∈ s.engine.entries) {a b : Life}
    (ha : s.meaning.lives x.key = some a) (hb : s.meaning.lives y.key = some b)
    (h : rank policy (s.engine.candidate fx x) < rank policy (s.engine.candidate fx y)) :
    Life.Before saturated policy a b := by
  have hne : x.key ≠ y.key := by
    intro he
    have hxy := entry_ext ag.sane.keys hx hy he
    subst hxy
    exact absurd h (lt_irrefl _)
  have hacc : x.accessed ≠ y.accessed := fun he => hne (ag.sane.accessed x hx y hy he)
  have hins : x.inserted ≠ y.inserted := fun he => hne (ag.sane.inserted x hx y hy he)
  have hfreq : ∀ z ∈ s.engine.entries, ∀ l, s.meaning.lives z.key = some l →
      z.frequency = saturated l.accesses := by
    intro z hz l hl
    obtain ⟨u, hu, huk, hfr⟩ := ag.tracked z.key l hl
    rw [← entry_ext ag.sane.keys hu hz huk]
    exact hfr
  rw [rank_lt_iff] at h
  cases policy with
  | lru =>
    apply (ag.accessed x hx y hy a b ha hb).mp
    exact h.resolve_right fun he => hacc he.1
  | lfu =>
    dsimp only at h
    rw [hfreq x hx a ha, hfreq y hy b hb] at h
    refine h.imp id fun h => ⟨h.1, ?_⟩
    apply (ag.accessed x hx y hy a b ha hb).mp
    exact h.2.resolve_right fun he => hacc he.1
  | fifo =>
    apply (ag.inserted x hx y hy a b ha hb).mp
    exact h.resolve_right fun he => hins he.1

theorem saturated_eq {n : Nat} (h : n < 2 ^ 64) : saturated n = n := by
  unfold saturated
  omega

/-- As long as no counter wraps, the candidates of a clean state are the live keys, each
once, in the order that their histories give; no two have the same rank. -/
theorem candidates_mean (fx : K → Nat) (acts : List (Act K)) (hf : (Scene.new K).Fits fx acts)
    (hw : (Scene.new K).RoomFor fx acts)
    (hc : ((Scene.new K).run fx acts).engine.dirty = false) (policy : CapacityPolicy) :
    let s := (Scene.new K).run fx acts
    let cs := s.engine.candidates fx policy
    let keys := cs.map EvictionCandidate.key
    keys.Nodup ∧ (∀ k, k ∈ keys ↔ (s.meaning.lives k).isSome) ∧
    (cs.Pairwise fun c d => rank policy c < rank policy d) ∧
    keys.Pairwise fun j k => ∀ a b, s.meaning.lives j = some a → s.meaning.lives k = some b →
      Life.Before id policy a b := by
  intro s cs keys
  have ag : Agrees s := Agrees.new.run hf hw
  have hseq : s.engine.sequence < 2 ^ 64 :=
    hw.sequence_lt (by decide : 1 < 2 ^ 64)
  have hperm : cs.Perm (s.engine.entries.map (s.engine.candidate fx)) := by
    have hcs : cs = ranked policy (s.engine.entries.map (s.engine.candidate fx)) := if_neg (by simp [s, hc])
    rw [hcs]
    exact List.mergeSort_perm _ _
  have hkeys : keys.Perm (s.engine.entries.map Entry.key) := by
    have hmap := hperm.map EvictionCandidate.key
    rw [List.map_map] at hmap
    exact hmap
  have hentry : ∀ c ∈ cs, ∃ x ∈ s.engine.entries, s.engine.candidate fx x = c := by
    intro c hc'
    exact List.mem_map.mp (hperm.mem_iff.mp hc')
  have hnodup : keys.Nodup := hkeys.nodup_iff.mpr ag.sane.keys
  have hsorted : cs.Pairwise fun c d => rank policy c < rank policy d := by
    have hle : cs.Pairwise fun c d => rank policy c ≤ rank policy d := by
      have hcs : cs = ranked policy (s.engine.entries.map (s.engine.candidate fx)) := if_neg (by simp [s, hc])
      rw [hcs]
      exact ranked_pairwise policy _
    have hne : cs.Pairwise fun c d => c.key ≠ d.key := List.pairwise_map.mp hnodup
    refine (hle.and hne).imp_of_mem fun hcm hdm h => lt_of_le_of_ne h.1 fun he => h.2 ?_
    obtain ⟨x, hx, rfl⟩ := hentry _ hcm
    obtain ⟨y, hy, rfl⟩ := hentry _ hdm
    exact ag.sane.rank_key policy hx hy he
  have hbefore : keys.Pairwise fun j k => ∀ a b, s.meaning.lives j = some a →
      s.meaning.lives k = some b → Life.Before saturated policy a b := by
    refine List.pairwise_map.mpr (hsorted.imp_of_mem fun hcm hdm h a b ha hb => ?_)
    obtain ⟨x, hx, rfl⟩ := hentry _ hcm
    obtain ⟨y, hy, rfl⟩ := hentry _ hdm
    exact ag.before policy hx hy ha hb h
  refine ⟨hnodup, fun k => ?_, hsorted, ?_⟩
  · rw [hkeys.mem_iff, List.mem_map]
    constructor
    · intro ⟨x, hx, hxk⟩
      rw [← hxk]
      exact ag.live hc x hx
    · intro hk
      obtain ⟨l, hl⟩ := Option.isSome_iff_exists.mp hk
      obtain ⟨x, hx, hxk, -⟩ := ag.tracked k l hl
      exact ⟨x, hx, hxk⟩
  · refine hbefore.imp fun h a b ha hb => ?_
    have hab := h a b ha hb
    have hap := (ag.past _ a ha).2.2
    have hbp := (ag.past _ b hb).2.2
    cases policy with
    | lru => exact hab
    | fifo => exact hab
    | lfu =>
      unfold Life.Before at hab ⊢
      dsimp only at hab ⊢
      rw [saturated_eq (by omega), saturated_eq (by omega)] at hab
      exact hab

theorem candidates_mean_reinserted :
    2 ∈ (((Scene.new Nat).run (fun _ => 0)
      [.insert 1 5, .insert 2 5, .read 1, .remove 2, .insert 2 7]).engine.candidates
        (fun _ => 0) .fifo).map EvictionCandidate.key := by
  refine ((candidates_mean (fun _ => 0) ([.insert 1 5, .insert 2 5, .read 1, .remove 2,
    .insert 2 7] : List (Act Nat)) ⟨trivial, trivial, trivial, trivial, trivial, trivial⟩ ?_ rfl
    .fifo).2.1 2).mpr rfl
  exact ⟨(by decide : 1 + 1 < 2 ^ 64), (by decide : 2 + 1 < 2 ^ 64), fun _ _ => by decide, trivial,
    (by decide : 4 + 1 < 2 ^ 64), trivial⟩

/-! ### A stamp that wraps -/

/-- One key read any number of times before another is inserted. -/
def wearing (reads : Nat) : List (Act Nat) :=
  .insert 1 5 :: (List.replicate reads (.read 1) ++ [.insert 2 5])

structure Worn (reads : Nat) (s : Scene Nat) : Prop where
  entries : ∃ frequency, s.engine.entries = [⟨1, 1, 1, 1 + reads, frequency, 5⟩]
  sequence : s.engine.sequence = wrapping (2 + reads)
  dirtyEpoch : s.engine.dirtyEpoch = 0
  repairedEpoch : s.engine.repairedEpoch = 0
  time : s.meaning.time = 1 + reads
  first : s.meaning.lives 1 = some ⟨0, reads, 1 + reads⟩
  second : s.meaning.lives 2 = none

theorem Worn.read {reads : Nat} {s : Scene Nat} (h : Worn reads s) (hn : 2 + reads < 2 ^ 64) :
    Worn (reads + 1) (s.step id (.read 1)) := by
  obtain ⟨⟨frequency, hent⟩, hseq, hd, hr, htime, hfirst, hsecond⟩ := h
  rw [wrapping_of_lt hn] at hseq
  have hstep : s.step id (.read 1) = ⟨s.engine.recordRead id 1 true,
      s.meaning.set 1 (some ⟨0, s.meaning.time, 1 + reads + 1⟩)⟩ := by
    simp [Scene.step, Meaning.hook, Meaning.step, Hook.apply, hfirst, Life.access]
  have hread : (s.engine.recordRead id 1 true).sequence = wrapping (2 + reads + 1) ∧
      (s.engine.recordRead id 1 true).entries =
        [⟨1, 1, 1, max (1 + reads) (2 + reads), min (frequency + 1) (2 ^ 64 - 1), 5⟩] := by
    simp [Engine.recordRead, Engine.find?, Engine.bucket, Engine.touch, hent, hseq]
  obtain ⟨-, hd', hr'⟩ := (@Engine.recordRead_fields _ _ id s.engine 1) true
  rw [hstep]
  refine ⟨⟨min (frequency + 1) (2 ^ 64 - 1), ?_⟩, hread.1, hd'.trans hd, hr'.trans hr, ?_, ?_, ?_⟩
  · rw [hread.2, show max (1 + reads) (2 + reads) = 1 + (reads + 1) by omega]
  · exact congrArg (· + 1) htime
  · rw [Meaning.set_self, htime, Nat.add_comm 1 reads, Nat.add_comm 1 (reads + 1)]
  · exact (s.meaning.set_of_ne (by decide) _).trans hsecond

theorem Worn.run {reads : Nat} (n : Nat) (hn : 1 + reads + n < 2 ^ 64) : ∀ s : Scene Nat,
    Worn reads s → ∃ s', Worn (reads + n) s' ∧
      s.run id (List.replicate n (.read 1) ++ [.insert 2 5]) = s'.step id (.insert 2 5) ∧
      s.Fits id (List.replicate n (.read 1) ++ [.insert 2 5]) := by
  induction n generalizing reads with
  | zero => exact fun s h => ⟨s, h, rfl, trivial, trivial⟩
  | succ n ih =>
    intro s h
    obtain ⟨s', hworn, hrun, hfits⟩ := ih (by omega) _ (h.read (by omega))
    rw [Nat.add_right_comm] at hworn
    exact ⟨s', hworn, hrun, trivial, hfits⟩

theorem worn_wearing (n : Nat) (hn : 1 + n < 2 ^ 64) : ∃ s, Worn n s ∧
    (Scene.new Nat).run id (wearing n) = s.step id (.insert 2 5) ∧
    (Scene.new Nat).Fits id (wearing n) := by
  have hfirst : Worn 0 ((Scene.new Nat).step id (.insert 1 5)) :=
    ⟨⟨1, rfl⟩, rfl, rfl, rfl, rfl, rfl, rfl⟩
  obtain ⟨s, hworn, hrun, hfits⟩ := hfirst.run n (by omega)
  rw [Nat.zero_add] at hworn
  exact ⟨s, hworn, hrun, trivial, hfits⟩

/-- The last access of the first key is before the life of the second. -/
theorem Worn.lives {reads : Nat} {s : Scene Nat} (h : Worn reads s) :
    (s.step id (.insert 2 5)).meaning.lives 1 = some ⟨0, reads, 1 + reads⟩ ∧
      (s.step id (.insert 2 5)).meaning.lives 2 = some ⟨1 + reads, 1 + reads, 1⟩ := by
  have hwrite : s.meaning.write 2 = ⟨1 + reads, 1 + reads, 1⟩ := by
    unfold Meaning.write
    rw [h.second, h.time]
  refine ⟨(s.meaning.set_of_ne (by decide) _).trans h.first, ?_⟩
  rw [← hwrite]
  exact s.meaning.set_self 2 _

omit [DecidableEq K] in
theorem ranked_swap {policy : CapacityPolicy} {c d : EvictionCandidate K}
    (h : ¬ rank policy c ≤ rank policy d) : ranked policy [c, d] = [d, c] := by
  unfold ranked
  rw [List.mergeSort]
  simp [List.MergeSort.Internal.splitInTwo, h]

/-- The insertion of another key draws the stamp zero, and its candidate comes first. -/
theorem Worn.reversed {s : Scene Nat} (h : Worn (2 ^ 64 - 2) s) :
    (s.step id (.insert 2 5)).engine.dirty = false ∧
      ((s.step id (.insert 2 5)).engine.candidates id .lru).map EvictionCandidate.key = [2, 1] := by
  obtain ⟨⟨frequency, hent⟩, hseq, hd, hr, -, -, hsecond⟩ := h
  have hzero : s.engine.sequence = 0 := hseq.trans (by decide)
  have hstep : (s.step id (.insert 2 5)).engine = s.engine.recordInsert id 2 5 false := by
    simp [Scene.step, Meaning.hook, Hook.apply, hsecond]
  obtain ⟨-, -, hd', hr'⟩ := (@Engine.recordInsert_fields _ _ id s.engine 2) 5 false
  have hclean : (s.engine.recordInsert id 2 5 false).dirty = false := by
    simp [Engine.dirty, hd', hr', hd, hr]
  have hentries : (s.engine.recordInsert id 2 5 false).entries =
      [⟨1, 1, 1, 1 + (2 ^ 64 - 2), frequency, 5⟩, .fresh 2 0 5] := by
    simp [Engine.recordInsert, Engine.find?, Engine.bucket, hent, hzero]
  rw [hstep]
  refine ⟨hclean, ?_⟩
  have hcs : (s.engine.recordInsert id 2 5 false).candidates id .lru =
      ranked .lru [(s.engine.recordInsert id 2 5 false).candidate id
          ⟨1, 1, 1, 1 + (2 ^ 64 - 2), frequency, 5⟩,
        (s.engine.recordInsert id 2 5 false).candidate id (.fresh 2 0 5)] := by
    unfold Engine.candidates
    rw [hclean, hentries]
    rfl
  have hlater : ¬ rank .lru ((s.engine.recordInsert id 2 5 false).candidate id
      ⟨1, 1, 1, 1 + (2 ^ 64 - 2), frequency, 5⟩) ≤
        rank .lru ((s.engine.recordInsert id 2 5 false).candidate id (.fresh 2 0 5)) := by
    rw [not_le, rank_lt_iff]
    exact .inl (by decide : 0 < 1 + (2 ^ 64 - 2))
  rw [hcs, ranked_swap hlater]
  rfl

/-- After `2 ^ 64 - 1` stamps the next is zero: a key inserted last comes before a key that was
read just before. -/
theorem candidates_wrap : ∃ acts : List (Act Nat), (Scene.new Nat).Fits id acts ∧
    ((Scene.new Nat).run id acts).engine.dirty = false ∧
    ¬ (((((Scene.new Nat).run id acts).engine.candidates id .lru).map
      EvictionCandidate.key).Pairwise fun j k => ∀ a b,
        ((Scene.new Nat).run id acts).meaning.lives j = some a →
        ((Scene.new Nat).run id acts).meaning.lives k = some b → Life.Before id .lru a b) := by
  obtain ⟨s, hworn, hrun, hfits⟩ := worn_wearing (2 ^ 64 - 2) (by decide)
  obtain ⟨hclean, hkeys⟩ := hworn.reversed
  obtain ⟨hone, htwo⟩ := hworn.lives
  refine ⟨wearing (2 ^ 64 - 2), hfits, ?_, ?_⟩
  · rw [hrun]
    exact hclean
  · rw [hrun, hkeys]
    intro hpair
    have hbefore : 1 + (2 ^ 64 - 2) < 2 ^ 64 - 2 :=
      List.rel_of_pairwise_cons hpair List.mem_cons_self _ _ htwo hone
    omega

end Starshard.Eviction
