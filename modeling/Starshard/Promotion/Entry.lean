import Starshard.Data.Assoc

/-! Moving one entry between two hash maps (`promote_entry`, `move_one`). User code
runs at many points in between, and any of its calls may unwind. -/
namespace Starshard.Promotion

open Data

/-- What the caller of user code learns when the call unwinds. -/
inductive Exit where
  | cloneKey
  | cloneValue
  | hash
  | eq
  | dropKey
  | dropValue
  /-- The `expect` of `move_one`. -/
  | missing
  deriving DecidableEq

def Exit.isDestructor : Exit → Bool
  | .dropKey | .dropValue => true
  | _ => false

/-- A hash table: its entries and the number of entries it holds without growing. -/
structure Table (K V : Type) where
  entries : Assoc K V
  capacity : Nat
  fits : entries.size ≤ capacity

/-- Both maps, and the number of user calls made so far. -/
structure Maps (K V : Type) where
  active : Table K V
  source : Table K V
  calls : Nat

/-- What the hash tables leave open: the entries a lookup compares with its key,
and the capacity after growing. -/
structure Hashbrown (K V : Type) where
  probes : Nat → Table K V → K → Nat
  grow : Nat → Nat
  grows : ∀ n, n < grow n

abbrev Run (K V α : Type) := EStateM Exit (Maps K V) α

section Calls

variable {K V : Type} (panics : Nat → Bool)

/-- One call of user code. -/
def user (c : Exit) : Run K V Unit := fun s =>
  if panics s.calls then .error c { s with calls := s.calls + 1 }
  else .ok () { s with calls := s.calls + 1 }

def users : List Exit → Run K V Unit
  | [] => pure ()
  | c :: cs => do
    user panics c
    users cs

variable [DecidableEq K] (lib : Hashbrown K V)

/-- Hash the key and compare it with some entries. -/
def find (t : Table K V) (k : K) : Run K V (Option V) := do
  let s ← get
  users panics (.hash :: List.replicate (lib.probes s.calls t k) .eq)
  return t.entries.lookup k

/-- `HashMap::clone`. -/
def cloneMap (t : Table K V) : Run K V (Table K V) := do
  users panics ((List.replicate t.entries.size [Exit.cloneKey, .cloneValue]).flatten)
  return t

/-- Growing hashes the resident keys again. -/
def reserve (t : Table K V) : Run K V (Table K V) := do
  users panics (List.replicate t.entries.size .hash)
  return { t with
    capacity := max t.capacity (lib.grow t.entries.size)
    fits := Nat.le_trans t.fits (Nat.le_max_left _ _) }

def Table.insert (t : Table K V) (k : K) (v : V) : Table K V where
  entries := t.entries.insert k v
  capacity := max t.capacity (Assoc.size (t.entries.insert k v))
  fits := Nat.le_max_right _ _

/-- `VacantEntry::insert`: no user code runs when there is room. -/
def insertVacant (t : Table K V) (k : K) (v : V) : Run K V (Table K V) :=
  if t.entries.size < t.capacity then pure (t.insert k v)
  else do
    let t ← reserve panics lib t
    return t.insert k v

def Table.erase (t : Table K V) (k : K) : Table K V where
  entries := t.entries.erase k
  capacity := t.capacity
  fits := by
    refine Nat.le_trans ?_ t.fits
    rw [Assoc.size_erase]
    split
    · exact Nat.sub_le _ _
    · exact Nat.le_refl _

/-- `remove_entry` of the source map. -/
def removeEntry (k : K) : Run K V (Option V) := do
  let s ← get
  let found ← find panics lib s.source k
  modify fun s => { s with source := s.source.erase k }
  return found

/-- A full destination is prepared in a copy. -/
def prepare : Run K V (Option (Table K V)) := do
  let s ← get
  if s.active.entries.size = s.active.capacity then
    let map ← cloneMap panics s.active
    let map ← reserve panics lib map
    return some map
  else return none

/-- Use the destination that is held open; a value that finds its key present is retired. -/
def fill (staged : Option (Table K V)) (present : Bool) (k : K) (v : V) :
    Run K V (Option (Table K V) × Option V) :=
  if present then pure (staged, some v)
  else match staged with
    | some map => do
      let map ← insertVacant panics lib map k v
      return (some map, none)
    | none => do
      let s ← get
      let active ← insertVacant panics lib s.active k v
      modify fun s => { s with active := active }
      return (none, none)

def dropMap (t : Table K V) : Run K V Unit :=
  users panics ((List.replicate t.entries.size [Exit.dropKey, .dropValue]).flatten)

/-- Publish a staged map, then drop the map it replaces. -/
def replaceActive : Option (Table K V) → Run K V Unit
  | none => pure ()
  | some map => do
    let s ← get
    set { s with active := map }
    dropMap panics s.active

def dropRetired : Option V → Run K V Unit
  | none => pure ()
  | some _ => user panics .dropValue

/-- `promote_entry`. -/
def promoteEntry (k : K) : Run K V Unit := do
  let s ← get
  match ← find panics lib s.source k with
  | none => return
  | some _ =>
    user panics .cloneKey
    let staged ← prepare panics lib
    let destination ← find panics lib (staged.getD s.active) k
    match ← removeEntry panics lib k with
    | none => return
    | some v =>
      let (staged, retiredValue) ← fill panics lib staged destination.isSome k v
      replaceActive panics staged
      user panics .dropKey
      dropRetired panics retiredValue

/-- The payloads that `move_one` hands to its caller, who drops them after the locks. -/
structure RetiredEntry (K V : Type) where
  value : Option V
  map : Option (Table K V)

/-- `move_one`. -/
def moveOne (k : K) : Run K V (RetiredEntry K V) := do
  user panics .cloneKey
  let staged ← prepare panics lib
  let s ← get
  let destination ← find panics lib (staged.getD s.active) k
  match ← removeEntry panics lib k with
  | none => throw .missing
  | some v =>
    let (staged, retiredValue) ← fill panics lib staged destination.isSome k v
    match staged with
    | some map =>
      let s ← get
      set { s with active := map }
      return ⟨retiredValue, some s.active⟩
    | none => return ⟨retiredValue, none⟩

end Calls

/-! ### Outcomes -/

section Outcome

variable {K V α β : Type}

/-- What holds after a run, by its result. -/
def Ends (p : Run K V α) (s : Maps K V) (good : α → Maps K V → Prop)
    (bad : Exit → Maps K V → Prop) : Prop :=
  match p s with
  | .ok x s' => good x s'
  | .error c s' => bad c s'

def Same (s s' : Maps K V) : Prop := s'.active = s.active ∧ s'.source = s.source

/-- Some user call unwound, and no destructor. -/
def Early (panics : Nat → Bool) (s : Maps K V) (c : Exit) (s' : Maps K V) : Prop :=
  (c.isDestructor = false ∧ ∃ n, panics n = true) ∧ Same s s'

/-- A destructor unwound. -/
def Late (panics : Nat → Bool) (s : Maps K V) (c : Exit) (s' : Maps K V) : Prop :=
  (c.isDestructor = true ∧ ∃ n, panics n = true) ∧ Same s s'

/-- A run before the commit: it changes neither map, and no destructor runs. -/
def Quiet (panics : Nat → Bool) (s : Maps K V) (p : Run K V α) (good : α → Prop) : Prop :=
  ∀ s', Same s s' → Ends p s' (fun x s'' => good x ∧ Same s s'') (Early panics s)

theorem Ends.bind {p : Run K V α} {f : α → Run K V β} {s : Maps K V}
    {good : α → Maps K V → Prop} {good' : β → Maps K V → Prop} {bad : Exit → Maps K V → Prop}
    (hp : Ends p s good bad) (hf : ∀ x s', good x s' → Ends (f x) s' good' bad) :
    Ends (p >>= f) s good' bad := by
  unfold Ends at *
  change match (EStateM.bind p f) s with
    | .ok x s' => good' x s'
    | .error c s' => bad c s'
  unfold EStateM.bind
  cases h : p s with
  | ok x s' =>
    rw [h] at hp
    exact hf x s' hp
  | error c s' =>
    rw [h] at hp
    exact hp

theorem Ends.mono {p : Run K V α} {s : Maps K V} {good good' : α → Maps K V → Prop}
    {bad bad' : Exit → Maps K V → Prop} (hp : Ends p s good bad)
    (hg : ∀ x s', good x s' → good' x s') (hb : ∀ c s', bad c s' → bad' c s') :
    Ends p s good' bad' := by
  unfold Ends at *
  split at hp
  · exact hg _ _ hp
  · exact hb _ _ hp

variable {s : Maps K V} {panics : Nat → Bool}

theorem quiet_pure {x : α} {good : α → Prop} (h : good x) : Quiet panics s (pure x) good :=
  fun _ hs => ⟨h, hs⟩

theorem Quiet.bind {p : Run K V α} {f : α → Run K V β} {good : α → Prop} {good' : β → Prop}
    (hp : Quiet panics s p good) (hf : ∀ x, good x → Quiet panics s (f x) good') : Quiet panics s (p >>= f) good' :=
  fun s' hs => Ends.bind (hp s' hs) fun x s'' h => hf x h.1 s'' h.2

theorem quiet_get {f : Maps K V → Run K V β} {good : β → Prop}
    (hf : ∀ s', Same s s' → Quiet panics s (f s') good) : Quiet panics s (get >>= f) good :=
  fun s' hs => (@Ends.bind _ _ _ _ _ _ _ (fun x s'' => x = s' ∧ Same s s'')) ⟨rfl, hs⟩
    fun _ s'' h => h.1 ▸ hf s' hs s'' h.2

theorem quiet_user {c : Exit} (hc : c.isDestructor = false) :
    Quiet panics s (user panics c : Run K V Unit) fun _ => True := by
  intro s' hs
  unfold Ends user
  split
  · next h =>
    split at h
    · cases h
    · cases h
      exact ⟨trivial, hs⟩
  · next h =>
    split at h
    · next hp =>
      cases h
      exact ⟨⟨hc, _, hp⟩, hs⟩
    · cases h

theorem quiet_users {cs : List Exit} (hc : ∀ c ∈ cs, c.isDestructor = false) :
    Quiet panics s (users panics cs : Run K V Unit) fun _ => True := by
  induction cs with
  | nil => exact quiet_pure trivial
  | cons c cs ih =>
    exact (quiet_user (hc c List.mem_cons_self)).bind fun _ _ =>
      ih fun c h => hc c (List.mem_cons_of_mem _ h)

variable [DecidableEq K] {lib : Hashbrown K V} {t : Table K V} {k : K}

theorem quiet_find : Quiet panics s (find panics lib t k) fun r => r = t.entries.lookup k := by
  refine quiet_get fun s' _ => (quiet_users fun c hc => ?_).bind fun _ _ => quiet_pure rfl
  rcases List.mem_cons.mp hc with rfl | hc
  · rfl
  · rw [List.eq_of_mem_replicate hc]
    rfl

omit [DecidableEq K] in
theorem quiet_cloneMap : Quiet panics s (cloneMap panics t) fun r => r = t := by
  refine (quiet_users fun c hc => ?_).bind fun _ _ => quiet_pure rfl
  obtain ⟨l, hl, hc⟩ := List.mem_flatten.mp hc
  rw [List.eq_of_mem_replicate hl] at hc
  simp only [List.mem_cons, List.not_mem_nil, or_false] at hc
  rcases hc with rfl | rfl <;> rfl

omit [DecidableEq K] in
theorem quiet_reserve : Quiet panics s (reserve panics lib t) fun r =>
    r.entries = t.entries ∧ r.entries.size < r.capacity := by
  refine (quiet_users fun c hc => ?_).bind fun _ _ => quiet_pure ⟨rfl, ?_⟩
  · rw [List.eq_of_mem_replicate hc]
    rfl
  · exact Nat.lt_of_lt_of_le (lib.grows _) (Nat.le_max_right _ _)

omit [DecidableEq K] in
/-- The destination has room before any entry leaves the source. -/
theorem quiet_prepare : Quiet panics s (prepare panics lib) fun r =>
    (r.getD s.active).entries = s.active.entries ∧
      (r.getD s.active).entries.size < (r.getD s.active).capacity := by
  refine quiet_get fun s' hs => ?_
  split
  · refine quiet_cloneMap.bind fun map hmap => quiet_reserve.bind fun map' hmap' => quiet_pure ?_
    subst hmap
    rw [hs.1] at hmap'
    exact hmap'
  · next hne =>
    refine quiet_pure ⟨rfl, ?_⟩
    rw [hs.1] at hne
    exact Nat.lt_of_le_of_ne s.active.fits hne

omit [DecidableEq K] in
theorem Quiet.ends {p : Run K V α} {good : α → Prop} (h : Quiet panics s p good) :
    Ends p s (fun x s' => good x ∧ Same s s') (Early panics s) :=
  h s ⟨rfl, rfl⟩

/-- The entry of `k` left the source; the active map keeps a value it already had. -/
structure Moved (k : K) (s s' : Maps K V) : Prop where
  found : (s.source.entries.lookup k).isSome
  source : ∀ k', s'.source.entries.lookup k' =
    if k' = k then none else s.source.entries.lookup k'
  active : ∀ k', s'.active.entries.lookup k' =
    if k' = k then s.active.entries.lookup k <|> s.source.entries.lookup k
    else s.active.entries.lookup k'

/-- The destination after the commit. -/
def Filled (s : Maps K V) (k : K) (v : V) (t : Table K V) : Prop :=
  ∀ k', t.entries.lookup k' =
    if k' = k then s.active.entries.lookup k <|> some v else s.active.entries.lookup k'

theorem Filled.insert {v : V} (he : t.entries = s.active.entries)
    (hk : s.active.entries.lookup k = none) : Filled s k v (t.insert k v) := by
  intro k'
  change (t.entries.insert k v).lookup k' = _
  rw [he, hk]
  by_cases h : k' = k
  · subst h
    simp [AList.lookup_insert]
  · simp [h, AList.lookup_insert_ne h]

theorem Filled.same {v : V} (he : t.entries = s.active.entries)
    (hk : (s.active.entries.lookup k).isSome) : Filled s k v t := by
  intro k'
  rw [he]
  by_cases h : k' = k
  · subst h
    cases hl : s.active.entries.lookup k' with
    | none => simp [hl] at hk
    | some x => simp
  · simp [h]

structure Removed (k : K) (s s' : Maps K V) : Prop where
  active : s'.active = s.active
  source : s'.source = s.source.erase k

/-- No user code runs between the removal and the end of the commit. -/
theorem ends_fill {s' : Maps K V} {staged : Option (Table K V)} {v : V} (hs : Removed k s s')
    (he : (staged.getD s.active).entries = s.active.entries)
    (hroom : (staged.getD s.active).entries.size < (staged.getD s.active).capacity) :
    Ends (fill panics lib staged (s.active.entries.lookup k).isSome k v) s'
      (fun r s'' => s''.source = s.source.erase k ∧ Filled s k v (r.1.getD s''.active) ∧
        (r.2.isSome ↔ (s.active.entries.lookup k).isSome))
      fun _ _ => False := by
  unfold fill
  split
  · next hk =>
    refine ⟨hs.source, ?_, by simp [hk]⟩
    apply Filled.same
    · dsimp only
      rw [hs.active]
      exact he
    · exact hk
  · next hk =>
    have hk : s.active.entries.lookup k = none := by simpa using hk
    cases staged with
    | some map =>
      have hpure : insertVacant panics lib map k v = pure (map.insert k v) := if_pos hroom
      dsimp only
      rw [hpure]
      exact ⟨hs.source, Filled.insert he hk, by simp [hk]⟩
    | none =>
      have hpure : insertVacant panics lib s.active k v = pure (s.active.insert k v) := if_pos hroom
      change Ends (insertVacant panics lib s'.active k v >>= _) s' _ _
      rw [hs.active, hpure]
      exact ⟨hs.source, Filled.insert rfl hk, by simp [hk]⟩

theorem moved_of_filled {s' : Maps K V} {v : V} (hv : s.source.entries.lookup k = some v)
    (hsrc : s'.source = s.source.erase k) (hact : Filled s k v s'.active) : Moved k s s' where
  found := by simp [hv]
  source k' := by
    rw [hsrc]
    change (s.source.entries.erase k).lookup k' = _
    by_cases h : k' = k
    · subst h
      simp [AList.lookup_erase]
    · simp [h, AList.lookup_erase_ne h]
  active k' := by rw [hact k', hv]

/-- The removal itself: it finds the key or unwinds before it removes anything. -/
theorem ends_removeEntry {s' : Maps K V} (hs : Same s s') :
    Ends (removeEntry panics lib k) s'
      (fun r s'' => r = s.source.entries.lookup k ∧ Removed k s s'')
      (Early panics s) := by
  change Ends (find panics lib s'.source k >>= fun found => _) s' _ _
  refine (quiet_find s' hs).bind fun r s'' h => ?_
  obtain ⟨rfl, hs''⟩ := h
  refine ⟨by rw [hs.2], hs''.1, ?_⟩
  dsimp only
  rw [hs''.2]

omit [DecidableEq K] in
theorem ends_user_drop {c : Exit} (hc : c.isDestructor = true) (s' : Maps K V) :
    Ends (user panics c) s' (fun _ s'' => Same s' s'')
      (Late panics s') := by
  unfold Ends user
  split
  · next h =>
    split at h <;> cases h
    exact ⟨rfl, rfl⟩
  · next h =>
    split at h
    · next hp =>
      cases h
      exact ⟨⟨hc, _, hp⟩, rfl, rfl⟩
    · cases h

omit [DecidableEq K] in
theorem ends_users_drop {cs : List Exit} (hc : ∀ c ∈ cs, c.isDestructor = true) (s' : Maps K V) :
    Ends (users panics cs) s' (fun _ s'' => Same s' s'')
      (Late panics s') := by
  induction cs generalizing s' with
  | nil => exact ⟨rfl, rfl⟩
  | cons c cs ih =>
    apply (ends_user_drop (hc _ List.mem_cons_self) s').bind
    intro _ s₁ h₁
    apply (ih (fun c h => hc c (List.mem_cons_of_mem _ h)) s₁).mono
    · intro _ s₂ h₂
      exact ⟨h₂.1.trans h₁.1, h₂.2.trans h₁.2⟩
    · intro c s₂ h₂
      exact ⟨h₂.1, h₂.2.1.trans h₁.1, h₂.2.2.trans h₁.2⟩

omit [DecidableEq K] in
theorem ends_dropMap (t : Table K V) (s' : Maps K V) :
    Ends (dropMap panics t) s' (fun _ s'' => Same s' s'')
      (Late panics s') := by
  apply ends_users_drop
  intro c hc
  obtain ⟨l, hl, hc⟩ := List.mem_flatten.mp hc
  rw [List.eq_of_mem_replicate hl] at hc
  simp only [List.mem_cons, List.not_mem_nil, or_false] at hc
  rcases hc with rfl | rfl <;> rfl

theorem Table.erase_of_lookup_none (h : t.entries.lookup k = none) : t.erase k = t := by
  obtain ⟨entries, capacity, fits⟩ := t
  unfold Table.erase
  congr
  exact Assoc.erase_of_lookup_none h

omit [DecidableEq K] in
theorem Moved.same [DecidableEq K] {s₁ s₂ : Maps K V} (h : Moved k s s₁) (hs : Same s₁ s₂) :
    Moved k s s₂ where
  found := h.found
  source := by rw [hs.2]; exact h.source
  active := by rw [hs.1]; exact h.active

/-- Before the commit nothing changes; after it only destructors are left. -/
theorem ends_promoteEntry (panics : Nat → Bool) (lib : Hashbrown K V) (k : K) (s : Maps K V) :
    Ends (promoteEntry panics lib k) s
      (fun _ s' => if (s.source.entries.lookup k).isSome then Moved k s s' else Same s s')
      fun c s' => (if c.isDestructor then Moved k s s' else Same s s') ∧ ∃ n, panics n = true := by
  have early : ∀ {c : Exit} {s' : Maps K V}, Early panics s c s' →
      (if c.isDestructor then Moved k s s' else Same s s') ∧ ∃ n, panics n = true := by
    intro c s' ⟨⟨hc, hn⟩, h⟩
    exact ⟨by simpa [hc] using h, hn⟩
  have late : ∀ {c : Exit} {s₁ s₂ : Maps K V}, Moved k s s₁ → Late panics s₁ c s₂ →
      (if c.isDestructor then Moved k s s₂ else Same s s₂) ∧ ∃ n, panics n = true := by
    intro c s₁ s₂ h₁ ⟨⟨hc, hn⟩, h⟩
    exact ⟨by simpa [hc] using h₁.same h, hn⟩
  change Ends (find panics lib s.source k >>= fun found => _) s _ _
  apply (quiet_find.ends.mono (fun _ _ h => h) fun _ _ h => early h).bind
  rintro found s₁ ⟨rfl, h₁⟩
  cases hv : s.source.entries.lookup k with
  | none => exact h₁
  | some v =>
    apply ((quiet_user rfl _ h₁).mono (fun _ _ h => h.2) fun _ _ h => early h).bind
    intro _ s₂ h₂
    apply ((quiet_prepare _ h₂).mono (fun _ _ h => h) fun _ _ h => early h).bind
    rintro staged s₃ ⟨⟨he, hroom⟩, h₃⟩
    apply ((quiet_find _ h₃).mono (fun _ _ h => h) fun _ _ h => early h).bind
    rintro destination s₄ ⟨rfl, h₄⟩
    apply ((ends_removeEntry h₄).mono (fun _ _ h => h) fun _ _ h => early h).bind
    rintro removed s₅ ⟨rfl, h₅⟩
    rw [hv, he]
    apply ((ends_fill (v := v) h₅ he hroom).mono (fun _ _ h => h) fun _ _ h => h.elim).bind
    rintro ⟨staged, retired⟩ s₆ ⟨hsrc, hact, -⟩
    -- the live map is replaced, and only destructors are left
    have hreplace : Ends (replaceActive panics staged) s₆ (fun _ s' => Moved k s s')
        fun c s' => (if c.isDestructor then Moved k s s' else Same s s') ∧
          ∃ n, panics n = true := by
      cases staged with
      | none => exact moved_of_filled hv hsrc hact
      | some map =>
        have hm : Moved k s { s₆ with active := map } := moved_of_filled hv hsrc hact
        change Ends (dropMap panics s₆.active) { s₆ with active := map } _ _
        exact (ends_dropMap _ _).mono (fun _ _ h => hm.same h) fun _ _ h => late hm h
    apply hreplace.bind
    intro _ s₇ h₇
    apply ((ends_user_drop rfl s₇).mono (fun _ _ h => h₇.same h) fun _ _ h => late h₇ h).bind
    intro _ s₈ h₈
    cases retired with
    | none => exact h₈
    | some x =>
      exact (ends_user_drop rfl s₈).mono (fun _ _ h => h₈.same h) fun _ _ h => late h₈ h

/-- `move_one` runs no destructor: it commits or leaves both maps alone. -/
theorem ends_moveOne (panics : Nat → Bool) (lib : Hashbrown K V) (k : K) (s : Maps K V) :
    Ends (moveOne panics lib k) s (fun _ s' => Moved k s s')
      fun c s' => c.isDestructor = false ∧ Same s s' ∧
        ((∃ n, panics n = true) ∨ s.source.entries.lookup k = none) := by
  have early : ∀ {c : Exit} {s' : Maps K V}, Early panics s c s' →
      c.isDestructor = false ∧ Same s s' ∧
        ((∃ n, panics n = true) ∨ s.source.entries.lookup k = none) := by
    intro c s' ⟨⟨hc, hn⟩, h⟩
    exact ⟨hc, h, .inl hn⟩
  apply ((quiet_user (c := .cloneKey) rfl).ends.mono (fun _ _ h => h.2) fun _ _ h => early h).bind
  intro _ s₁ h₁
  apply ((quiet_prepare _ h₁).mono (fun _ _ h => h) fun _ _ h => early h).bind
  rintro staged s₂ ⟨⟨he, hroom⟩, h₂⟩
  change Ends (find panics lib (staged.getD s₂.active) k >>= fun destination => _) s₂ _ _
  rw [h₂.1]
  apply ((quiet_find _ h₂).mono (fun _ _ h => h) fun _ _ h => early h).bind
  rintro destination s₃ ⟨rfl, h₃⟩
  apply ((ends_removeEntry h₃).mono (fun _ _ h => h) fun _ _ h => early h).bind
  rintro removed s₄ ⟨rfl, h₄⟩
  cases hv : s.source.entries.lookup k with
  | none =>
    exact ⟨rfl, ⟨h₄.active, h₄.source.trans (Table.erase_of_lookup_none hv)⟩, .inr rfl⟩
  | some v =>
    rw [he]
    apply ((ends_fill (v := v) h₄ he hroom).mono (fun _ _ h => h) fun _ _ h => h.elim).bind
    rintro ⟨staged, retired⟩ s₅ ⟨hsrc, hact, -⟩
    cases staged with
    | none => exact moved_of_filled hv hsrc hact
    | some map => exact (@moved_of_filled _ _ _ _ _ { s₅ with active := map }) hv hsrc hact

/-- Whatever unwinds, a stored entry stays stored, and in one map only. -/
theorem entry_kept {k : K} {s s' : Maps K V} (h : Same s s' ∨ Moved k s s') :
    ((s.active.entries.lookup k).isSome ∨ (s.source.entries.lookup k).isSome →
      (s'.active.entries.lookup k).isSome ∨ (s'.source.entries.lookup k).isSome) ∧
    ((s'.active.entries.lookup k).isSome → (s'.source.entries.lookup k).isSome →
      (s.active.entries.lookup k).isSome ∧ (s.source.entries.lookup k).isSome) := by
  rcases h with h | h
  · rw [h.1, h.2]
    exact ⟨fun h => h, fun ha hs => ⟨ha, hs⟩⟩
  · constructor
    · intro _
      rw [h.active k, if_pos rfl]
      cases s.active.entries.lookup k with
      | none => exact .inl h.found
      | some x => exact .inl rfl
    · intro _ hs
      simp [h.source k] at hs

/-- A user call that unwinds before the commit leaves both maps as they were; any other
end of a promotion or a migration step has moved the entry. -/
theorem promotion_all_or_nothing (panics : Nat → Bool) (lib : Hashbrown K V) (k : K)
    (s : Maps K V) :
    Ends (promoteEntry panics lib k) s
      (fun _ s' => if (s.source.entries.lookup k).isSome then Moved k s s' else Same s s')
      (fun c s' => (if c.isDestructor then Moved k s s' else Same s s') ∧ ∃ n, panics n = true) ∧
    Ends (moveOne panics lib k) s (fun _ s' => Moved k s s')
      (fun c s' => c.isDestructor = false ∧ Same s s' ∧
        ((∃ n, panics n = true) ∨ s.source.entries.lookup k = none)) ∧
    ∀ s', Same s s' ∨ Moved k s s' →
      ((s.active.entries.lookup k).isSome ∨ (s.source.entries.lookup k).isSome →
        (s'.active.entries.lookup k).isSome ∨ (s'.source.entries.lookup k).isSome) ∧
      ((s'.active.entries.lookup k).isSome → (s'.source.entries.lookup k).isSome →
        (s.active.entries.lookup k).isSome ∧ (s.source.entries.lookup k).isSome) :=
  ⟨ends_promoteEntry panics lib k s, ends_moveOne panics lib k s, fun _ h => entry_kept h⟩

end Outcome

end Starshard.Promotion
