import Starshard.Foreground.Agreement

/-! What is done to an ordinary map, and the counters that tell it. -/
namespace Starshard.Foreground

open Data
open Worker (Tables Shards slot)
open Migration (Flavor)

/-- What an operation does to one key; a removal may find nothing. -/
inductive Event (K V : Type) where
  | read
  | write (k : K) (v : V)
  | drop (k : K)
  | evict (k : K)

/-- An ordinary map and the number of reads, of writes, of writes that created a key, and
of entries that were removed or evicted. -/
structure Ledger (K V : Type) where
  contents : FiniteMap K V
  gets : Nat
  writes : Nat
  created : Nat
  removed : Nat
  evicted : Nat

variable {K V : Type} [DecidableEq K]

namespace Ledger

def new (K V : Type) : Ledger K V := ⟨∅, 0, 0, 0, 0, 0⟩

def post (l : Ledger K V) : Event K V → Ledger K V
  | .read => { l with gets := l.gets + 1 }
  | .write k v => { l with
      contents := l.contents.insert k v
      writes := l.writes + 1
      created := countNew (l.contents.lookup k) l.created }
  | .drop k => { l with
      contents := l.contents.erase k
      removed := countGone (l.contents.lookup k) l.removed }
  | .evict k => { l with
      contents := l.contents.erase k
      evicted := countGone (l.contents.lookup k) l.evicted }

def postAll (l : Ledger K V) (events : List (Event K V)) : Ledger K V := events.foldl post l

theorem postAll_append (l : Ledger K V) (es es' : List (Event K V)) :
    l.postAll (es ++ es') = (l.postAll es).postAll es' := List.foldl_append

/-- Every key was created, and is there until it is removed or evicted. -/
def Balanced (l : Ledger K V) : Prop :=
  l.contents.keys.card + l.removed + l.evicted = l.created

theorem card_insert (c : FiniteMap K V) (k : K) (v : V) :
    (c.insert k v).keys.card = countNew (c.lookup k) c.keys.card := by
  have hkeys : (c.insert k v).keys = Insert.insert k c.keys := by
    refine Finset.ext fun k' => ?_
    rw [Finmap.mem_keys, Finmap.mem_insert, Finset.mem_insert, Finmap.mem_keys]
  rw [hkeys]
  unfold countNew
  split
  · next hk =>
    rw [Finset.insert_eq_of_mem (Finmap.mem_keys.mpr (Finmap.lookup_isSome.mp hk))]
  · next hk =>
    exact Finset.card_insert_of_notMem fun hm =>
      hk (Finmap.lookup_isSome.mpr (Finmap.mem_keys.mp hm))

theorem card_erase (c : FiniteMap K V) (k : K) :
    countGone (c.lookup k) (c.erase k).keys.card = c.keys.card := by
  rw [Finmap.keys_erase]
  unfold countGone
  split
  · next hk =>
    exact Finset.card_erase_add_one (Finmap.mem_keys.mpr (Finmap.lookup_isSome.mp hk))
  · next hk =>
    rw [Finset.erase_eq_of_notMem fun hm =>
      hk (Finmap.lookup_isSome.mpr (Finmap.mem_keys.mp hm))]

omit [DecidableEq K] in
theorem countNew_add (old : Option V) (n : Nat) : countNew old n = n + countNew old 0 := by
  unfold countNew
  split <;> omega

omit [DecidableEq K] in
theorem countGone_add (old : Option V) (n : Nat) : countGone old n = n + countGone old 0 := by
  unfold countGone
  split <;> omega

theorem Balanced.post {l : Ledger K V} (h : l.Balanced) (e : Event K V) :
    (l.post e).Balanced := by
  unfold Balanced at h ⊢
  cases e with
  | read => exact h
  | write k v =>
    have hc := card_insert l.contents k v
    rw [countNew_add] at hc
    simp only [Ledger.post]
    rw [countNew_add, hc]
    omega
  | drop k | evict k =>
    have hc := card_erase l.contents k
    rw [countGone_add] at hc
    simp only [Ledger.post]
    rw [countGone_add]
    omega

theorem Balanced.postAll {l : Ledger K V} (h : l.Balanced) (es : List (Event K V)) :
    (l.postAll es).Balanced := by
  induction es generalizing l with
  | nil => exact h
  | cons e es ih => exact ih (h.post e)

theorem postAll_reads (n : Nat) : ∀ l : Ledger K V,
    l.postAll (List.replicate n .read) = { l with gets := l.gets + n } := by
  induction n with
  | zero => exact fun _ => rfl
  | succ n ih =>
    intro l
    refine (ih _).trans ?_
    simp only [post]
    rw [Nat.add_assoc, Nat.add_comm 1 n]

theorem postAll_writes (es : List (K × V)) : ∀ l : Ledger K V,
    (∀ k, (l.postAll (es.map fun e => .write e.1 e.2)).contents.lookup k =
      Foreground.writes es (fun k' => l.contents.lookup k') k) ∧
    ∃ created, l.postAll (es.map fun e => .write e.1 e.2) = { l with
      contents := (l.postAll (es.map fun e => .write e.1 e.2)).contents
      writes := l.writes + es.length
      created := created } := by
  induction es with
  | nil => exact fun l => ⟨fun _ => rfl, l.created, rfl⟩
  | cons e es ih =>
    intro l
    obtain ⟨hl, created, heq⟩ := ih (l.post (.write e.1 e.2))
    have hd : (fun k' => (l.post (.write e.1 e.2)).contents.lookup k') =
        Function.update (fun k' => l.contents.lookup k') e.1 (some e.2) := by
      refine funext fun k => ?_
      by_cases hk : k = e.1
      · rw [hk, Function.update_self]
        exact Finmap.lookup_insert _
      · rw [Function.update_of_ne hk]
        exact Finmap.lookup_insert_of_ne _ hk
    refine ⟨fun k => ?_, created, heq.trans ?_⟩
    · rw [writes_cons, ← hd]
      exact hl k
    · simp only [post, List.map_cons, List.length_cons]
      rw [Nat.add_assoc, Nat.add_comm 1]
      rfl

theorem postAll_drops (ks : List K) : ∀ l : Ledger K V,
    (∀ k, (l.postAll (ks.map .drop)).contents.lookup k =
      if k ∈ ks then none else l.contents.lookup k) ∧
    ∃ removed, l.postAll (ks.map .drop) = { l with
      contents := (l.postAll (ks.map .drop)).contents
      removed := removed } := by
  induction ks with
  | nil => exact fun l => ⟨fun k => (if_neg (by simp)).symm, l.removed, rfl⟩
  | cons k ks ih =>
    intro l
    obtain ⟨hl, removed, heq⟩ := ih (l.post (.drop k))
    refine ⟨fun k' => (hl k').trans ?_, removed, heq⟩
    by_cases hk : k' = k
    · rw [hk, if_pos List.mem_cons_self]
      split
      · rfl
      · exact Finmap.lookup_erase _ _
    · rw [show (l.post (.drop k)).contents.lookup k' = l.contents.lookup k' from
        Finmap.lookup_erase_ne hk]
      simp [hk]

end Ledger

/-- The ledger of a map whose counters are those of the ledger, modulo `2 ^ 64`. -/
structure Books (l : Ledger K V) (t : Tables K V) (m : Metrics) : Prop where
  contents : l.contents = contents t
  inserts : m.inserts = UInt64.ofNat l.writes
  removes : m.removes = UInt64.ofNat l.removed
  evictions : m.evictions = UInt64.ofNat l.evicted
  gets : m.gets = UInt64.ofNat l.gets
  reads : m.hits + m.misses = m.gets
  balanced : l.Balanced

namespace Books

variable {l : Ledger K V} {t t' : Tables K V} {m : Metrics}

theorem congr (h : Books l t m) (hc : Foreground.contents t' = Foreground.contents t) :
    Books l t' m := { h with contents := h.contents.trans hc.symm }

theorem write (h : Books l t m) {k : K} {v : V}
    (hc : Foreground.contents t' = (Foreground.contents t).insert k v) :
    Books (l.post (.write k v)) t' (m.count .inserts) where
  contents := by
    rw [hc, ← h.contents]
    rfl
  inserts := (congrArg (· + 1) h.inserts).trans (UInt64.ofNat_add ..).symm
  removes := h.removes
  evictions := h.evictions
  gets := h.gets
  reads := h.reads
  balanced := h.balanced.post _

theorem read (h : Books l t m) (hit : Bool) :
    Books (l.post .read) t ((m.count .gets).count (if hit then .hits else .misses)) where
  contents := h.contents
  inserts := by cases hit <;> exact h.inserts
  removes := by cases hit <;> exact h.removes
  evictions := by cases hit <;> exact h.evictions
  gets := by cases hit <;> exact (congrArg (· + 1) h.gets).trans (UInt64.ofNat_add ..).symm
  reads := by
    cases hit with
    | true =>
      refine Eq.trans ?_ (congrArg (· + 1) h.reads)
      change m.hits + 1 + m.misses = m.hits + m.misses + 1
      ac_rfl
    | false => exact (UInt64.add_assoc ..).symm.trans (congrArg (· + 1) h.reads)
  balanced := h.balanced

theorem drop (h : Books l t m) {k : K}
    (hc : Foreground.contents t' = (Foreground.contents t).erase k) :
    Books (l.post (.drop k)) t'
      (countRemoves (countGone ((Foreground.contents t).lookup k) 0) m) where
  contents := by
    rw [hc, ← h.contents]
    rfl
  inserts := h.inserts
  removes := by
    rw [← h.contents]
    simp only [countRemoves, Ledger.post, h.removes, countGone]
    split <;> simp
  evictions := h.evictions
  gets := h.gets
  reads := h.reads
  balanced := h.balanced.post _

theorem evict (h : Books l t m) {k : K} (hk : ((Foreground.contents t).lookup k).isSome)
    (hc : Foreground.contents t' = (Foreground.contents t).erase k) :
    Books (l.post (.evict k)) t' (m.count .evictions) where
  contents := by
    rw [hc, ← h.contents]
    rfl
  inserts := h.inserts
  removes := h.removes
  evictions := by
    rw [← h.contents] at hk
    simp only [Ledger.post, countGone, if_pos hk]
    exact (congrArg (· + 1) h.evictions).trans (UInt64.ofNat_add ..).symm
  gets := h.gets
  reads := h.reads
  balanced := h.balanced.post _

theorem readAll (h : Books l t m) {hits misses n : Nat} (hn : hits + misses = n) :
    Books (l.postAll (List.replicate n .read)) t (countReads hits misses m) := by
  rw [Ledger.postAll_reads]
  exact {
    contents := h.contents
    inserts := h.inserts
    removes := h.removes
    evictions := h.evictions
    gets := by
      simp only [countReads, h.gets, hn, UInt64.ofNat_add]
    reads := by
      simp only [countReads, UInt64.ofNat_add, ← h.reads]
      ac_rfl
    balanced := h.balanced }

theorem writeAll (h : Books l t m) (es : List (K × V))
    (hc : ∀ k, (Foreground.contents t').lookup k =
      writes es (fun k' => (Foreground.contents t).lookup k') k) :
    Books (l.postAll (es.map fun e => .write e.1 e.2)) t'
      { m with inserts := m.inserts + UInt64.ofNat es.length } := by
  obtain ⟨hl, created, heq⟩ := l.postAll_writes es
  have hb := h.balanced.postAll (es.map fun e => .write e.1 e.2)
  have hcontents : (l.postAll (es.map fun e => .write e.1 e.2)).contents =
      Foreground.contents t' := Finmap.ext_lookup fun k => by
    rw [hl, hc, h.contents]
  rw [heq] at hb ⊢
  exact {
    contents := hcontents
    inserts := by rw [h.inserts, UInt64.ofNat_add]
    removes := h.removes
    evictions := h.evictions
    gets := h.gets
    reads := h.reads
    balanced := hb }

/-- Several removals: the number of entries tells how many of them found one. -/
theorem dropAll (h : Books l t m) (ks : List K) {n : Nat}
    (hc : ∀ k, (Foreground.contents t').lookup k =
      if k ∈ ks then none else (Foreground.contents t).lookup k)
    (hn : (Foreground.contents t').keys.card + n = (Foreground.contents t).keys.card) :
    Books (l.postAll (ks.map .drop)) t' (countRemoves n m) := by
  obtain ⟨hl, removed, heq⟩ := l.postAll_drops ks
  have hb := h.balanced.postAll (ks.map .drop)
  have hcontents : (l.postAll (ks.map .drop)).contents = Foreground.contents t' :=
    Finmap.ext_lookup fun k => by rw [hl, hc, h.contents]
  have hold := h.balanced
  have hremoved : l.removed + n = removed := by
    unfold Ledger.Balanced at hb hold
    rw [h.contents] at hold
    rw [hcontents, heq] at hb
    dsimp only at hb
    omega
  rw [heq] at hb ⊢
  exact {
    contents := hcontents
    inserts := h.inserts
    removes := by rw [← hremoved, UInt64.ofNat_add, ← h.removes]; rfl
    evictions := h.evictions
    gets := h.gets
    reads := h.reads
    balanced := hb }

end Books
end Starshard.Foreground
