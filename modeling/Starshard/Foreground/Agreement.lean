import Starshard.Foreground.Refinement

/-! A batch is its operations one at a time. -/
namespace Starshard.Foreground

open Data
open Migration (Flavor)

variable {K V : Type} [DecidableEq K] {hash : K → Nat} {s : Live K V}

/-- Two calls that return one count and leave one map, length and set of counters. -/
structure Alike (a b : Nat × Live K V) : Prop where
  count : a.1 = b.1
  contents : contents a.2.map.tables = contents b.2.map.tables
  len : a.2.map.totalLen = b.2.map.totalLen
  metrics : a.2.metrics = b.2.metrics

theorem Inserted.alike {es es' : List (K × V)} {a b : Nat × Live K V}
    (ha : Inserted hash es' (0, s) a) (hb : Inserted hash es (0, s) b)
    (hlen : es'.length = es.length)
    (hes : ∀ k, (es'.filter fun e => e.1 = k) = es.filter fun e => e.1 = k) : Alike a b := by
  have hf (k : K) : a.2.find hash k = b.2.find hash k := by
    rw [ha.find, hb.find]
    exact writes_congr rfl (hes k)
  have hl : a.2.map.totalLen = b.2.map.totalLen := hb.edited.held.len_congr ha.edited.held hf
  refine ⟨?_, contents_congr hb.edited.held.placed ha.edited.held.placed hf, hl, ?_⟩
  · have := ha.count
    have := hb.count
    omega
  · rw [ha.metrics, hb.metrics, hlen]

theorem Removed.alike {ks ks' : List K} {a b : Nat × Live K V}
    (ha : Removed hash ks' (0, s) a) (hb : Removed hash ks (0, s) b) (hp : ks'.Perm ks) :
    Alike a b := by
  have hf (k : K) : a.2.find hash k = b.2.find hash k := by
    rw [ha.find, hb.find]
    exact if_congr hp.mem_iff rfl rfl
  have hl : a.2.map.totalLen = b.2.map.totalLen := hb.edited.held.len_congr ha.edited.held hf
  have hc : a.1 = b.1 := by
    have := ha.count
    have := hb.count
    omega
  refine ⟨hc, contents_congr hb.edited.held.placed ha.edited.held.placed hf, hl, ?_⟩
  rw [ha.metrics, hb.metrics, hc]

section Get

omit [DecidableEq K] in
theorem mem_positions {keys : List K} {e : Nat × K} :
    e ∈ positions keys ↔ keys[e.1]? = some e.2 := by
  unfold positions
  rw [List.mem_map]
  constructor
  · rintro ⟨x, hx, rfl⟩
    exact List.mem_zipIdx_iff_getElem?.mp hx
  · exact fun he => ⟨e.swap, List.mem_zipIdx_iff_getElem?.mpr he, rfl⟩

omit [DecidableEq K] in
theorem positions_snd (keys : List K) : (positions keys).map Prod.snd = keys := by
  unfold positions
  rw [List.map_map]
  exact List.zipIdx_map_fst ..

def getEach (hash : K → Nat) (keys : List K) (s : Live K V) : Live K V :=
  keys.foldl (fun s k => (get hash k s).2) s

theorem getOne_foldl (ks : List (Nat × K)) :
    ∀ acc : List (Option V) × Live K V,
      (ks.foldl (getOne hash) acc).2 = getEach hash (ks.map Prod.snd) acc.2 := by
  induction ks with
  | nil => exact fun _ => rfl
  | cons e ks ih => exact fun acc => ih (getOne hash acc e)

omit [DecidableEq K] in
theorem Got.result {d : K → Option V} {keys : List K} {ks : List (Nat × K)}
    {r : List (Option V) × Live K V} (h : Got d ks (List.replicate keys.length none, s) r)
    (hp : ks.Perm (positions keys)) : r.1 = keys.map d := by
  have hblank := Agrees.blank (keys.map d)
  rw [List.length_map] at hblank
  refine (h.results (keys.map d) [] (fun e he => ?_) hblank).eq fun p hlt => ?_
  · rw [List.getElem?_map, mem_positions.mp (hp.mem_iff.mp he)]
    rfl
  · rw [List.length_map] at hlt
    refine List.mem_append_right _ (List.mem_map.mpr ⟨(p, keys[p]), ?_, rfl⟩)
    exact hp.mem_iff.mpr (mem_positions.mpr (List.getElem?_eq_getElem hlt))

theorem Held.batchGet (h : Held hash s) (flavor : Flavor) {order : List Nat} {keys : List K}
    (ho : order.Perm (Data.bucketize (fun e => s.index hash e.2) (positions keys)).keys) :
    ∃ ks, Got (s.find hash) ks (List.replicate keys.length none, s)
      (batchGet hash flavor order keys s) ∧ ks.Perm (positions keys) := by
  unfold Foreground.batchGet
  cases hm : s.migrating flavor with
  | true => exact ⟨_, got_all h _ rfl, .refl _⟩
  | false => exact ⟨_, got_buckets (h.stable hm) _ order rfl, grouped_order ho⟩

end Get

/-- In every state of a map of either type, whatever the order in which the buckets are
visited, a batch counts, leaves and returns what its operations do from left to right. -/
theorem batches_match_single_operations {flavor : Flavor} {mode : SnapshotMode}
    (hs : Reachable hash flavor mode s.map) :
    (∀ order entries, order.Perm (Data.bucketize (fun e => s.index hash e.1) entries).keys →
      Alike (batchInsert hash flavor order entries s) (entries.foldl (insertOne hash) (0, s))) ∧
    (∀ order keys, order.Perm (Data.bucketize (fun k => s.index hash k) keys).keys →
      Alike (batchRemove hash flavor mode order keys s)
        (keys.foldl (removeOne hash flavor mode) (0, s))) ∧
    ∀ order keys,
      order.Perm (Data.bucketize (fun e => s.index hash e.2) (positions keys)).keys →
      (batchGet hash flavor order keys s).1 = keys.map (fun k => (get hash k s).1) ∧
      (batchGet hash flavor order keys s).2.map = s.map ∧
      (batchGet hash flavor order keys s).2.metrics = (getEach hash keys s).metrics := by
  have h : Held hash s := hs.held s.metrics
  refine ⟨fun order entries ho => ?_, fun order keys ho => ?_, fun order keys ho => ?_⟩
  · obtain ⟨es', hi, hlen, hes⟩ := h.batchInsert flavor ho
    exact hi.alike (inserted_all entries h) hlen hes
  · obtain ⟨ks', hr, hp⟩ := h.batchRemove flavor mode ho
    exact hr.alike (removed_all flavor mode keys h) hp
  · obtain ⟨ks, hg, hp⟩ := h.batchGet flavor ho
    have hone : Got (s.find hash) (positions keys) (List.replicate keys.length none, s)
        ((positions keys).foldl (getOne hash) (List.replicate keys.length none, s)) :=
      got_all h (positions keys) rfl
    have hget : (fun k => (get hash k s).1) = s.find hash := by
      refine funext fun k => ?_
      rw [(refines_get h k).1, Ordinary.get, h.lookup]
    refine ⟨?_, hg.map, ?_⟩
    · rw [hget]
      exact hg.result hp
    · have hone := hone.metrics
      rw [getOne_foldl, positions_snd] at hone
      rw [hg.metrics, hone, hp.countP_eq, hp.countP_eq]

/-- Duplicates in a batch on a growing map. -/
theorem batches_match_single_operations_spreading :
    Alike (batchInsert id .sync [1, 0] [(1, 7), (4, 8), (1, 9)]
        ⟨Migration.spreading, ⟨0, 0, 0, 0, 0, 0⟩⟩)
      ([(1, 7), (4, 8), (1, 9)].foldl (insertOne id)
        (0, ⟨Migration.spreading, ⟨0, 0, 0, 0, 0, 0⟩⟩)) :=
  (batches_match_single_operations (s := ⟨Migration.spreading, ⟨0, 0, 0, 0, 0, 0⟩⟩)
    (.of_migration (Migration.spreading_reachable .sync) .cow)).1 [1, 0]
      [(1, 7), (4, 8), (1, 9)] (by decide)

end Starshard.Foreground
