import Starshard.Interleaving.Alone
import Starshard.Interleaving.Frame

/-! Serialization and deserialization of the synchronous map: the serialized form of a map
at rest, also one with a migration half done, is read back as the same entries. -/
namespace Starshard

open Data Concurrent
open Function (update)
open Locking (plainEnv plainLifecycle)

variable {K V : Type} [DecidableEq K] {env : Env K V} {L : Lifecycle K V}
  {s s' : State K V L.State} {a b : Abstract K V} {gs : Guards K V} {es : List (Event K V)}

section Deserializing

/-- What a sequence of entries leaves: later entries win. -/
def fill (c : Contents K V) (entries : List (K × V)) : Contents K V :=
  entries.foldl (fun c e => update c e.1 (some e.2)) c

theorem fill_eq (entries : List (K × V)) (c : Contents K V) (k : K) :
    fill c entries k = ((entries.reverse.find? fun e => e.1 = k).map Prod.snd).or (c k) := by
  induction entries generalizing c with
  | nil => rfl
  | cons e entries ih =>
    rw [fill, List.foldl_cons, List.reverse_cons, List.find?_append]
    refine (ih _).trans ?_
    cases (entries.reverse.find? fun e => e.1 = k) with
    | some x => rfl
    | none =>
      by_cases hk : k = e.1
      · simp [hk]
      · simp [hk, Ne.symm hk]

theorem fill_represents {entries : List (K × V)} {d : Contents K V} (h : Represents entries d) :
    fill (fun _ => none) entries = d := by
  funext k
  rw [fill_eq, Option.or_none]
  cases hf : entries.reverse.find? fun e => e.1 = k with
  | some e =>
    have hk : e.1 = k := by simpa using List.find?_some hf
    have hmem : (k, e.2) ∈ entries := hk ▸ List.mem_reverse.mp (List.mem_of_find?_eq_some hf)
    exact ((h.mem k e.2).mp hmem).symm
  | none =>
    cases hd : d k with
    | none => rfl
    | some v =>
      have hmem := List.mem_reverse.mpr ((h.mem k v).mpr hd)
      have := List.find?_eq_none.mp hf _ hmem
      simp at this

/-- The keys a list fills in, listed once. -/
theorem fill_length {entries items : List (K × V)}
    (h : Represents items (fill (fun _ => none) entries)) :
    items.length = (entries.map Prod.fst).dedup.length := by
  rw [← List.length_map (f := Prod.fst)]
  refine (List.perm_ext_iff_of_nodup h.nodup (List.nodup_dedup _)).mpr (fun k => ?_) |>.length_eq
  rw [List.mem_dedup]
  have hkey : (∃ v, fill (fun _ => none) entries k = some v) ↔ k ∈ entries.map Prod.fst := by
    rw [fill_eq, Option.or_none]
    constructor
    · rintro ⟨v, hv⟩
      obtain ⟨e, he, _⟩ := Option.map_eq_some_iff.mp hv
      have hk : e.1 = k := by simpa using List.find?_some he
      exact List.mem_map.mpr ⟨e, List.mem_reverse.mp (List.mem_of_find?_eq_some he), hk⟩
    · intro hk
      obtain ⟨e, he, hk⟩ := List.mem_map.mp hk
      have hsome : (entries.reverse.find? fun e => e.1 = k).isSome := by
        rw [List.find?_isSome]
        exact ⟨e, List.mem_reverse.mpr he, by simpa using hk⟩
      obtain ⟨x, hx⟩ := Option.isSome_iff_exists.mp hsome
      exact ⟨x.2, by rw [hx]; rfl⟩
  rw [← hkey]
  constructor
  · intro hk
    obtain ⟨⟨_, v⟩, hv, rfl⟩ := List.mem_map.mp hk
    exact ⟨v, (h.mem _ v).mp hv⟩
  · rintro ⟨v, hv⟩
    exact List.mem_map.mpr ⟨(k, v), (h.mem k v).mpr hv, rfl⟩

theorem insert_alone (hsync : env.awaits = false) (hev : env.eviction = none)
    (hs : Rests env.hash s a) {k : K} {v : V} {r : Option V}
    (he : Exec (semantics env L) (Sync.insert env k v) s [] r s' gs) :
    gs = [] ∧ s'.shardCount = s.shardCount ∧ s'.previous = s.previous ∧
      ∃ b, Rests env.hash s' b ∧ b.contents = update a.contents k (some v) := by
  have hanswer : Exec (semantics env L) (Sync.answer env (.insert k v)) s [] (.value r) s' gs :=
    he.bind .done
  obtain ⟨hgs, b, hb⟩ := inserts_alone hsync hev hs hanswer
  have hframe := Framed.exec
    ((Framed.insert hev k v).obeys (Φ := fun _ _ => True) fun _ => trivial) he
  exact ⟨hgs, hframe.2.1, hframe.2.2, b, hb⟩

theorem insertEntries_alone (hsync : env.awaits = false) (hev : env.eviction = none)
    (entries : List (K × V)) : ∀ {s : State K V L.State} {a : Abstract K V}, Rests env.hash s a →
      (∃ s' gs, Exec (semantics env L) (Sync.insertEntries env entries) s [] () s' gs) ∧
      ∀ s' gs, Exec (semantics env L) (Sync.insertEntries env entries) s [] () s' gs →
        gs = [] ∧ s'.shardCount = s.shardCount ∧ s'.previous = s.previous ∧
          ∃ b, Rests env.hash s' b ∧ b.contents = fill a.contents entries := by
  induction entries with
  | nil =>
    intro s a hs
    refine ⟨⟨s, [], .done⟩, fun s' gs he => ?_⟩
    obtain ⟨_, rfl, rfl⟩ := he.done_inv
    exact ⟨rfl, rfl, rfl, a, hs, rfl⟩
  | cons e entries ih =>
    intro s a hs
    constructor
    · obtain ⟨r, s₁, gs₁, hanswer⟩ := returns_alone (L := L) (.insert e.1 e.2) hsync hs rfl
      obtain ⟨old, s₁, gs₁, he, _⟩ := Exec.of_bind hanswer
      obtain ⟨rfl, _, _, b, hb, _⟩ := insert_alone hsync hev hs he
      obtain ⟨⟨s₂, gs₂, hrest⟩, _⟩ := ih hb
      exact ⟨s₂, gs₂, he.bind hrest⟩
    · intro s' gs he
      obtain ⟨old, s₁, gs₁, he, hrest⟩ := Exec.of_bind he
      obtain ⟨rfl, hcount, hprev, b, hb, hcontents⟩ := insert_alone hsync hev hs he
      obtain ⟨hgs, hcount', hprev', c, hc, hcontents'⟩ := (ih hb).2 s' gs hrest
      exact ⟨hgs, hcount'.trans hcount, hprev'.trans hprev, c, hc, by
        rw [hcontents', hcontents]
        rfl⟩

omit [DecidableEq K] in
theorem count_eq (repr : Sync.ShardedMapRepr K V) :
    repr.count = min (normalizedShardCount repr.shardCount) MAX_SHARDS := by
  have hnormal : ∀ n, normalizedShardCount (normalizedShardCount n) = normalizedShardCount n :=
    fun n => if_neg (normalizedShardCount_pos n).ne'
  show min (normalizedShardCount (normalizedShardCount (normalizedShardCount repr.shardCount))) _ = _
  rw [hnormal, hnormal]

omit [DecidableEq K] in
theorem count_pos (repr : Sync.ShardedMapRepr K V) : 0 < repr.count := by
  rw [count_eq]
  exact lt_min (normalizedShardCount_pos _) (by decide)

/-- The map `s` is deserialized from a representation. -/
def Deserialized (L : Lifecycle K V) (hash : K → Nat) (valueEq : V → V → Bool) (life : L.State)
    (repr : Sync.ShardedMapRepr K V) (s : State K V L.State) : Prop :=
  ∃ gs, Exec (semantics (Sync.defaultEnv hash valueEq) L)
    (Sync.insertEntries (Sync.defaultEnv hash valueEq) repr.entries) (repr.empty life) [] () s gs

/-- The entries of a representation are inserted into a new map. -/
theorem fills_alone (hash : K → Nat) (valueEq : V → V → Bool) (life : L.State)
    (repr : Sync.ShardedMapRepr K V) :
    (∃ s, Deserialized L hash valueEq life repr s) ∧
      ∀ s gs, Exec (semantics (Sync.defaultEnv hash valueEq) L)
        (Sync.insertEntries (Sync.defaultEnv hash valueEq) repr.entries)
        (repr.empty life) [] () s gs →
        gs = [] ∧ s.shardCount = repr.count ∧ s.previous = none ∧
          ∃ b, Rests hash s b ∧ b.contents = fill (fun _ => none) repr.entries := by
  have hnew : Rests (Sync.defaultEnv (V := V) hash valueEq).hash (repr.empty life)
      (Abstract.new K V) := Rests.new (count_pos repr) life
  exact insertEntries_alone rfl rfl repr.entries hnew

variable {hash : K → Nat} {valueEq : V → V → Bool} {life : L.State}
  {repr : Sync.ShardedMapRepr K V} {m : State K V L.State}

theorem Deserialized.rests (h : Deserialized L hash valueEq life repr m) :
    (∃ b, Rests hash m b) ∧ m.contents hash = fill (fun _ => none) repr.entries ∧
      m.shardCount = min (normalizedShardCount repr.shardCount) MAX_SHARDS ∧
      m.previous = none := by
  obtain ⟨gs, he⟩ := h
  obtain ⟨_, hcount, hprev, b, hb, hcontents⟩ := (fills_alone hash valueEq life repr).2 m gs he
  exact ⟨⟨b, hb⟩, hb.contents.symm.trans hcontents, hcount.trans (count_eq repr), hprev⟩

theorem Deserialized.last_listed (h : Deserialized L hash valueEq life repr m) (k : K) :
    m.contents hash k = (repr.entries.reverse.find? fun e => e.1 = k).map Prod.snd := by
  rw [h.rests.2.1, fill_eq, Option.or_none]

theorem Deserialized.length (h : Deserialized L hash valueEq life repr m) :
    m.totalLen = (repr.entries.map Prod.fst).dedup.length := by
  obtain ⟨⟨b, hb⟩, hfill, -⟩ := h.rests
  rw [hb.length]
  exact fill_length (hfill ▸ hb.represents)

/-- Any representation is deserialized, whatever its shard count and however often it lists
a key: the map holds the last listed value of each key, its length is the number of distinct
keys, its shard count is normalized and capped, and no migration is in progress. -/
theorem deserializes (hash : K → Nat) (valueEq : V → V → Bool) (life : L.State)
    (repr : Sync.ShardedMapRepr K V) :
    (∃ s, Deserialized L hash valueEq life repr s) ∧
      ∀ s, Deserialized L hash valueEq life repr s → s.WellFormed hash ∧
        (∀ k, s.contents hash k = (repr.entries.reverse.find? fun e => e.1 = k).map Prod.snd) ∧
        s.totalLen = (repr.entries.map Prod.fst).dedup.length ∧
        s.shardCount = min (normalizedShardCount repr.shardCount) MAX_SHARDS ∧
        s.previous = none := by
  refine ⟨(fills_alone hash valueEq life repr).1, fun s h => ?_⟩
  obtain ⟨⟨b, hb⟩, -, hcount, hprev⟩ := h.rests
  exact ⟨hb.wellFormed, h.last_listed, h.length, hcount, hprev⟩

end Deserializing

section Serializing

omit [DecidableEq K] in
theorem Framed.mapM {α β : Type} {f : α → Prog K V β} (hf : ∀ x, Framed (f x)) (xs : List α) :
    Framed (xs.mapM f) := Discipline.Neutral.mapM hf xs

omit [DecidableEq K] in
/-- What a builder does after it has read the active directory. -/
theorem captured_shardCount (active : Slots) :
    (framing K V).Obeys (do
      let (epoch, shardCount, shards) ← (do
        let previous : Option Slots ← act .previous
        let shards := allocatedShards active ++ allocatedShards (previous.getD [])
        Sync.lockAllShared shards
        let epoch : Nat ← act .writeEpoch
        let contents ← shards.mapM Sync.copyShard
        Sync.unlockAll shards
        act (.unlock .previous)
        act (.unlock .active)
        act (.unlock .routing)
        return (epoch, active.length, contents) : Prog K V (Nat × Nat × List (List (K × V))))
      act (.unlock .builder)
      return (⟨shards, epoch, shardCount⟩ : Sync.SnapshotView K V)) () fun view _ =>
        view.shardCount = active.length := by
  have hlocks : ∀ ids : List Nat, Framed (K := K) (V := V) (Sync.lockAllShared ids) := fun ids =>
    (Framed.mapM (f := fun id => (act (.lock (.shard id) .shared) : Prog K V Unit))
      (fun _ => Framed.act rfl) ids).bind fun _ => .done _
  have hunlocks : ∀ ids : List Nat, Framed (K := K) (V := V) (Sync.unlockAll ids) := fun ids =>
    (Framed.mapM (f := fun id => (act (.unlock (.shard id)) : Prog K V Unit))
      (fun _ => Framed.act rfl) ids).bind fun _ => .done _
  have hcopy : ∀ id : Nat, Framed (K := K) (V := V) (Sync.copyShard id) := fun id =>
    (Framed.act rfl).bind fun _ => (Framed.act rfl).bind fun _ => .done _
  refine .bind ((Framed.act rfl).seq fun (previous : Option Slots) => (hlocks _).seq fun _ =>
    (Framed.act rfl).seq fun _ => (Framed.mapM hcopy _).seq fun _ => (hunlocks _).seq fun _ =>
    (Framed.act rfl).seq fun _ => (Framed.act rfl).seq fun _ => (Framed.act rfl).seq fun _ => ?_)
  exact (Framed.act rfl).seq fun _ => rfl

theorem snapshotView_shardCount {view : Sync.SnapshotView K V} {gs' : Guards K V}
    (he : Exec (semantics env L) Sync.snapshotView s gs view s' gs') :
    view.shardCount = s.shards.length := by
  obtain ⟨_, s₁, gs₁, ⟨_, rfl, rfl⟩, he⟩ := he.step_inv
  obtain ⟨_, s₂, gs₂, ⟨_, rfl, rfl⟩, he⟩ := he.step_inv
  obtain ⟨_, s₃, gs₃, ⟨_, rfl, rfl⟩, he⟩ := he.step_inv
  obtain ⟨_, s₄, gs₄, ⟨_, rfl, rfl⟩, he⟩ := he.step_inv
  obtain ⟨active, s₅, gs₅, ⟨rfl, rfl, rfl⟩, he⟩ := he.step_inv
  exact (Framed.exec (captured_shardCount _) he).1

/-- The data of a view is copied from every shard, and belongs to the map's contents. -/
theorem serialize_view {repr : Sync.ShardedMapRepr K V} {n : Nat} {gs' : Guards K V}
    (he : Exec (semantics env L) Sync.serialize s gs (repr, n) s' gs') :
    ∃ view : Sync.SnapshotView K V, Exec (semantics env L) Sync.snapshotView s gs view s' gs' ∧
      repr = ⟨view.shardCount, view.items⟩ ∧ n = view.len := by
  obtain ⟨view, s₁, gs₁, hview, hdone⟩ := Exec.of_bind he
  obtain ⟨heq, rfl, rfl⟩ := hdone.done_inv
  cases heq
  exact ⟨view, hview, rfl, rfl⟩

/-- The form `repr`, announced with `n` entries, is that of the map `s`: it lists the contents
and the shard count of `s`, and any hasher reads them back, the count capped. -/
structure Forms (L : Lifecycle K V) (hash : K → Nat) (s : State K V L.State)
    (repr : Sync.ShardedMapRepr K V) (n : Nat) : Prop where
  entries : Represents repr.entries (s.contents hash)
  length : n = repr.entries.length
  shardCount : repr.shardCount = s.shardCount
  back : ∀ (hash' : K → Nat) (valueEq : V → V → Bool) (life : L.State) m,
    Deserialized L hash' valueEq life repr m → m.contents hash' = s.contents hash ∧
      m.totalLen = n ∧ m.shardCount = min s.shardCount MAX_SHARDS ∧ m.previous = none

theorem Forms.of {hash : K → Nat} {repr : Sync.ShardedMapRepr K V} {n : Nat}
    (hrep : Represents repr.entries (s.contents hash)) (hn : n = repr.entries.length)
    (hcount : repr.shardCount = s.shardCount) (hpos : 0 < s.shardCount) :
    Forms L hash s repr n where
  entries := hrep
  length := hn
  shardCount := hcount
  back hash' valueEq life m hm := by
    obtain ⟨⟨b, hb⟩, hfill, hshards, hprev⟩ := hm.rests
    have hsame : m.contents hash' = s.contents hash := hfill.trans (fill_represents hrep)
    have hlisted : Represents m.entries (s.contents hash) := hsame ▸ hb.represents
    refine ⟨hsame, ?_, ?_, hprev⟩
    · rw [hn, hb.length]
      exact hlisted.length_eq hrep
    · rw [hshards, hcount, normalizedShardCount, if_neg hpos.ne']

/-- Serialized alone, a map at rest gives its form, and is as it was. -/
theorem forms_alone (hsync : env.awaits = false) (hs : Rests env.hash s a) :
    (∃ repr n s' gs, Exec (semantics env L) Sync.serialize s [] (repr, n) s' gs) ∧
      ∀ repr n s' gs, Exec (semantics env L) Sync.serialize s [] (repr, n) s' gs →
        Forms L env.hash s repr n ∧ n = s.totalLen ∧
        s'.contents env.hash = s.contents env.hash := by
  constructor
  · obtain ⟨r, s', gs, he⟩ := returns_alone (L := L) .snapshotView hsync hs rfl
    obtain ⟨view, s₁, gs₁, he, _⟩ := Exec.of_bind he
    exact ⟨_, _, s₁, gs₁, he.bind .done⟩
  · intro repr n s' gs he
    obtain ⟨view, hview, rfl, rfl⟩ := serialize_view he
    have hcount : view.shardCount = s.shardCount :=
      (snapshotView_shardCount hview).trans hs.wellFormed.length
    obtain ⟨hd, hkeep⟩ := views_alone hsync hs hview
    rw [hs.contents] at hd
    have hlen : view.len = view.items.length := (List.length_flatten ..).symm
    refine ⟨.of hd hlen hcount hs.wellFormed.count_pos, ?_, hkeep⟩
    rw [hlen, hs.length]
    exact hd.length_eq hs.represents

/-- A map at rest, in the middle of a migration or not, is serialized, and the form reads
back as the same entries under any hasher: the announced length is the number of entries,
the shard count is the active one, capped, and the copy is not migrating. -/
theorem serialization_round_trip (hsync : env.awaits = false) (hs : Rests env.hash s a) :
    (∃ repr n s' gs, Exec (semantics env L) Sync.serialize s [] (repr, n) s' gs) ∧
      ∀ repr n s' gs, Exec (semantics env L) Sync.serialize s [] (repr, n) s' gs →
        n = repr.entries.length ∧ repr.shardCount = s.shardCount ∧
        s'.contents env.hash = s.contents env.hash ∧
        ∀ (hash : K → Nat) (valueEq : V → V → Bool) (life : L.State) t,
          Deserialized L hash valueEq life repr t →
            t.contents hash = s.contents env.hash ∧ t.totalLen = s.totalLen ∧
            t.shardCount = min s.shardCount MAX_SHARDS ∧ t.previous = none := by
  obtain ⟨hreturns, hforms⟩ := forms_alone hsync hs
  refine ⟨hreturns, fun repr n s' gs he => ?_⟩
  obtain ⟨hf, hlen, hkeep⟩ := hforms repr n s' gs he
  exact ⟨hf.length, hf.shardCount, hkeep, fun hash valueEq life t ht => hlen ▸ hf.back _ _ _ t ht⟩

theorem serialization_round_trip_migrating : ∃ (s s' : State Nat Nat plainLifecycle.State)
    (repr : Sync.ShardedMapRepr Nat Nat) (n : Nat) (gs : Guards Nat Nat)
    (t : State Nat Nat plainLifecycle.State), s.previous.isSome ∧
      s.contents cachingEnv.hash 1 = some 2 ∧ s.contents cachingEnv.hash 2 = some 5 ∧
      Exec (semantics cachingEnv plainLifecycle) Sync.serialize s [] (repr, n) s' gs ∧
      n = repr.entries.length ∧
      Deserialized plainLifecycle (fun _ => 0) (fun x y => decide (x = y)) () repr t ∧
      t.contents (fun _ => 0) = s.contents cachingEnv.hash ∧ t.totalLen = s.totalLen ∧
      t.previous = none := by
  obtain ⟨a, hs⟩ := halfway_rests
  obtain ⟨hprev, h₁, h₂⟩ := halfway_migrates
  obtain ⟨⟨repr, n, s', gs, he⟩, hall⟩ := serialization_round_trip rfl hs
  obtain ⟨hn, -, -, hback⟩ := hall repr n s' gs he
  obtain ⟨t, ht⟩ := (fills_alone (L := plainLifecycle) (fun _ => 0) (fun x y => decide (x = y)) ()
    repr).1
  obtain ⟨hcontents, hlen, -, hrest⟩ := hback _ _ _ t ht
  exact ⟨_, s', repr, n, gs, t, hprev, h₁, h₂, he, hn, ht, hcontents, hlen, hrest⟩

end Serializing

end Starshard
