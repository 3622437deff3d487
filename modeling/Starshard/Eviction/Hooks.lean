import Starshard.Eviction.Victims

/-! What each hook does with the entries of the metadata, whatever the history. -/
namespace Starshard.Eviction

variable {K : Type} [DecidableEq K] {fx : K → Nat}

/-! ### Entries of a list without repeated keys -/

omit [DecidableEq K] in
theorem entry_ext {es : List (Entry K)} (hn : (es.map Entry.key).Nodup) {x y : Entry K}
    (hx : x ∈ es) (hy : y ∈ es) (h : x.key = y.key) : x = y :=
  List.inj_on_of_nodup_map hn hx hy h

theorem mem_rewrite {es : List (Entry K)} {k : K} {f : Entry K → Entry K} {y : Entry K} :
    y ∈ es.map (fun x => if x.key = k then f x else x) ↔
      (y ∈ es ∧ y.key ≠ k) ∨ ∃ x ∈ es, x.key = k ∧ y = f x := by
  rw [List.mem_map]
  constructor
  · intro ⟨x, hx, he⟩
    by_cases hk : x.key = k
    · rw [if_pos hk] at he
      exact .inr ⟨x, hx, hk, he.symm⟩
    · rw [if_neg hk] at he
      subst he
      exact .inl ⟨hx, hk⟩
  · intro h
    cases h with
    | inl h => exact ⟨y, h.1, if_neg h.2⟩
    | inr h =>
      obtain ⟨x, hx, hk, he⟩ := h
      exact ⟨x, hx, by rw [if_pos hk, he]⟩

theorem keys_rewrite (es : List (Entry K)) (k : K) {f : Entry K → Entry K}
    (hf : ∀ x, (f x).key = x.key) :
    (es.map fun x => if x.key = k then f x else x).map Entry.key = es.map Entry.key := by
  rw [List.map_map]
  apply List.map_congr_left
  intro x _
  simp only [Function.comp]
  split
  · exact hf x
  · rfl

omit [DecidableEq K] in
theorem mem_eraseP_sole {es : List (Entry K)} {p : Entry K → Bool} (hn : es.Nodup)
    (hu : ∀ x ∈ es, ∀ y ∈ es, p x = true → p y = true → x = y) (z : Entry K) :
    z ∈ es.eraseP p ↔ z ∈ es ∧ p z = false := by
  induction es with
  | nil => simp
  | cons a es ih =>
    have hna := List.nodup_cons.mp hn
    have ih' := ih hna.2 fun x hx y hy =>
      hu x (List.mem_cons_of_mem a hx) y (List.mem_cons_of_mem a hy)
    cases hp : p a with
    | true =>
      rw [List.eraseP_cons_of_pos hp]
      constructor
      · intro hz
        refine ⟨List.mem_cons_of_mem a hz, ?_⟩
        by_contra hpz
        have hpz' : p z = true := by simpa using hpz
        have haz := hu a List.mem_cons_self z (List.mem_cons_of_mem a hz) hp hpz'
        exact hna.1 (haz ▸ hz)
      · intro ⟨hz, hpz⟩
        refine (List.mem_cons.mp hz).resolve_left fun he => ?_
        rw [he, hp] at hpz
        exact absurd hpz (by simp)
    | false =>
      rw [List.eraseP_cons_of_neg (by simp [hp]), List.mem_cons, List.mem_cons, ih']
      constructor
      · intro h
        cases h with
        | inl h => exact ⟨.inl h, h ▸ hp⟩
        | inr h => exact ⟨.inr h.1, h.2⟩
      · intro ⟨h, hpz⟩
        exact h.imp id fun h => ⟨h, hpz⟩

/-! ### Hooks -/

inductive Hook (K : Type) where
  | insert (k : K) (weight : Nat) (replaced : Bool)
  | read (k : K) (hit : Bool)
  | remove (k : K)
  | evict (c : EvictionCandidate K)
  | mutation
  /-- A ticket is dropped without `finish`. -/
  | markDirty
  | reconcile (items : List (K × Nat))

def Hook.apply (fx : K → Nat) (e : Engine K) : Hook K → Engine K
  | .insert k weight replaced => e.recordInsert fx k weight replaced
  | .read k hit => e.recordRead fx k hit
  | .remove k => e.recordRemove fx k
  | .evict c => e.recordEviction fx c
  | .mutation => e.mutation
  | .markDirty => e.markDirty
  | .reconcile items => e.reconcile fx items

namespace Engine

variable {e : Engine K} {k : K}

theorem find?_of_mem (hn : (e.entries.map Entry.key).Nodup) {x : Entry K} (hx : x ∈ e.entries) :
    e.find? fx x.key = some x := by
  obtain ⟨y, hy⟩ := Option.isSome_iff_exists.mp
    ((find?_isSome fx).mpr (List.mem_map_of_mem (f := Entry.key) hx))
  have hfound := find?_eq_some hy
  rw [hy, entry_ext hn hfound.1 hx hfound.2]

theorem find?_eq_none : e.find? fx k = none ↔ ∀ x ∈ e.entries, x.key ≠ k := by
  rw [← Option.not_isSome_iff_eq_none, find?_isSome, List.mem_map]
  constructor
  · intro h x hx hk
    exact h ⟨x, hx, hk⟩
  · intro h ⟨x, hx, hk⟩
    exact h x hx hk

omit [DecidableEq K] in
theorem drop_fields (n : Nat) (p : Entry K → Bool) :
    (e.drop fx n p).sequence = e.sequence ∧ (e.drop fx n p).epoch = e.epoch ∧
      (e.drop fx n p).dirtyEpoch = e.dirtyEpoch ∧
      (e.drop fx n p).repairedEpoch = e.repairedEpoch := by
  unfold drop
  split <;> exact ⟨rfl, rfl, rfl, rfl⟩

omit [DecidableEq K] in
theorem drop_sublist (n : Nat) (p : Entry K → Bool) :
    (e.drop fx n p).entries.Sublist e.entries := by
  unfold drop
  split
  · exact List.Sublist.refl _
  · exact List.eraseP_sublist

omit [DecidableEq K] in
theorem mem_drop {n : Nat} {p : Entry K → Bool} (hn : e.entries.Nodup)
    (hu : ∀ x ∈ e.entries, ∀ y ∈ e.entries, p x = true → p y = true → x = y) (z : Entry K) :
    z ∈ (e.drop fx n p).entries ↔ z ∈ e.entries ∧ ¬ (fx z.key = n ∧ p z = true) := by
  unfold drop
  split
  · next hf =>
    have hnone := List.find?_eq_none.mp hf
    constructor
    · intro hz
      refine ⟨hz, fun hp => hnone z ?_ hp.2⟩
      exact List.mem_filter.mpr ⟨hz, decide_eq_true hp.1⟩
    · exact fun hz => hz.1
  · next x hf =>
    rw [mem_eraseP_sole hn]
    · simp
    · intro a ha b hb hpa hpb
      simp only [Bool.and_eq_true] at hpa hpb
      exact hu a ha b hb hpa.2 hpb.2

theorem mem_recordRemove (hn : (e.entries.map Entry.key).Nodup) (z : Entry K) :
    z ∈ (e.recordRemove fx k).entries ↔ z ∈ e.entries ∧ z.key ≠ k := by
  have hm := (@mem_drop _ fx { e with metrics := e.metrics.count .removes } (fx k)
    (fun x => decide (x.key = k))) (List.Nodup.of_map Entry.key hn)
    (fun x hx y hy hpx hpy => entry_ext hn hx hy
      ((of_decide_eq_true hpx).trans (of_decide_eq_true hpy).symm)) z
  refine hm.trans (and_congr_right fun _ => not_congr ?_)
  constructor
  · exact fun h => of_decide_eq_true h.2
  · intro h
    exact ⟨congrArg fx h, decide_eq_true h⟩

/-- Entries that share a stamp have one key. -/
def Distinct (f : Entry K → Nat) (e : Engine K) : Prop :=
  ∀ x ∈ e.entries, ∀ y ∈ e.entries, f x = f y → x.key = y.key

def Below (f : Entry K → Nat) (e : Engine K) : Prop := ∀ x ∈ e.entries, f x < e.sequence

omit [DecidableEq K] in
theorem mem_recordEviction {c : EvictionCandidate K} (hn : (e.entries.map Entry.key).Nodup)
    (hd : e.Distinct Entry.incarnation) (z : Entry K) :
    z ∈ (e.recordEviction fx c).entries ↔
      z ∈ e.entries ∧ ¬ (fx z.key = c.hash ∧ z.incarnation = c.incarnation) := by
  have hm := (@mem_drop _ fx { e with metrics := e.metrics.count .evictions } c.hash
    (fun x => decide (x.incarnation = c.incarnation))) (List.Nodup.of_map Entry.key hn)
    (fun x hx y hy hpx hpy => entry_ext hn hx hy
      (hd x hx y hy ((of_decide_eq_true hpx).trans (of_decide_eq_true hpy).symm))) z
  simp only [decide_eq_true_eq] at hm
  exact hm

def written (fx : K → Nat) (e : Engine K) (k : K) (weight : Nat) (replaced : Bool) : Entry K :=
  match e.find? fx k with
  | some x => refresh e.sequence weight replaced x
  | none => .fresh k e.sequence weight

theorem written_key (w : Nat) (b : Bool) : (written fx e k w b).key = k := by
  unfold written
  split
  · next x hx =>
    unfold refresh
    split <;> exact (find?_eq_some hx).2
  · rfl

theorem written_stamps (w : Nat) (b : Bool) :
    (written fx e k w b).incarnation = e.sequence ∧ (written fx e k w b).accessed = e.sequence := by
  unfold written
  split
  · unfold refresh
    split <;> exact ⟨rfl, rfl⟩
  · exact ⟨rfl, rfl⟩

omit [DecidableEq K] in
theorem refresh_key (n w : Nat) (b : Bool) (x : Entry K) : (refresh n w b x).key = x.key := by
  unfold refresh
  split <;> rfl

theorem mem_recordInsert (hn : (e.entries.map Entry.key).Nodup) (w : Nat) (b : Bool) (z : Entry K) :
    z ∈ (e.recordInsert fx k w b).entries ↔
      (z ∈ e.entries ∧ z.key ≠ k) ∨ z = written fx e k w b := by
  have hfind : ({ e with
      metrics := e.metrics.count .inserts
      sequence := wrapping (e.sequence + 1) } : Engine K).find? fx k = e.find? fx k := rfl
  unfold recordInsert written
  simp only [hfind]
  cases h : e.find? fx k with
  | some x =>
    have hx := find?_eq_some h
    simp only [mem_rewrite]
    refine or_congr_right ?_
    constructor
    · rintro ⟨y, hy, hk, he⟩
      rw [he, entry_ext hn hy hx.1 (hk.trans hx.2.symm)]
    · intro he
      exact ⟨x, hx.1, hx.2, he⟩
  | none =>
    simp only [List.mem_append, List.mem_singleton]
    refine or_congr_left ?_
    exact ⟨fun hz => ⟨hz, find?_eq_none.mp h z hz⟩, fun hz => hz.1⟩

theorem nodup_recordInsert (hn : (e.entries.map Entry.key).Nodup) (w : Nat) (b : Bool) :
    ((e.recordInsert fx k w b).entries.map Entry.key).Nodup := by
  have hfind : ({ e with
      metrics := e.metrics.count .inserts
      sequence := wrapping (e.sequence + 1) } : Engine K).find? fx k = e.find? fx k := rfl
  unfold recordInsert
  simp only [hfind]
  cases h : e.find? fx k with
  | some x =>
    simp only [keys_rewrite _ _ (refresh_key e.sequence w b)]
    exact hn
  | none =>
    have hnot := find?_eq_none.mp h
    simp only [List.map_append, List.map_singleton]
    apply List.nodup_append.mpr
    refine ⟨hn, List.nodup_singleton _, fun a ha b hb hab => ?_⟩
    obtain ⟨x, hx, he⟩ := List.mem_map.mp ha
    exact hnot x hx (he.trans (hab.trans (List.mem_singleton.mp hb)))

theorem recordInsert_fields (w : Nat) (b : Bool) :
    (e.recordInsert fx k w b).sequence = wrapping (e.sequence + 1) ∧
      (e.recordInsert fx k w b).epoch = e.epoch ∧
      (e.recordInsert fx k w b).dirtyEpoch = e.dirtyEpoch ∧
      (e.recordInsert fx k w b).repairedEpoch = e.repairedEpoch := by
  unfold recordInsert
  dsimp only
  split <;> exact ⟨rfl, rfl, rfl, rfl⟩

theorem mem_recordRead (b : Bool) (z : Entry K) :
    z ∈ (e.recordRead fx k b).entries ↔
      if b then (z ∈ e.entries ∧ z.key ≠ k) ∨
        ∃ x ∈ e.entries, x.key = k ∧ z = touch e.sequence x
      else z ∈ e.entries := by
  cases b with
  | false => rfl
  | true =>
    have hfind : ({ e with metrics := (e.metrics.count .gets).count .hits } : Engine K).find? fx k =
        e.find? fx k := rfl
    unfold recordRead
    simp only [Bool.not_true, Bool.false_eq_true, if_false, if_true, hfind]
    cases h : e.find? fx k with
    | some x => exact mem_rewrite
    | none =>
      have hnot := find?_eq_none.mp h
      constructor
      · intro hz
        exact .inl ⟨hz, hnot z hz⟩
      · intro hz
        cases hz with
        | inl hz => exact hz.1
        | inr hz =>
          obtain ⟨x, hx, hk, -⟩ := hz
          exact absurd hk (hnot x hx)

theorem nodup_recordRead (hn : (e.entries.map Entry.key).Nodup) (b : Bool) :
    ((e.recordRead fx k b).entries.map Entry.key).Nodup := by
  cases b with
  | false => exact hn
  | true =>
    have hfind : ({ e with metrics := (e.metrics.count .gets).count .hits } : Engine K).find? fx k =
        e.find? fx k := rfl
    unfold recordRead
    simp only [Bool.not_true, Bool.false_eq_true, if_false, hfind]
    cases h : e.find? fx k with
    | some x =>
      simp only [keys_rewrite _ _ fun y => show (touch e.sequence y).key = y.key from rfl]
      exact hn
    | none => exact hn

theorem recordRead_fields (b : Bool) :
    (e.recordRead fx k b).epoch = e.epoch ∧
      (e.recordRead fx k b).dirtyEpoch = e.dirtyEpoch ∧
      (e.recordRead fx k b).repairedEpoch = e.repairedEpoch := by
  unfold recordRead
  dsimp only
  split
  · exact ⟨rfl, rfl, rfl⟩
  · split <;> exact ⟨rfl, rfl, rfl⟩

theorem recordRead_sequence {b : Bool}
    (hn : b = true → (e.find? fx k).isSome → e.sequence + 1 < 2 ^ 64) :
    (e.recordRead fx k b).sequence = e.sequence ∨
      (e.recordRead fx k b).sequence = e.sequence + 1 ∧ e.sequence + 1 < 2 ^ 64 := by
  cases b with
  | false => exact .inl rfl
  | true =>
    have hfind : ({ e with metrics := (e.metrics.count .gets).count .hits } : Engine K).find? fx k =
        e.find? fx k := rfl
    unfold recordRead
    simp only [Bool.not_true, Bool.false_eq_true, if_false, hfind]
    cases h : e.find? fx k with
    | none => exact .inl rfl
    | some x =>
      have hlt := hn rfl (by rw [h, Option.isSome_some])
      exact .inr ⟨wrapping_of_lt hlt, hlt⟩

theorem recordRead_stamp {x : Entry K} (hx : x ∈ e.entries)
    (hn : (e.find? fx x.key).isSome → e.sequence + 1 < 2 ^ 64) :
    (e.recordRead fx x.key true).sequence = e.sequence + 1 := by
  have hfind : ({ e with metrics := (e.metrics.count .gets).count .hits } : Engine K).find? fx x.key =
      e.find? fx x.key := rfl
  have hsome := (find?_isSome fx).mpr (List.mem_map_of_mem (f := Entry.key) hx)
  obtain ⟨y, hy⟩ := Option.isSome_iff_exists.mp hsome
  unfold recordRead
  simp only [Bool.not_true, Bool.false_eq_true, if_false, hfind, hy]
  exact wrapping_of_lt (hn hsome)

/-! ### Repair -/

def staged (fx : K → Nat) (e : Engine K) (stamp : Nat) (item : K × Nat) : Entry K :=
  match e.find? fx item.1 with
  | none => .fresh item.1 stamp item.2
  | some old => ⟨item.1, stamp, old.inserted, old.accessed, old.frequency, item.2⟩

def stagedAll (fx : K → Nat) (e : Engine K) : Nat → List (K × Nat) → List (Entry K)
  | _, [] => []
  | n, item :: items => staged fx e n item :: stagedAll fx e (n + 1) items

theorem foldl_rebuild (items : List (K × Nat)) : ∀ (acc : List (Entry K)) (n : Nat),
    n + items.length < 2 ^ 64 →
    items.foldl (e.rebuild fx) (acc, n) = (acc ++ stagedAll fx e n items, n + items.length) := by
  induction items with
  | nil => intro acc n _; simp [stagedAll]
  | cons item items ih =>
    intro acc n hn
    rw [List.length_cons] at hn ⊢
    have hstep : e.rebuild fx (acc, n) item = (acc ++ [staged fx e n item], wrapping (n + 1)) := rfl
    rw [List.foldl_cons, hstep, wrapping_of_lt (by omega), ih _ _ (by omega), stagedAll,
      List.append_assoc]
    simp only [List.singleton_append, Prod.mk.injEq, true_and]
    omega

theorem reconcile_entries {items : List (K × Nat)} (hn : e.sequence + items.length < 2 ^ 64) :
    (e.reconcile fx items).entries = stagedAll fx e e.sequence items ∧
      (e.reconcile fx items).sequence = e.sequence + items.length := by
  unfold reconcile
  rw [foldl_rebuild items _ _ hn]
  exact ⟨List.nil_append _, rfl⟩

theorem staged_key (n : Nat) (item : K × Nat) : (staged fx e n item).key = item.1 := by
  unfold staged
  split <;> rfl

theorem staged_incarnation (n : Nat) (item : K × Nat) :
    (staged fx e n item).incarnation = n := by
  unfold staged
  split <;> rfl

theorem stagedAll_keys (items : List (K × Nat)) : ∀ n,
    (stagedAll fx e n items).map Entry.key = items.map Prod.fst := by
  induction items with
  | nil => intro n; rfl
  | cons item items ih =>
    intro n
    simp only [stagedAll, List.map_cons, staged_key, ih]

theorem mem_stagedAll {items : List (K × Nat)} {y : Entry K} : ∀ {n : Nat},
    y ∈ stagedAll fx e n items →
      ∃ item ∈ items, y = staged fx e y.incarnation item ∧ n ≤ y.incarnation ∧
        y.incarnation < n + items.length := by
  induction items with
  | nil => intro n h; exact absurd h List.not_mem_nil
  | cons item items ih =>
    intro n h
    rw [stagedAll, List.mem_cons] at h
    cases h with
    | inl h =>
      have hinc : y.incarnation = n := by rw [h, staged_incarnation]
      refine ⟨item, List.mem_cons_self, by rw [hinc, h], by omega, ?_⟩
      rw [hinc, List.length_cons]
      omega
    | inr h =>
      obtain ⟨item', hi, hy, hle, hlt⟩ := ih h
      refine ⟨item', List.mem_cons_of_mem _ hi, hy, by omega, ?_⟩
      rw [List.length_cons]
      omega

theorem stagedAll_distinct (items : List (K × Nat)) : ∀ n, ∀ x ∈ stagedAll fx e n items,
    ∀ y ∈ stagedAll fx e n items, x.incarnation = y.incarnation → x = y := by
  induction items with
  | nil => intro n x hx; exact absurd hx List.not_mem_nil
  | cons item items ih =>
    intro n x hx y hy h
    rw [stagedAll, List.mem_cons] at hx hy
    cases hx with
    | inl hx =>
      cases hy with
      | inl hy => rw [hx, hy]
      | inr hy =>
        obtain ⟨-, -, -, hle, -⟩ := mem_stagedAll hy
        rw [hx, staged_incarnation] at h
        omega
    | inr hx =>
      cases hy with
      | inl hy =>
        obtain ⟨-, -, -, hle, -⟩ := mem_stagedAll hx
        rw [hy, staged_incarnation] at h
        omega
      | inr hy => exact ih (n + 1) x hx y hy h

/-! ### Stamps are unique over every history -/

variable {e' : Engine K} {f : Entry K → Nat}

/-- One key changes its entry; its stamp is new or the one it had. -/
def Own (f : Entry K → Nat) (e e' : Engine K) (y : Entry K) : Prop :=
  f y = e.sequence ∧ e.sequence < e'.sequence ∨ ∃ x ∈ e.entries, x.key = y.key ∧ f x = f y

omit [DecidableEq K] in
theorem Distinct.update (hd : e.Distinct f) (hb : e.Below f)
    (frame : ∀ y ∈ e'.entries, y.key ≠ k → y ∈ e.entries)
    (own : ∀ y ∈ e'.entries, y.key = k → Own f e e' y) : e'.Distinct f := by
  -- an entry of `k` shares its stamp with no other entry
  have hown : ∀ x ∈ e'.entries, ∀ y ∈ e'.entries, x.key = k → y.key ≠ k → f x ≠ f y := by
    intro x hx y hy hxk hyk h
    have hy' := frame y hy hyk
    cases own x hx hxk with
    | inl hnew =>
      have hlt := hb y hy'
      omega
    | inr hold =>
      obtain ⟨z, hz, hzk, hfz⟩ := hold
      have hkey := hd z hz y hy' (hfz.trans h)
      exact hyk (hkey.symm.trans (hzk.trans hxk))
  intro x hx y hy h
  by_cases hxk : x.key = k
  · by_cases hyk : y.key = k
    · exact hxk.trans hyk.symm
    · exact absurd h (hown x hx y hy hxk hyk)
  · by_cases hyk : y.key = k
    · exact absurd h.symm (hown y hy x hx hyk hxk)
    · exact hd x (frame x hx hxk) y (frame y hy hyk) h

omit [DecidableEq K] in
theorem Below.update (hb : e.Below f) (hs : e.sequence ≤ e'.sequence)
    (frame : ∀ y ∈ e'.entries, y.key ≠ k → y ∈ e.entries)
    (own : ∀ y ∈ e'.entries, y.key = k → Own f e e' y) : e'.Below f := by
  intro y hy
  by_cases hyk : y.key = k
  · cases own y hy hyk with
    | inl hnew => omega
    | inr hold =>
      obtain ⟨x, hx, -, hfx⟩ := hold
      have hlt := hb x hx
      omega
  · have hlt := hb y (frame y hy hyk)
    omega

/-- What holds of the metadata in every history. -/
structure Sane (e : Engine K) : Prop where
  keys : (e.entries.map Entry.key).Nodup
  incarnations : e.Distinct Entry.incarnation
  inserted : e.Distinct Entry.inserted
  accessed : e.Distinct Entry.accessed
  incarnation_lt : e.Below Entry.incarnation
  inserted_lt : e.Below Entry.inserted
  accessed_lt : e.Below Entry.accessed
  epochs : e.repairedEpoch ≤ e.dirtyEpoch

omit [DecidableEq K] in
theorem Sane.update (sn : e.Sane) (hn : (e'.entries.map Entry.key).Nodup)
    (hs : e.sequence ≤ e'.sequence)
    (frame : ∀ y ∈ e'.entries, y.key ≠ k → y ∈ e.entries)
    (own : ∀ y ∈ e'.entries, y.key = k →
      Own Entry.incarnation e e' y ∧ Own Entry.inserted e e' y ∧ Own Entry.accessed e e' y)
    (he : e'.repairedEpoch ≤ e'.dirtyEpoch) : e'.Sane where
  keys := hn
  incarnations := sn.incarnations.update sn.incarnation_lt frame fun y hy hk => (own y hy hk).1
  inserted := sn.inserted.update sn.inserted_lt frame fun y hy hk => (own y hy hk).2.1
  accessed := sn.accessed.update sn.accessed_lt frame fun y hy hk => (own y hy hk).2.2
  incarnation_lt := sn.incarnation_lt.update hs frame fun y hy hk => (own y hy hk).1
  inserted_lt := sn.inserted_lt.update hs frame fun y hy hk => (own y hy hk).2.1
  accessed_lt := sn.accessed_lt.update hs frame fun y hy hk => (own y hy hk).2.2
  epochs := he

omit [DecidableEq K] in
theorem Sane.sublist (sn : e.Sane) (hl : e'.entries.Sublist e.entries)
    (hs : e'.sequence = e.sequence) (hd : e'.dirtyEpoch = e.dirtyEpoch)
    (hr : e'.repairedEpoch = e.repairedEpoch) : e'.Sane where
  keys := sn.keys.sublist (hl.map _)
  incarnations x hx y hy := sn.incarnations x (hl.subset hx) y (hl.subset hy)
  inserted x hx y hy := sn.inserted x (hl.subset hx) y (hl.subset hy)
  accessed x hx y hy := sn.accessed x (hl.subset hx) y (hl.subset hy)
  incarnation_lt x hx := hs ▸ sn.incarnation_lt x (hl.subset hx)
  inserted_lt x hx := hs ▸ sn.inserted_lt x (hl.subset hx)
  accessed_lt x hx := hs ▸ sn.accessed_lt x (hl.subset hx)
  epochs := by
    rw [hd, hr]
    exact sn.epochs

theorem Sane.insert (sn : e.Sane) (hn : e.sequence + 1 < 2 ^ 64) (w : Nat) (b : Bool) :
    (e.recordInsert fx k w b).Sane := by
  obtain ⟨hs, -, hd, hr⟩ := (@recordInsert_fields _ _ fx e k) w b
  rw [wrapping_of_lt hn] at hs
  have hlt : e.sequence < (e.recordInsert fx k w b).sequence := by omega
  apply sn.update (k := k) (nodup_recordInsert sn.keys w b) (Nat.le_of_lt hlt)
  · intro y hy hk
    exact ((mem_recordInsert sn.keys w b y).mp hy).elim (·.1) fun h =>
      absurd (h ▸ written_key w b) hk
  · intro y hy hk
    have hy' := ((mem_recordInsert sn.keys w b y).mp hy).resolve_left fun h => h.2 hk
    subst hy'
    obtain ⟨hinc, hacc⟩ := (@written_stamps _ _ fx e k) w b
    refine ⟨.inl ⟨hinc, hlt⟩, ?_, .inl ⟨hacc, hlt⟩⟩
    unfold written at *
    split at hk
    · next x hx =>
      have hfound := find?_eq_some hx
      cases b with
      | true => exact .inr ⟨x, hfound.1, rfl, rfl⟩
      | false => exact .inl ⟨rfl, hlt⟩
    · exact .inl ⟨rfl, hlt⟩
  · rw [hd, hr]
    exact sn.epochs

theorem Sane.read (sn : e.Sane) {b : Bool}
    (hn : b = true → (e.find? fx k).isSome → e.sequence + 1 < 2 ^ 64) :
    (e.recordRead fx k b).Sane := by
  obtain ⟨-, hd, hr⟩ := (@recordRead_fields _ _ fx e k) b
  have hs := recordRead_sequence hn
  cases b with
  | false =>
    exact sn.sublist (List.Sublist.refl _) rfl rfl rfl
  | true =>
    apply sn.update (k := k) (nodup_recordRead sn.keys true) (by omega)
    · intro y hy hk
      have hy' := (mem_recordRead true y).mp hy
      rw [if_pos rfl] at hy'
      cases hy' with
      | inl h => exact h.1
      | inr h =>
        obtain ⟨x, -, hxk, he⟩ := h
        rw [he] at hk
        exact absurd hxk hk
    · intro y hy hk
      have hy' := (mem_recordRead true y).mp hy
      rw [if_pos rfl] at hy'
      obtain ⟨x, hx, hxk, he⟩ := hy'.resolve_left fun h => h.2 hk
      subst hxk he
      have hseq := recordRead_stamp hx (hn rfl)
      have hacc : max x.accessed e.sequence = e.sequence :=
        Nat.max_eq_right (Nat.le_of_lt (sn.accessed_lt x hx))
      exact ⟨.inr ⟨x, hx, rfl, rfl⟩, .inr ⟨x, hx, rfl, rfl⟩, .inl ⟨hacc, by omega⟩⟩
    · rw [hd, hr]
      exact sn.epochs

theorem staged_stamp (f : Entry K → Nat) (hf : f = Entry.inserted ∨ f = Entry.accessed)
    (n : Nat) (item : K × Nat) : f (staged fx e n item) = n ∨
      ∃ x ∈ e.entries, x.key = (staged fx e n item).key ∧ f x = f (staged fx e n item) := by
  rw [staged_key]
  unfold staged
  split
  · obtain rfl | rfl := hf
    · exact .inl rfl
    · exact .inl rfl
  · next x hx =>
    have hfound := find?_eq_some hx
    obtain rfl | rfl := hf
    · exact .inr ⟨x, hfound.1, hfound.2, rfl⟩
    · exact .inr ⟨x, hfound.1, hfound.2, rfl⟩

theorem Sane.reconcile (sn : e.Sane) {items : List (K × Nat)} (hi : (items.map Prod.fst).Nodup)
    (hn : e.sequence + items.length < 2 ^ 64) : (e.reconcile fx items).Sane := by
  obtain ⟨hent, hseq⟩ := (@reconcile_entries _ _ fx e) hn
  -- an entry's stamp is the one it draws here, or that of the old entry of its key
  have hcase : ∀ f : Entry K → Nat, (f = Entry.inserted ∨ f = Entry.accessed) →
      ∀ y ∈ (e.reconcile fx items).entries, (f y = y.incarnation ∧ e.sequence ≤ y.incarnation ∧
        y.incarnation < e.sequence + items.length) ∨
        ∃ x ∈ e.entries, x.key = y.key ∧ f x = f y := by
    intro f hf y hy
    rw [hent] at hy
    obtain ⟨item, -, he, hle, hlt⟩ := mem_stagedAll hy
    have hst := (@staged_stamp _ _ fx e) f hf y.incarnation item
    rw [← he] at hst
    exact hst.imp (fun h => ⟨h, hle, hlt⟩) id
  have hdist : ∀ f : Entry K → Nat, (f = Entry.inserted ∨ f = Entry.accessed) → e.Distinct f →
      e.Below f → (e.reconcile fx items).Distinct f := by
    intro f hf hd hb x hx y hy h
    cases hcase f hf x hx with
    | inl hx' =>
      cases hcase f hf y hy with
      | inl hy' =>
        rw [hent] at hx hy
        exact congrArg Entry.key (stagedAll_distinct items _ x hx y hy
          (hx'.1.symm.trans (h.trans hy'.1)))
      | inr hy' =>
        obtain ⟨z, hz, -, hfz⟩ := hy'
        have hlt := hb z hz
        omega
    | inr hx' =>
      obtain ⟨z, hz, hzk, hfz⟩ := hx'
      cases hcase f hf y hy with
      | inl hy' =>
        have hlt := hb z hz
        omega
      | inr hy' =>
        obtain ⟨u, hu, huk, hfu⟩ := hy'
        exact hzk.symm.trans ((hd z hz u hu (hfz.trans (h.trans hfu.symm))).trans huk)
  have hbelow : ∀ f : Entry K → Nat, (f = Entry.inserted ∨ f = Entry.accessed) → e.Below f →
      (e.reconcile fx items).Below f := by
    intro f hf hb y hy
    rw [hseq]
    cases hcase f hf y hy with
    | inl h => omega
    | inr h =>
      obtain ⟨z, hz, -, hfz⟩ := h
      have hlt := hb z hz
      omega
  constructor
  · rw [hent, stagedAll_keys]
    exact hi
  · intro x hx y hy h
    rw [hent] at hx hy
    exact congrArg Entry.key (stagedAll_distinct items _ x hx y hy h)
  · exact hdist _ (.inl rfl) sn.inserted sn.inserted_lt
  · exact hdist _ (.inr rfl) sn.accessed sn.accessed_lt
  · intro y hy
    rw [hent] at hy
    obtain ⟨-, -, -, -, hlt⟩ := mem_stagedAll hy
    rw [hseq]
    exact hlt
  · exact hbelow _ (.inl rfl) sn.inserted_lt
  · exact hbelow _ (.inr rfl) sn.accessed_lt
  · exact Nat.le_refl _

omit [DecidableEq K] in
theorem Sane.new : (Engine.new K).Sane := by
  constructor
  · exact List.nodup_nil
  all_goals first
    | exact Nat.le_refl _
    | exact fun x hx => absurd hx List.not_mem_nil

end Engine

/-- `reconcile` gets each live key once. -/
def Hook.Proper : Hook K → Prop
  | .reconcile items => (items.map Prod.fst).Nodup
  | _ => True

/-! ### Counters that do not wrap -/

/-- The hook advances no counter past 64 bits. -/
def Hook.Room (fx : K → Nat) (e : Engine K) : Hook K → Prop
  | .insert .. => e.sequence + 1 < 2 ^ 64
  | .read k hit => hit = true → (e.find? fx k).isSome → e.sequence + 1 < 2 ^ 64
  | .markDirty => e.dirtyEpoch + 1 < 2 ^ 64
  | .reconcile items => e.sequence + items.length < 2 ^ 64 ∧ e.epoch + 1 < 2 ^ 64
  | _ => True

theorem Hook.Room.advances {e : Engine K} {h : Hook K} (hw : h.Room fx e) :
    e.sequence ≤ (h.apply fx e).sequence ∧
      (e.sequence < 2 ^ 64 → (h.apply fx e).sequence < 2 ^ 64) ∧
      e.epoch ≤ (h.apply fx e).epoch := by
  cases h with
  | insert k w b =>
    obtain ⟨hseq, hep, -⟩ := (@Engine.recordInsert_fields _ _ fx e k) w b
    have hseq' : (Hook.apply fx e (.insert k w b)).sequence = e.sequence + 1 :=
      hseq.trans (wrapping_of_lt hw)
    exact ⟨by omega, fun _ => lt_of_eq_of_lt hseq' hw, Nat.le_of_eq hep.symm⟩
  | read k b =>
    have hep := ((@Engine.recordRead_fields _ _ fx e k) b).1
    cases Engine.recordRead_sequence hw with
    | inl hsame => exact ⟨Nat.le_of_eq hsame.symm, fun h => lt_of_eq_of_lt hsame h,
        Nat.le_of_eq hep.symm⟩
    | inr hnext => exact ⟨Nat.le_trans (Nat.le_succ _) (Nat.le_of_eq hnext.1.symm),
        fun _ => lt_of_eq_of_lt hnext.1 hnext.2, Nat.le_of_eq hep.symm⟩
  | remove k =>
    obtain ⟨hseq, hep, -⟩ := (@Engine.drop_fields _ fx
      { e with metrics := e.metrics.count .removes }) (fx k) fun x => decide (x.key = k)
    exact ⟨Nat.le_of_eq hseq.symm, lt_of_eq_of_lt hseq, Nat.le_of_eq hep.symm⟩
  | evict c =>
    obtain ⟨hseq, hep, -⟩ := (@Engine.drop_fields _ fx
      { e with metrics := e.metrics.count .evictions }) c.hash
      fun x => decide (x.incarnation = c.incarnation)
    exact ⟨Nat.le_of_eq hseq.symm, lt_of_eq_of_lt hseq, Nat.le_of_eq hep.symm⟩
  | mutation | markDirty => exact ⟨Nat.le_refl _, id, Nat.le_refl _⟩
  | reconcile items =>
    have hseq : (Hook.apply fx e (.reconcile items)).sequence = e.sequence + items.length :=
      (Engine.reconcile_entries hw.1).2
    have hep : (Hook.apply fx e (.reconcile items)).epoch = e.epoch + 1 := wrapping_of_lt hw.2
    exact ⟨by omega, fun _ => lt_of_eq_of_lt hseq hw.1, by omega⟩

theorem Engine.Sane.apply {e : Engine K} (sn : e.Sane) {h : Hook K} (hp : h.Proper)
    (hw : h.Room fx e) : (h.apply fx e).Sane := by
  cases h with
  | insert k w b => exact sn.insert hw w b
  | read k b => exact sn.read hw
  | remove k =>
    obtain ⟨hs, -, hd, hr⟩ := (@Engine.drop_fields _ fx { e with metrics := e.metrics.count .removes })
      (fx k) fun x => decide (x.key = k)
    exact sn.sublist (Engine.drop_sublist (e := { e with metrics := e.metrics.count .removes }) _ _)
      hs hd hr
  | evict c =>
    obtain ⟨hs, -, hd, hr⟩ := (@Engine.drop_fields _ fx { e with metrics := e.metrics.count .evictions })
      c.hash
      fun x => decide (x.incarnation = c.incarnation)
    exact sn.sublist
      (Engine.drop_sublist (e := { e with metrics := e.metrics.count .evictions }) _ _) hs hd hr
  | mutation => exact sn.sublist (List.Sublist.refl _) rfl rfl rfl
  | markDirty =>
    have hmark : wrapping (e.dirtyEpoch + 1) = e.dirtyEpoch + 1 := wrapping_of_lt hw
    refine ⟨sn.keys, sn.incarnations, sn.inserted, sn.accessed, sn.incarnation_lt, sn.inserted_lt,
      sn.accessed_lt, ?_⟩
    change e.repairedEpoch ≤ wrapping (e.dirtyEpoch + 1)
    rw [hmark]
    exact Nat.le_succ_of_le sn.epochs
  | reconcile items => exact sn.reconcile hp hw.1

end Starshard.Eviction
