import Mathlib.Algebra.Order.BigOperators.Group.List
import Mathlib.Algebra.Order.Group.Nat
import Starshard.Eviction.Agreement

/-! A pass of the synchronous map evicts the victims that the policy order gives, by
every path, and leaves every limit kept. -/
namespace Starshard.Eviction

open Data
open Worker (Tables)

variable {K V : Type}

/-! ### Limits of a list of candidates -/

/-- Some limit that `c` counts for is exceeded by the candidates that are left. -/
def OverLimit (options : Options) (target : Option Nat) (index : EvictionCandidate K → Nat)
    (rest : List (EvictionCandidate K)) (c : EvictionCandidate K) : Prop :=
  (∃ n, target = some n ∧ n < rest.length) ∨
  (∃ n, options.maxItemsPerShard = some n ∧ n < rest.countP fun d => decide (index d = index c)) ∨
  ∃ n, options.memoryBudget = some n ∧ n < (rest.map EvictionCandidate.weight).sum

/-- The limits that concern all entries. -/
def OverTotal (options : Options) (target : Option Nat) (rest : List (EvictionCandidate K)) : Prop :=
  (∃ n, target = some n ∧ n < rest.length) ∨
  ∃ n, options.memoryBudget = some n ∧ n < (rest.map EvictionCandidate.weight).sum

def tallyOf (index : EvictionCandidate K → Nat) (rest : List (EvictionCandidate K)) : Tally where
  remaining := rest.length
  counts := fun i => rest.countP fun c => decide (index c = i)
  weighted := (rest.map EvictionCandidate.weight).sum

variable {options : Options} {target : Option Nat} {index : EvictionCandidate K → Nat}
  {cs vs rest : List (EvictionCandidate K)} {c : EvictionCandidate K}

theorem option_any_lt (o : Option Nat) (n : Nat) :
    o.any (fun limit => decide (n > limit)) = true ↔ ∃ m, o = some m ∧ m < n := by
  cases o with
  | none => simp
  | some m => simp

theorem exceeds_tallyOf :
    exceeds options target index (tallyOf index rest) c = true ↔
      OverLimit options target index rest c := by
  unfold exceeds OverLimit tallyOf
  simp only [Bool.or_eq_true, option_any_lt, or_assoc]

theorem tallyOf_perm {l l' : List (EvictionCandidate K)} (h : l.Perm l') :
    tallyOf index l = tallyOf index l' := by
  unfold tallyOf
  congr 1
  · exact h.length_eq
  · funext i
    exact h.countP_eq _
  · exact (h.map _).sum_nat

theorem account_tallyOf (c : EvictionCandidate K) :
    account index (tallyOf index (c :: rest)) c = tallyOf index rest := by
  unfold account tallyOf
  congr 1
  · funext i
    by_cases hi : i = index c
    · subst hi
      simp
    · rw [Function.update_of_ne hi]
      simp [Ne.symm hi]
  · simp

theorem account_foldl (vs : List (EvictionCandidate K)) :
    vs.foldl (account index) (tallyOf index (vs ++ rest)) = tallyOf index rest := by
  induction vs with
  | nil => rfl
  | cons c vs ih => rw [List.cons_append, List.foldl_cons, account_tallyOf, ih]

theorem OverLimit.mono {l l' : List (EvictionCandidate K)} (hs : l.Sublist l')
    (h : OverLimit options target index l c) : OverLimit options target index l' c := by
  refine h.imp (fun ⟨n, hn, hlt⟩ => ⟨n, hn, Nat.lt_of_lt_of_le hlt hs.length_le⟩) fun h => ?_
  refine h.imp (fun ⟨n, hn, hlt⟩ => ⟨n, hn, Nat.lt_of_lt_of_le hlt hs.countP_le⟩) ?_
  intro ⟨n, hn, hlt⟩
  refine ⟨n, hn, Nat.lt_of_lt_of_le hlt ?_⟩
  exact (hs.map _).sum_le_sum fun a _ => Nat.zero_le a

/-! ### The victims of a ranking -/

variable [DecidableEq K]

def left (gone : List K) (cs : List (EvictionCandidate K)) : List (EvictionCandidate K) :=
  cs.filter fun d => decide (d.key ∉ gone)

theorem perm_left (hn : (cs.map EvictionCandidate.key).Nodup) (hs : vs.Sublist cs) :
    cs.Perm (vs ++ left (vs.map EvictionCandidate.key) cs) := by
  have hdis : ∀ a ∈ vs, ∀ b ∈ left (vs.map EvictionCandidate.key) cs, a ≠ b := by
    intro a ha b hb hab
    have hnot := of_decide_eq_true (List.mem_filter.mp hb).2
    exact hnot (hab ▸ List.mem_map_of_mem ha)
  apply (List.perm_ext_iff_of_nodup hn.of_map ?_).mpr
  · intro c
    rw [List.mem_append]
    constructor
    · intro hc
      by_cases hk : c.key ∈ vs.map EvictionCandidate.key
      · obtain ⟨d, hd, hdk⟩ := List.mem_map.mp hk
        have he := List.inj_on_of_nodup_map hn (hs.subset hd) hc hdk
        exact .inl (he ▸ hd)
      · exact .inr (List.mem_filter.mpr ⟨hc, decide_eq_true hk⟩)
    · intro hc
      exact hc.elim (fun h => hs.subset h) fun h => (List.mem_filter.mp h).1
  · exact List.nodup_append.mpr ⟨hn.of_map.sublist hs, hn.of_map.filter _, hdis⟩

/-- A candidate is a victim exactly if, at its turn, what is left exceeds a limit that
it counts for. -/
theorem mem_victims_iff (hn : (cs.map EvictionCandidate.key).Nodup)
    {pre post : List (EvictionCandidate K)} (hsplit : cs = pre ++ c :: post) :
    let gone := (victims options target index (tallyOf index cs) cs).map EvictionCandidate.key
    c.key ∈ gone ↔ OverLimit options target index (left gone pre ++ c :: post) c := by
  subst hsplit
  intro gone
  let vs := victims options target index (tallyOf index (pre ++ c :: post)) pre
  have hvs : vs.Sublist pre := victims_sublist index
  rw [List.map_append, List.map_cons] at hn
  have hnp : (pre.map EvictionCandidate.key).Nodup := hn.of_append_left
  have hpre : pre.Perm (vs ++ left (vs.map EvictionCandidate.key) pre) := perm_left hnp hvs
  -- the tallies at the turn of `c` are those of what is left
  have hturn : vs.foldl (account index) (tallyOf index (pre ++ c :: post)) =
      tallyOf index (left (vs.map EvictionCandidate.key) pre ++ c :: post) := by
    rw [tallyOf_perm (hpre.append_right (c :: post)), List.append_assoc, account_foldl]
  have hgone : gone = vs.map EvictionCandidate.key ++
      (victims options target index
        (tallyOf index (left (vs.map EvictionCandidate.key) pre ++ c :: post))
        (c :: post)).map EvictionCandidate.key := by
    rw [← List.map_append, ← hturn]
    exact congrArg (List.map EvictionCandidate.key) (Greedy.choose_append _ pre (c :: post))
  -- no later victim has a key of `pre`
  have hlater : ∀ d ∈ pre, d.key ∈ gone ↔ d.key ∈ vs.map EvictionCandidate.key := by
    intro d hd
    rw [hgone, List.mem_append]
    refine or_iff_left fun hk => ?_
    have hsub := ((@victims_sublist _ options target (c :: post)
      (tallyOf index (left (vs.map EvictionCandidate.key) pre ++ c :: post))) index).map EvictionCandidate.key
    exact (List.nodup_append.mp hn).2.2 _ (List.mem_map_of_mem hd) _ (hsub.subset hk) rfl
  have hleft : left gone pre = left (vs.map EvictionCandidate.key) pre := by
    apply List.filter_congr
    intro d hd
    simp only [hlater d hd]
  rw [hleft, hgone, List.mem_append, victims_cons, ← exceeds_tallyOf]
  have hcpre : c.key ∉ vs.map EvictionCandidate.key := by
    intro hk
    exact (List.nodup_append.mp hn).2.2 _ ((hvs.map _).subset hk) _ List.mem_cons_self rfl
  have hcpost : c.key ∉ post.map EvictionCandidate.key :=
    (List.nodup_cons.mp hn.of_append_right).1
  split
  · next he => exact ⟨fun _ => he, fun _ => .inr List.mem_cons_self⟩
  · next he =>
    constructor
    · intro hk
      have hk' := hk.resolve_left hcpre
      exact absurd (((victims_sublist index).map _).subset hk') hcpost
    · exact fun h => absurd h he

theorem left_within (hn : (cs.map EvictionCandidate.key).Nodup) :
    let gone := (victims options target index (tallyOf index cs) cs).map EvictionCandidate.key
    (∀ n, target = some n → (left gone cs).length ≤ n) ∧
    (∀ n, options.maxItemsPerShard = some n →
      ∀ i, ((left gone cs).countP fun d => decide (index d = i)) ≤ n) ∧
    ∀ n, options.memoryBudget = some n → ((left gone cs).map EvictionCandidate.weight).sum ≤ n := by
  intro gone
  have hkept : ∀ c ∈ left gone cs, ¬ OverLimit options target index (left gone cs) c := by
    intro c hc hover
    obtain ⟨hmem, hk⟩ := List.mem_filter.mp hc
    obtain ⟨pre, post, hsplit⟩ := List.append_of_mem hmem
    apply of_decide_eq_true hk
    apply (mem_victims_iff hn hsplit).mpr
    refine hover.mono ?_
    have heq : left gone cs = left gone pre ++ left gone (c :: post) := by
      rw [hsplit]
      exact List.filter_append pre (c :: post)
    rw [heq]
    exact (List.Sublist.refl _).append List.filter_sublist
  refine ⟨fun n hnt => ?_, fun n hm i => ?_, fun n hb => ?_⟩
  · by_contra hlt
    have hlt' : n < (left gone cs).length := Nat.not_le.mp hlt
    obtain ⟨c, hc⟩ := List.exists_mem_of_length_pos (Nat.zero_lt_of_lt hlt')
    exact hkept c hc (.inl ⟨n, hnt, hlt'⟩)
  · by_contra hlt
    have hlt' := Nat.not_le.mp hlt
    obtain ⟨c, hc, hi⟩ := List.countP_pos_iff.mp (Nat.zero_lt_of_lt hlt')
    have hi' := of_decide_eq_true hi
    subst hi'
    exact hkept c hc (.inr (.inl ⟨n, hm, hlt'⟩))
  · by_contra hlt
    have hlt' := Nat.not_le.mp hlt
    cases hl : left gone cs with
    | nil =>
      rw [hl] at hlt'
      exact absurd hlt' (Nat.not_lt_zero n)
    | cons c l =>
      refine hkept c (by rw [hl]; exact List.mem_cons_self) (.inr (.inr ⟨n, hb, hlt'⟩))

omit [DecidableEq K] in
/-- Without a limit for each shard the victims are a shortest prefix. -/
theorem victims_shortest (hm : options.maxItemsPerShard = none) :
    ∃ n, n ≤ cs.length ∧ victims options target index (tallyOf index cs) cs = cs.take n ∧
      ¬ OverTotal options target (cs.drop n) ∧ ∀ m, m < n → OverTotal options target (cs.drop m) := by
  have hany : ∀ t : Tally, ∀ c, exceeds options target index t c =
      (target.any (t.remaining > ·) || options.memoryBudget.any (t.weighted > ·)) := by
    intro t c
    unfold exceeds
    rw [hm]
    simp
  have hover : ∀ l : List (EvictionCandidate K), (target.any ((tallyOf index l).remaining > ·) ||
      options.memoryBudget.any ((tallyOf index l).weighted > ·)) = true ↔
      OverTotal options target l := by
    intro l
    rw [Bool.or_eq_true, option_any_lt, option_any_lt]
    rfl
  have htaken : ∀ m, (cs.take m).foldl (account index) (tallyOf index cs) =
      tallyOf index (cs.drop m) := by
    intro m
    have h := (@account_foldl _ index (cs.drop m)) (cs.take m)
    rwa [List.take_append_drop] at h
  have hchoose : victims options target index (tallyOf index cs) cs =
      Greedy.choose (fun t _ => target.any (t.remaining > ·) ||
        options.memoryBudget.any (t.weighted > ·)) (account index) (tallyOf index cs) cs := by
    apply Greedy.choose_congr Eq _ _ rfl
    · intro t t' ht a _
      rw [hany, ht]
    · intro t t' ht a _ _
      rw [ht]
  obtain ⟨n, hn, hc, hlast, hfirst⟩ := (@Greedy.choose_shortest _ _ (account index))
    (fun t => target.any (t.remaining > ·) || options.memoryBudget.any (t.weighted > ·))
    (tallyOf index cs) cs
  refine ⟨n, hn, hchoose.trans hc, fun hov => ?_, fun m hlt => ?_⟩
  · by_cases hlen : n < cs.length
    · have hf := hlast hlen
      rw [htaken] at hf
      rw [(hover _).mpr hov] at hf
      exact absurd hf (by simp)
    · rw [List.drop_eq_nil_of_le (Nat.not_lt.mp hlen)] at hov
      simp [OverTotal] at hov
  · rw [← hover, ← htaken]
    exact hfirst m hlt

/-! ### The shortcut for one victim -/

variable {hash fx : K → Nat} {s : State K V} {policy : CapacityPolicy} {weight : K → V → Nat}

omit [DecidableEq K] in
theorem foldl_lower_le {m c : EvictionCandidate K}
    (h : cs.foldl (Engine.lower policy) (some m) = some c) :
    rank policy c ≤ rank policy m ∧ ∀ d ∈ cs, rank policy c ≤ rank policy d := by
  induction cs generalizing m with
  | nil =>
    have he : m = c := Option.some.inj h
    exact ⟨le_of_eq (by rw [he]), fun d hd => absurd hd List.not_mem_nil⟩
  | cons a cs ih =>
    rw [List.foldl_cons] at h
    unfold Engine.lower at h
    dsimp only at h
    split at h
    · next hlt =>
      have hrest := ih h
      refine ⟨le_trans hrest.1 (le_of_lt hlt), fun d hd => ?_⟩
      cases List.mem_cons.mp hd with
      | inl he => rw [he]; exact hrest.1
      | inr hd => exact hrest.2 d hd
    · next hge =>
      have hrest := ih h
      refine ⟨hrest.1, fun d hd => ?_⟩
      cases List.mem_cons.mp hd with
      | inl he => rw [he]; exact le_trans hrest.1 (not_lt.mp hge)
      | inr hd => exact hrest.2 d hd

theorem Clean.minimum_eq (h : Clean hash s) :
    s.engine.minimumCandidate fx policy = (s.engine.candidates fx policy).head? := by
  have hcs := (@Clean.candidates_eq _ _ _ _ fx _ policy h)
  have hperm := (@Clean.candidates_perm _ _ _ _ fx _ policy h)
  have hmin : s.engine.minimumCandidate fx policy =
      (s.engine.entries.map (s.engine.candidate fx)).foldl (Engine.lower policy) none := by
    unfold Engine.minimumCandidate
    rw [h.clean]
    rfl
  rw [hmin]
  cases hl : s.engine.entries.map (s.engine.candidate fx) with
  | nil =>
    rw [hl] at hperm
    rw [List.Perm.eq_nil hperm]
    rfl
  | cons a l =>
    have hstart : (a :: l).foldl (Engine.lower policy) none =
        l.foldl (Engine.lower policy) (some a) := rfl
    have hsome : ∀ (l : List (EvictionCandidate K)) m, ∃ c,
        l.foldl (Engine.lower policy) (some m) = some c := by
      intro l
      induction l with
      | nil => exact fun m => ⟨m, rfl⟩
      | cons b l ih =>
        intro m
        rw [List.foldl_cons]
        unfold Engine.lower
        dsimp only
        split
        · exact ih b
        · exact ih m
    obtain ⟨c, hc⟩ := hsome l a
    obtain ⟨hca, hcl⟩ := foldl_lower_le hc
    have hmem : c ∈ a :: l := by
      cases mem_foldl_lower hc with
      | inl he => exact Option.some.inj he ▸ List.mem_cons_self
      | inr hm => exact List.mem_cons_of_mem a hm
    have hleast : ∀ d ∈ a :: l, rank policy c ≤ rank policy d := by
      intro d hd
      cases List.mem_cons.mp hd with
      | inl he => rw [he]; exact hca
      | inr hd => exact hcl d hd
    rw [hstart, hc]
    rw [hl] at hperm hcs
    cases ho : s.engine.candidates fx policy with
    | nil =>
      rw [ho] at hperm
      exact absurd hperm.symm.eq_nil (by simp)
    | cons b o =>
      rw [ho] at hperm
      have hsorted : (b :: o).Pairwise fun x y => rank policy x ≤ rank policy y := by
        rw [← ho, hcs]
        exact ranked_pairwise policy _
      have hbc : rank policy b ≤ rank policy c := by
        cases List.mem_cons.mp (hperm.mem_iff.mpr hmem) with
        | inl he => rw [he]
        | inr hco => exact (List.pairwise_cons.mp hsorted).1 c hco
      have hcb : rank policy c ≤ rank policy b := hleast b (hperm.mem_iff.mp List.mem_cons_self)
      have hbl : b ∈ a :: l := hperm.mem_iff.mp List.mem_cons_self
      rw [← hl] at hmem hbl
      obtain ⟨x, hx, hxc⟩ := List.mem_map.mp hmem
      obtain ⟨y, hy, hyb⟩ := List.mem_map.mp hbl
      have hxy : x = y := (@Clean.rank_inj _ _ _ _ fx _ policy h) hx hy (by
        rw [hxc, hyb]
        exact le_antisymm hcb hbc)
      rw [List.head?_cons, ← hxc, ← hyb, hxy]

/-- The victims that the full policy order gives. -/
def fullVictims (hash fx : K → Nat) (options : Options) (policy : CapacityPolicy)
    (target : Option Nat) (s : State K V) : List (EvictionCandidate K) :=
  let cs := s.engine.candidates fx policy
  victims options target (s.shardIndex hash ·.key) (tallyOf (s.shardIndex hash ·.key) cs) cs

theorem Clean.candidates_length (h : Clean hash s) :
    (s.engine.candidates fx policy).length = s.totalLen := by
  have hk := h.tracked.length_eq
  have hl := (@Clean.candidates_perm _ _ _ _ fx _ policy h).length_eq
  simp only [List.length_map] at hk hl
  rw [hl, hk, h.total]

theorem Clean.startTally_eq (h : Clean hash s) :
    startTally hash (s.engine.candidates fx policy) s =
      tallyOf (s.shardIndex hash ·.key) (s.engine.candidates fx policy) := by
  unfold startTally tallyOf
  rw [h.candidates_length]

/-- The shortcut selects the victim that the full order gives. -/
theorem Clean.globalVictims_eq (h : Clean hash s) :
    globalVictims hash fx options policy target s = fullVictims hash fx options policy target s := by
  unfold globalVictims fullVictims Async.selectCandidates
  dsimp only
  split
  · next hone =>
    simp only [Bool.and_eq_true, Option.isNone_iff_eq_none] at hone
    obtain ⟨⟨hm, hb⟩, ho⟩ := hone
    obtain ⟨t, rfl, ht⟩ : ∃ t, target = some t ∧ s.totalLen = t + 1 := by
      cases target with
      | none => exact absurd ho (by simp [oneOver])
      | some t => exact ⟨t, rfl, by simpa [oneOver] using ho⟩
    have hlen := (@Clean.candidates_length _ _ _ _ fx _ policy h)
    rw [h.minimum_eq]
    cases hcs : s.engine.candidates fx policy with
    | nil =>
      rw [hcs, ht] at hlen
      exact absurd hlen (by simp)
    | cons c cs =>
      have hcount : ∀ (u : Tally) (l : List (EvictionCandidate K)),
          victims options (some t) (s.shardIndex hash ·.key) u l = l.take (u.remaining - t) := by
        intro u l
        rw [← Greedy.choose_take t]
        apply Greedy.choose_congr (fun (u : Tally) n => u.remaining = n)
        · intro u n hu a _
          simp [exceeds, hm, hb, hu]
        · intro u n hu a _ _
          simp [account, hu]
        · rfl
      have h1 : (startTally hash (some c).toList s).remaining = t + 1 := ht
      have h2 : (tallyOf (s.shardIndex hash ·.key) (c :: cs)).remaining = t + 1 := by
        rw [← ht, ← hlen, hcs]
        rfl
      rw [List.head?_cons, hcount, hcount, h1, h2, Nat.add_sub_cancel_left]
      rfl
  · rw [h.startTally_eq]

end Starshard.Eviction
