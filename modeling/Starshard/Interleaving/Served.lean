import Starshard.Interleaving.RoundTrip

/-! Serialization beside other operations: the serialized form is that of the map at one
instant between the call and its return, whoever writes and migrates meanwhile. -/
namespace Starshard

open Data Concurrent
open Locking (plainEnv plainLifecycle)
open Sync (Request Reply)

variable {K V : Type} [DecidableEq K] {env : Env K V} {L : Lifecycle K V}

/-- The visible events of a request so far. -/
def Requests (env : Env K V) : Request K V → List (Event K V) → Prop
  | .call op => Begins env op
  | .serialize => Begins env .snapshotView

def Replies (env : Env K V) : Request K V → List (Event K V) → Reply K V → Prop
  | .call op, es, reply => ∃ r, reply = .answer r ∧ Explains env op es r
  | .serialize, _, reply => ∃ repr n, reply = .form repr n

/-- A serialized form is surveyed while everything is locked. -/
def Surveys : Request K V → Reply K V → View K V L.State → Prop
  | .call _, reply, _ => ∃ r, reply = .answer r
  | .serialize, reply, v => ∃ (repr : Sync.ShardedMapRepr K V) (ls : List (List (K × V))),
      reply = .form repr (ls.map List.length).sum ∧ repr.entries = ls.flatten ∧
      Surveyed repr.shardCount ls v

theorem serves (hsync : env.awaits = false) :
    (protocol env L False).Passes (Sync.serve env) (Requests env) (Replies env) Surveys := by
  intro request
  cases request with
  | call op =>
    obtain ⟨hnil, hw⟩ := verified (L := L) hsync op
    refine ⟨hnil, fun v hv hspec => .of_wp (.bind ((hw v hv hspec).mono fun r v' h => ?_)) ?_⟩
    · exact ⟨h.1, r, rfl, h.2⟩
    · rintro reply v' ⟨-, r, hr, -⟩
      exact ⟨r, hr⟩
  | serialize =>
    have hsp : AllowsSnapshot (Begins env (.snapshotView : Sync.Op K V)) [] := allows_snapshot rfl
    refine ⟨(hsp 0 [] _ .nil).nil, fun v hv hspec => ?_⟩
    have hv : Calm env (Begins env .snapshotView) [] [] [] v := by
      have hspec : v.spec = Begins env .snapshotView := hspec
      exact hspec ▸ Calm.initial hv
    refine Protocol.Via.bind (r := fun x => .form x.1 x.2) (Protocol.Via.bind
      (r := fun view => (⟨view.shardCount, view.items⟩, view.len)) ?_)
    refine (hv.via_snapshotView hsp).mono (fun view v' h => ?_) fun view v' ⟨d, h, _⟩ => ?_
    · exact ⟨_, view.shards, rfl, rfl, h⟩
    · exact ⟨rfl, rfl, h.calm.guards, _, _, rfl⟩

variable {s₀ : State K V L.State} {a₀ : Abstract K V}
  {h : List (Label (Request K V) (Reply K V))}
  {c : Config (semantics env L) (Request K V) (Reply K V)}

/-- Between requests the map is at rest. -/
theorem rests_of_served (hsync : env.awaits = false) (hs : Rests env.hash s₀ a₀)
    {s : State K V L.State} (hr : Reachable (semantics env L) (Sync.serve env) s₀ s) :
    ∃ a, Rests env.hash s a := by
  obtain ⟨h, c, hrun, hq, rfl⟩ := hr
  obtain ⟨⟨g, lin, hx⟩, -⟩ := (serves (L := L) hsync).run id hs.inv hrun
  have hinv : Inv env.hash c.shared c.guards g := hx.inv
  rw [hx.guards_nil hq] at hinv
  exact ⟨g.abs, .of_inv hinv⟩

/-- A form that a run returned is that of the map in one state between the call and the
return, in which no other call was changing an entry. -/
theorem forms_of_run (hsync : env.awaits = false) (hs : Rests env.hash s₀ a₀)
    (hr : Run (semantics env L) (Sync.serve env) s₀ h c) {t n : Nat}
    {repr : Sync.ShardedMapRepr K V} (hret : .ret t (.form repr n) ∈ h) :
    ∃ h₁ h₂ c₁, h = h₁ ++ h₂ ∧ Run (semantics env L) (Sync.serve env) s₀ h₁ c₁ ∧
      .call t .serialize ∈ h₁ ∧ (∀ r, .ret t r ∉ h₁) ∧
      (∀ u, u ≠ t → ∀ k, ¬ Writes env.hash (c₁.guards u) c₁.shared k) ∧
      Forms L env.hash c₁.shared repr n := by
  obtain ⟨-, hall⟩ := (serves (L := L) hsync).run id hs.inv hr
  obtain ⟨request, -, h₁, h₂, c₁, v, g, heq, hr₁, hcall, hnot, hv, hview⟩ := hall t _ hret
  cases request with
  | call op =>
    obtain ⟨r, hr⟩ := hview
    cases hr
  | serialize =>
    obtain ⟨repr', ls, hform, hentries, hsurvey⟩ := hview
    cases hform
    obtain ⟨hcount, hpos, hrep, hquiet⟩ := hsurvey.shows hv
    refine ⟨h₁, h₂, c₁, heq, hr₁, hcall, hnot, hquiet, .of (hentries ▸ hrep) ?_ hcount hpos⟩
    rw [hentries, List.length_flatten]

/-- Every reachable map is serialized as what it holds, and a serialization beside other
requests gives one coherent capture; any representation at all is deserialized. -/
theorem serialized_coherently (hsync : env.awaits = false) {count : Nat} (hcount : 0 < count)
    {life : L.State} :
    (∀ s, Reachable (semantics env L) (Sync.serve env) (State.new K V count life) s →
      (∃ repr n s' gs, Exec (semantics env L) Sync.serialize s [] (repr, n) s' gs) ∧
      ∀ repr n s' gs, Exec (semantics env L) Sync.serialize s [] (repr, n) s' gs →
        Forms L env.hash s repr n ∧ n = s.totalLen) ∧
    (∀ h c t repr n, Run (semantics env L) (Sync.serve env) (State.new K V count life) h c →
      .ret t (.form repr n) ∈ h →
      ∃ h₁ h₂ c₁, h = h₁ ++ h₂ ∧
        Run (semantics env L) (Sync.serve env) (State.new K V count life) h₁ c₁ ∧
        .call t .serialize ∈ h₁ ∧ (∀ r, .ret t r ∉ h₁) ∧
        (∀ u, u ≠ t → ∀ k, ¬ Writes env.hash (c₁.guards u) c₁.shared k) ∧
        Forms L env.hash c₁.shared repr n) ∧
    ∀ (hash : K → Nat) (valueEq : V → V → Bool) (life : L.State) (repr : Sync.ShardedMapRepr K V),
      (∃ m, Deserialized L hash valueEq life repr m) ∧
      ∀ m, Deserialized L hash valueEq life repr m →
        (∀ k, m.contents hash k = (repr.entries.reverse.find? fun e => e.1 = k).map Prod.snd) ∧
        m.totalLen = (repr.entries.map Prod.fst).dedup.length ∧
        m.shardCount = min (normalizedShardCount repr.shardCount) MAX_SHARDS ∧
        m.previous = none := by
  have hnew : Rests env.hash (State.new K V count life) (Abstract.new K V) := .new hcount life
  refine ⟨fun s hs => ?_, fun h c t repr n hr => forms_of_run hsync hnew hr,
    fun hash valueEq life repr => ⟨(fills_alone hash valueEq life repr).1, fun m hm => ?_⟩⟩
  · obtain ⟨a, ha⟩ := rests_of_served hsync hnew hs
    obtain ⟨hreturns, hforms⟩ := forms_alone hsync ha
    refine ⟨hreturns, fun repr n s' gs he => ?_⟩
    obtain ⟨hf, hn, -⟩ := hforms repr n s' gs he
    exact ⟨hf, hn⟩
  · exact ⟨hm.last_listed, hm.length, hm.rests.2.2⟩

section Example

/-- A serialization that waits while a migration starts, and copies the map while one task
inserts and another removes. -/
def served : List (Turn (Request Nat Nat)) :=
  [.call 0 (.call (.insert 1 2)), .go 0 100, .call 1 (.call (.insert 2 5)), .go 1 100,
    .call 2 .serialize, .go 2 1, .call 3 (.call (.startRebalanceOnline 3)), .go 3 100,
    .call 4 (.call (.advanceRebalance 20 1)), .go 4 100, .call 5 (.call (.insert 4 7)), .go 5 6,
    .go 2 7, .go 4 20, .go 5 100, .call 6 (.call (.remove 1)), .go 6 100, .go 2 100, .go 5 100,
    .go 6 100]

def servedEnds (c : Config (semantics cachingEnv plainLifecycle) (Request Nat Nat)
    (Reply Nat Nat)) : Bool :=
  cachingMap.idle c && c.shared.previous.isSome && match Performer.result? (c.task 2) with
    | some (.form repr n) => decide (repr.shardCount = 3 ∧ repr.entries = [(2, 5), (1, 2)] ∧ n = 2)
    | _ => false

theorem served_ends : servedEnds (cachingMap.follow (Sync.serve cachingEnv) served
    ([], .start _ _ _ (State.new Nat Nat 2 ()))).2 := by
  decide +kernel

end Example

theorem serialized_coherently_served :
    ∃ (h h₁ h₂ : List (Label (Request Nat Nat) (Reply Nat Nat)))
      (c c₁ : Config (semantics cachingEnv plainLifecycle) (Request Nat Nat) (Reply Nat Nat))
      (repr repr' : Sync.ShardedMapRepr Nat Nat) (n : Nat)
      (s : State Nat Nat plainLifecycle.State) (gs : Guards Nat Nat)
      (m : State Nat Nat plainLifecycle.State),
      Run (semantics cachingEnv plainLifecycle) (Sync.serve cachingEnv) (State.new Nat Nat 2 ())
        h c ∧ c.Quiescent ∧ c.shared.previous.isSome ∧ h = h₁ ++ h₂ ∧
      .call 2 .serialize ∈ h₁ ∧ .ret 2 (.form repr 2) ∈ h₂ ∧
      repr.entries = [(2, 5), (1, 2)] ∧ repr.shardCount = 3 ∧
      Forms plainLifecycle cachingEnv.hash c₁.shared repr 2 ∧
      Exec (semantics cachingEnv plainLifecycle) Sync.serialize c.shared [] (repr', n) s gs ∧
      Forms plainLifecycle cachingEnv.hash c.shared repr' n ∧ n = c.shared.totalLen ∧
      Deserialized plainLifecycle (fun _ => 0) (fun x y => decide (x = y)) ()
        ⟨0, [(1, 2), (3, 4), (1, 5)]⟩ m ∧
      m.contents (fun _ => 0) 1 = some 5 ∧ m.totalLen = 2 := by
  obtain ⟨tr, hf, he, -, -⟩ := cachingMap.exists_follows served servedEnds served_ends
  rw [servedEnds, Bool.and_eq_true, Bool.and_eq_true] at he
  obtain ⟨⟨hidle, hprev⟩, hform⟩ := he
  obtain ⟨repr, n, hres, hcount, hentries, rfl⟩ : ∃ repr n,
      Performer.result? (tr.2.task 2) = some (.form repr n) ∧ repr.shardCount = 3 ∧
        repr.entries = [(2, 5), (1, 2)] ∧ n = 2 := by
    split at hform
    · next repr n hres => exact ⟨repr, n, hres, of_decide_eq_true hform⟩
    · cases hform
  obtain ⟨hrest, hruns, hread⟩ := @serialized_coherently Nat Nat _ cachingEnv plainLifecycle rfl 2
    Nat.two_pos ()
  have hret := hf.returned hres
  obtain ⟨h₁, h₂, c₁, heq, -, hcall, hnot, -, hforms⟩ := hruns _ _ _ _ _ hf.run hret
  obtain ⟨⟨repr', n, s, gs, hex⟩, hall⟩ := hrest _ ⟨_, _, hf.run, hf.quiescent hidle, rfl⟩
  obtain ⟨hf', hn⟩ := hall _ _ _ _ hex
  obtain ⟨⟨m, hm⟩, hback⟩ := hread (fun _ => 0) (fun x y => decide (x = y)) ()
    ⟨0, [(1, 2), (3, 4), (1, 5)]⟩
  obtain ⟨hlast, hlen, -⟩ := hback m hm
  refine ⟨_, h₁, h₂, _, c₁, repr, repr', n, s, gs, m, hf.run, hf.quiescent hidle, hprev, heq, hcall,
    ?_, hentries, hcount, hforms, hex, hf', hn, hm, hlast 1, hlen⟩
  rw [heq] at hret
  exact (List.mem_append.mp hret).resolve_left (hnot _)

end Starshard
