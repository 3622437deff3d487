import Starshard.Concurrent.Machine

/-! Machines that differ in the results of their programs only. A function on results
turns a run of one into a run of the other, over the same states and guards. -/
namespace Concurrent

open Function (update)

variable {Act : Type} {Resp : Act → Type} {Op Res Res' : Type}

namespace Task

def map (f : Res → Res') : Task Act Resp Op Res → Task Act Resp Op Res'
  | .ready => .ready
  | .running op p => .running op (p >>= fun r => .done (f r))
  | .unwinding op p => .unwinding op p
  | .finished op r => .finished op (f r)
  | .aborted op => .aborted op

end Task

def Label.map (f : Res → Res') : Label Op Res → Label Op Res'
  | .call t op => .call t op
  | .ret t r => .ret t (f r)
  | .cut t => .cut t
  | .tau => .tau

variable {M : Semantics Act Resp} (f : Res → Res')

def Config.map (c : Config M Op Res) : Config M Op Res' :=
  ⟨c.shared, c.guards, Task.map f ∘ c.task⟩

theorem Config.map_update (s : M.Shared) (G : Nat → List M.Guard)
    (T : Nat → Task Act Resp Op Res) (t : Nat) (x : Task Act Resp Op Res) :
    Config.map f (⟨s, G, update T t x⟩ : Config M Op Res) =
      ⟨s, G, update (Task.map f ∘ T) t (x.map f)⟩ :=
  congrArg (Config.mk s G) (Function.comp_update ..)

variable {code : Op → Program Act Resp Res}

/-- The programs with their results turned. -/
abbrev mapped (code : Op → Program Act Resp Res) (op : Op) : Program Act Resp Res' :=
  code op >>= fun r => .done (f r)

theorem Step.map {c c' : Config M Op Res} {l : Label Op Res} (h : Step M code c l c') :
    Step M (mapped f code) (c.map f) (l.map f) (c'.map f) := by
  cases h with
  | call ht =>
    rw [Config.map_update]
    exact .call (congrArg (Task.map f) ht)
  | @act _ _ _ _ _ _ k _ _ _ ht he =>
    rw [Config.map_update]
    exact .act (k := fun r => k r >>= fun x => .done (f x)) (congrArg (Task.map f) ht) he
  | @cut _ _ _ _ _ _ k _ ht hc =>
    rw [Config.map_update]
    exact .cut (k := fun r => k r >>= fun x => .done (f x)) (congrArg (Task.map f) ht) hc
  | unwind ht he =>
    rw [Config.map_update]
    exact .unwind (congrArg (Task.map f) ht) he
  | ret ht =>
    rw [Config.map_update]
    exact .ret (congrArg (Task.map f) ht)
  | settled ht =>
    rw [Config.map_update]
    exact .settled (congrArg (Task.map f) ht)

theorem Run.map {s : M.Shared} {h : List (Label Op Res)} {c : Config M Op Res}
    (hr : Run M code s h c) : Run M (mapped f code) s (h.map (Label.map f)) (c.map f) := by
  induction hr with
  | start => exact .start
  | step _ hs ih =>
    rw [List.map_append]
    exact ih.step (hs.map f)

end Concurrent
