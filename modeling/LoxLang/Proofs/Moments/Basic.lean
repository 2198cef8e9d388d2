import LoxLang.Proofs.Effects.Basic
import LoxLang.Proofs.Effects.Parametric
/-!
# The moments of a run

A run that is watched keeps a record of all the machines that it passes through, one after each
single step. Watching the evaluation of a tree does not change it (`Watched.atop_run`).
-/

namespace LoxLang

/-- A run, with the machines that it passes through from a machine on, that one left out. -/
structure Watched (α : Type) where
  run : Run α
  moments : Machine → List Machine

namespace Watched

variable {α β : Type}

/-- Whatever is done with a value that a run ends with. -/
def goingOn (f : α → Watched β) : EStateM.Result Fault Machine α → List Machine
  | .ok a n => (f a).moments n
  | .error _ _ => []

instance : Monad Watched where
  pure a := ⟨pure a, fun _ => []⟩
  bind x f := ⟨x.run >>= fun a => (f a).run, fun m => x.moments m ++ goingOn f (x.run m)⟩

/-- A run that is a single step. -/
def step (x : Run α) : Watched α := ⟨x, fun m => [machineOf (x m)]⟩

/-- What is done depends on the machine. -/
def reading (f : Machine → Watched α) : Watched α :=
  ⟨get >>= fun m => (f m).run, fun m => (f m).moments m⟩

/-- A run in another scope, from the moment in which that is entered to the one after it was left. -/
def within (scope : Nat) (body : Watched α) : Watched α where
  run := Run.within scope body.run
  moments m :=
    { m with scope := scope } :: body.moments { m with scope := scope } ++
      [machineOf (Run.within scope body.run m)]

/-- A run in a new scope. -/
def inside (scope : Scope) (body : Watched α) : Watched α := do
  let id ← step (Run.openScope scope)
  within id body

/-- Nesting that is too deep is blamed on a call, at no moment of its own. -/
def catchOverflow (paren : Token) (body : Watched α) : Watched α :=
  ⟨Run.catchOverflow paren body.run, body.moments⟩

instance : Operations Watched where
  step := step
  reading := reading
  inside := inside
  calling _ _ paren body := catchOverflow paren body

/-! ## Watching changes nothing -/

theorem run_bind {x : Watched α} {f : α → Watched β} {y : Run α} {g : α → Run β} {m : Machine}
    (hx : x.run m = y m) (hf : ∀ a m, (f a).run m = g a m) : (x >>= f).run m = (y >>= g) m := by
  change EStateM.bind x.run (fun a => (f a).run) m = EStateM.bind y g m
  unfold EStateM.bind
  rw [hx]
  cases y m with
  | ok a n => exact hf a n
  | error e n => rfl

/-- To end like a run is kept by evaluation. -/
theorem parametric_run : Parametric (M := Watched) (N := Run) fun m x y => x.run m = y m where
  pure _ := rfl
  bind := run_bind
  step _ := rfl
  reading h := h
  inside := by
    intro α m s x y _ h
    obtain rfl : x.run = y := funext h
    rfl
  traced := by
    intro m x y callee vs t h
    obtain rfl : x.run = y := funext h
    rfl

/-- Runs that are watched are the runs of the layer. -/
theorem atop_run (turns nesting : Nat) :
    Parametric.Layers (M := Watched) (N := Run) (fun m x y => x.run m = y m)
      (Layer.atop turns nesting) (Layer.atop turns nesting) :=
  parametric_run.atop turns nesting

end Watched

end LoxLang
