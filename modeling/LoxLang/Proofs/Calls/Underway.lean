import LoxLang.Session
import LoxLang.Proofs.Calls.Brackets
import LoxLang.Proofs.InStep.Rules
/-!
# The calls under way

A placed run knows the calls in which it takes place, the outermost first, and a fault is raised
with the calls that are under way. Only a call adds to the calls under way: for as long as what it
names runs, and until nesting that is too deep is blamed on it. The trace is not asked for any of
this.
-/

namespace LoxLang

/-- A run amid some calls. -/
abbrev Placed := ReaderT (List Call) (EStateM (Fault × List Call) Machine)

namespace Placed

variable {α : Type}

/-- A run in which nothing is called. -/
def alone (x : Run α) : Placed α := fun calls m =>
  match x m with
  | .ok a m => .ok a m
  | .error fault m => .error (fault, calls) m

/-- Runs in another scope and comes back, however the run ends. -/
def within (scope : Nat) (body : Placed α) : Placed α := fun calls m =>
  match body calls { m with scope := scope } with
  | .ok a m' => .ok a { m' with scope := m.scope }
  | .error e m' => .error e { m' with scope := m.scope }

/-- Runs in a new scope. -/
def inside (scope : Scope) (body : Placed α) : Placed α := do
  let id ← alone (Run.openScope scope)
  within id body

/-- Blames nesting that is too deep on a call. -/
def catchOverflow (paren : Token) (body : Placed α) : Placed α := fun calls m =>
  match body calls m with
  | .ok a m => .ok a m
  | .error (fault, underway) m => .error (fault.caught paren, underway) m

/-- Runs with one more call under way. -/
def amid (c : Call) (body : Placed α) : Placed α := fun calls => body (calls ++ [c])

instance : Operations Placed where
  step := alone
  reading f := fun calls m => f m calls m
  inside := inside
  calling callee arguments paren body := amid ⟨callee, arguments⟩ (catchOverflow paren body)

end Placed

/-- An error that ended a run of statements: the statement at top level, its fault, and the calls
that were under way, the outermost first. -/
structure Raised where
  statement : Node
  fault : Fault
  underway : List Call

namespace Session

/-- The error that ends a run of some statements, if one does. At top level no call is under way. -/
def raisedWith? (layer : Layer Placed) (machine : Machine) : List Node → Option Raised
  | [] => none
  | n :: ns =>
    match topLevel layer n [] machine with
    | .ok .normal machine => raisedWith? layer machine ns
    | .ok (.returned _) _ => none
    | .error (fault, underway) _ => some ⟨n, fault, underway⟩

/-- The error that ends a run of some statements in a session, if one does. -/
def raised? (s : Session) (statements : List Node) : Option Raised :=
  raisedWith? (Layer.atop s.limits.turns s.limits.nesting) s.machine statements

end Session

end LoxLang
