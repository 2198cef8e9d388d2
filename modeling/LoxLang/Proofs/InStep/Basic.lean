import LoxLang.Machine.Evaluate
import LoxLang.Proofs.Node.Alike
/-!
# Two runs in step

Two runs go in step if they end in the same way, with machines that correspond. What it means to
correspond is left open: a correspondence may only grow while the runs go on, and it is lawful if
the single steps of a machine keep it. One of the runs may be excused for meeting a limit earlier
than the other.
-/

namespace LoxLang

/-- Which of two runs may meet a limit that the other does not meet. -/
inductive Slack where
  | none
  | left
  | right

/-- How the limits of the two runs have to compare. -/
def Slack.Allows : Slack → Nat → Nat → Prop
  | none, n, n' => n = n'
  | left, n, n' => n ≤ n'
  | right, n, n' => n' ≤ n

theorem Slack.Allows.pred {s : Slack} {n n' : Nat} (h : s.Allows (n + 1) (n' + 1)) :
    s.Allows n n' := by
  cases s with
  | none => exact Nat.succ.inj h
  | left | right => exact Nat.le_of_succ_le_succ h

theorem Slack.Allows.left_of_zero {s : Slack} {n' : Nat} (h : s.Allows 0 (n' + 1)) : s = .left := by
  cases s with
  | left => rfl
  | none | right => cases h

theorem Slack.Allows.right_of_zero {s : Slack} {n : Nat} (h : s.Allows (n + 1) 0) : s = .right := by
  cases s with
  | right => rfl
  | none | left => cases h

/-- Whether a fault comes from a limit on how deep or how long a run may go. -/
def Fault.isLimit : Fault → Bool
  | .overflow | .unfinished | .runtime _ .stackOverflow => true
  | _ => false

/-- What it means for two runs to correspond. -/
structure Correspondence where
  /-- What is known of how the machines correspond. -/
  World : Type
  le : World → World → Prop
  likeness : Likeness
  /-- The values that both runs may hold. -/
  held : World → Value → Prop
  /-- The machines correspond, with current scopes in which the next statement may `bind`. -/
  machines : World → Bool → Machine → Machine → Prop
  fault : Fault → Fault → Prop
  slack : Slack

namespace Correspondence

variable (D : Correspondence)

/-- A fault on either side for which that side is excused. -/
def Excused (e e' : Fault) : Prop :=
  (D.slack = .left ∧ e.isLimit) ∨ (D.slack = .right ∧ e'.isLimit)

/-- Two results of runs that went in step. -/
def Ends {α : Type} (w : D.World) (bind : Bool) (Q : D.World → α → α → Prop) :
    EStateM.Result Fault Machine α → EStateM.Result Fault Machine α → Prop
  | .ok a m, .ok a' m' => ∃ w', D.le w w' ∧ D.machines w' bind m m' ∧ Q w' a a'
  | .error e m, .error e' m' =>
    D.Excused e e' ∨ D.fault e e' ∧ ∃ w', D.le w w' ∧ D.machines w' bind m m'
  | .error e _, .ok _ _ => D.slack = .left ∧ e.isLimit
  | .ok _ _, .error e' _ => D.slack = .right ∧ e'.isLimit

/-- From machines that correspond the two runs go in step. -/
def Runs {α : Type} (w : D.World) (bind : Bool) (x y : Run α) (Q : D.World → α → α → Prop) : Prop :=
  ∀ m m', D.machines w bind m m' → D.Ends w bind Q (x m) (y m')

/-- The same value, and both runs may hold it. -/
def Same (w : D.World) (v v' : Value) : Prop := v = v' ∧ D.held w v

/-- The same values. -/
def SameAll (w : D.World) (vs vs' : List Value) : Prop := vs = vs' ∧ ∀ v ∈ vs, D.held w v

/-- The same completion. -/
def SameCompletion (w : D.World) (c c' : Completion) : Prop :=
  c = c' ∧ ∀ v, c = .returned v → D.held w v

/-- Nothing is given. -/
def Done (_ : D.World) (_ _ : Unit) : Prop := True

end Correspondence

/-- A machine that has entered a new scope. -/
def Machine.inScope (m : Machine) (scope : Scope) : Machine :=
  { m with store := (m.store.openScope scope).2, scope := (m.store.openScope scope).1 }

/-- The single steps of a machine keep the correspondence, and the faults of both runs correspond. -/
structure Correspondence.Lawful (D : Correspondence) : Prop where
  refl : ∀ w, D.le w w
  trans : ∀ {w w' w''}, D.le w w' → D.le w' w'' → D.le w w''
  held_mono : ∀ {w w' v}, D.le w w' → D.held w v → D.held w' v
  held_plain : ∀ {w v}, (∀ f, v ≠ .function f) → D.held w v
  literal : ∀ {w v}, D.likeness.literal v → D.held w v
  kind : ∀ {r t t'}, D.likeness.token r t t' → t.kind = t'.kind
  lexeme : ∀ {r t t'}, D.likeness.token r t t' → t.lexeme = t'.lexeme
  lookup : ∀ {w b t t'}, D.likeness.token .used t t' →
    D.Runs w b (Run.lookup t) (Run.lookup t') D.Same
  assign : ∀ {w b t t' v}, D.likeness.token .used t t' → D.held w v →
    D.Runs w b (Run.assign t v) (Run.assign t' v) D.Done
  define : ∀ {w name v}, D.held w v → D.Runs w true (Run.define name v) (Run.define name v) D.Done
  makeFunction : ∀ {w t t' ps ps' ns ns'}, D.likeness.token .declared t t' →
    List.Forall₂ (D.likeness.token .parameter) ps ps' →
    List.Forall₂ (Node.Alike D.likeness (.statement true)) ns ns' →
    D.Runs w true (Run.makeFunction t ps ns) (Run.makeFunction t' ps' ns') D.Same
  record : ∀ {w b} e, D.Runs w b (Run.record e) (Run.record e) D.Done
  printLine : ∀ {w b} text, D.Runs w b (Run.printLine text) (Run.printLine text) D.Done
  readClock : ∀ {w b}, D.Runs w b Run.readClock Run.readClock fun _ x y => x = y
  enterBlock : ∀ {w b m m'}, D.machines w b m m' → ∃ w', D.le w w' ∧
    D.machines w' true (m.inScope ⟨some m.scope, []⟩) (m'.inScope ⟨some m'.scope, []⟩)
  /-- A function is known to both runs or to none. -/
  enterCall : ∀ {w b m m' f vs}, D.machines w b m m' → D.held w (.function f) →
    (∀ v ∈ vs, D.held w v) →
    (m.store.closures[f.id]? = none ∧ m'.store.closures[f.id]? = none) ∨
      ∃ c c' w', m.store.closures[f.id]? = some c ∧ m'.store.closures[f.id]? = some c' ∧
        List.Forall₂ (Node.Alike D.likeness (.statement true)) c.body c'.body ∧ D.le w w' ∧
        D.machines w' true (m.inScope (Layer.callScope c vs)) (m'.inScope (Layer.callScope c' vs))
  leave : ∀ {w w' b b' m m' n n'}, D.machines w b m m' → D.le w w' → D.machines w' b' n n' →
    D.machines w' b { n with scope := m.scope } { n' with scope := m'.scope }
  unary : ∀ {t t' v e}, D.likeness.token .unary t t' → unaryOperation t v = .error e →
    D.fault (e.fault t) (e.fault t')
  binary : ∀ {t t' x y e}, D.likeness.token .binary t t' → binaryOperation t x y = .error e →
    D.fault (e.fault t) (e.fault t')
  call : ∀ {t t' c}, D.likeness.token .paren t t' →
    (c = .notCallable ∨ (∃ i j, c = .arity i j) ∨ (∃ r, c = .native r) ∨ c = .stackOverflow) →
    D.fault (.runtime t c) (.runtime t' c)
  broken : ∀ {n : Native} {x vs b}, vs.length = n.arity → n.apply x vs = .error (.broken b) →
    D.fault (.broken b) (.broken b)
  misplaced : ∀ {m}, D.likeness.misplaced → D.fault (.misplaced m) (.misplaced m)
  overflow : D.fault .overflow .overflow
  unfinished : D.fault .unfinished .unfinished
  overflow_iff : ∀ {e e'}, D.fault e e' → (e = .overflow ↔ e' = .overflow)

end LoxLang
