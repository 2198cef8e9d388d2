import LoxLang.Proofs.Effects.Basic
import LoxLang.Session
/-!
# What sessions do to their machine

Whatever a session is asked to do, it does by running trees at top level, so the steps of sessions
have every effect that single steps of a machine have.
-/

namespace LoxLang.Session

open Effect

variable {E : Effect}

theorem topLevel_does (hE : E.Lawful) (l : Limits) (n : Node) :
    E.Does Set.univ (topLevel l.layer n) :=
  .bind hE (.record hE _) fun _ =>
    (((Does.inherited hE).atop l.turns l.nesting).2 n).mono hE (Set.subset_univ _)

theorem interpretWith_does (hE : E.Lawful) (l : Limits) (m : Machine) (d : Diagnostics)
    (ns : List Node) : E Set.univ m (interpretWith l.layer m d ns).1 := by
  induction ns generalizing m with
  | nil => exact hE.mono (Set.subset_univ _) (hE.aside rfl rfl)
  | cons n ns ih =>
    have hn := topLevel_does hE l n m
    unfold interpretWith
    cases hr : topLevel l.layer n m with
    | ok c m' =>
      rw [hr] at hn
      cases c with
      | normal => exact hE.trans hn (ih m')
      | returned => exact hn
    | error e m' =>
      rw [hr] at hn
      exact hn

theorem answering_machine {α : Type} (s : Session) (body : Run α) (answer : α → Answer) :
    (s.answering body answer).1.machine = machineOf (body s.machine) := by
  unfold answering
  cases body s.machine <;> rfl

theorem run_eq (s : Session) (source : String) (nesting : Nat) :
    s.run source nesting =
      if (s.read source nesting).1.diagnostics.syntaxErrors then (s.read source nesting).1
      else (s.read source nesting).1.interpret (s.read source nesting).2 := rfl

/-! ## Jobs -/

/-- What a step runs on the machine. -/
inductive Job where
  | nothing
  | interpret (statements : List Node)
  | evaluate (expression : Node)
  | execute (statement : Node)

/-- What is run of a source text of which an expression is wanted. -/
def expressionJob : List Node → Job
  | [] => .nothing
  | first :: _ =>
    match first.soleExpression? with
    | some expression => .evaluate expression
    | none => .nothing

/-- The job of a step. -/
def job (s : Session) : Step → Job
  | .run source =>
    if (s.read source).1.diagnostics.syntaxErrors then .nothing
    else .interpret (s.read source).2
  | .interpret source => .interpret (s.read source).2
  | .interpretNodes statements => .interpret statements
  | .evaluate source => expressionJob (s.read source).2
  | .evaluateNode expression => .evaluate expression
  | .evaluateText text =>
    match Node.ofText text with
    | .ok expression => .evaluate expression
    | .error _ => .nothing
  | .executeNode statement => .execute statement
  | .reset | .close => .nothing

/-- The machine that a job leaves. -/
def Job.leaves (l : Limits) (m : Machine) : Job → Machine
  | nothing => m
  | interpret ns => (interpretWith l.layer m .none ns).1
  | evaluate n => machineOf (l.layer.evaluate n m)
  | execute n => machineOf (l.layer.execute n m)

/-- What has been reported before does not matter to the machine. -/
theorem interpretWith_machine (layer : Layer Run) (m : Machine) (d d' : Diagnostics) (ns : List Node) :
    (interpretWith layer m d ns).1 = (interpretWith layer m d' ns).1 := by
  induction ns generalizing m with
  | nil => rfl
  | cons n ns ih =>
    unfold interpretWith
    cases topLevel layer n m with
    | ok c m' =>
      cases c with
      | normal => exact ih m'
      | returned => rfl
    | error => rfl

/-- All that a step does to the machine is its job. -/
theorem step_machine (s : Session) (step : Step) :
    (s.step step).1.machine = (s.job step).leaves s.limits s.machine := by
  have interpreted : ∀ source, ((s.read source).1.interpret (s.read source).2).machine =
      (Job.interpret (s.read source).2).leaves s.limits s.machine :=
    fun source => interpretWith_machine _ _ _ _ _
  cases step with
  | run source =>
    change (s.run source).machine = _
    rw [run_eq, job]
    split
    · rfl
    · exact interpreted source
  | interpret source => exact interpreted source
  | interpretNodes ns => exact interpretWith_machine _ _ _ _ _
  | evaluate source =>
    unfold Session.step job
    dsimp only
    cases (s.read source).2 with
    | nil => rfl
    | cons first _ =>
      dsimp only [expressionJob]
      cases first.soleExpression? with
      | none => rfl
      | some e => exact answering_machine _ _ _
  | evaluateNode n => exact answering_machine _ _ _
  | evaluateText text =>
    unfold Session.step job
    dsimp only
    cases Node.ofText text with
    | ok e => exact answering_machine _ _ _
    | error => rfl
  | executeNode n => exact answering_machine _ _ _
  | reset | close => rfl

/-- Each step of a session has the effect of the trees that it runs, if it runs any. -/
theorem step_does (hE : E.Lawful) (s : Session) (step : Step) :
    E Set.univ s.machine (s.step step).1.machine := by
  obtain ⟨he, hs⟩ := (Does.inherited hE).atop s.limits.turns s.limits.nesting
  rw [step_machine]
  cases s.job step with
  | nothing => exact hE.mono (Set.subset_univ _) (hE.aside rfl rfl)
  | interpret ns => exact interpretWith_does hE s.limits _ _ ns
  | evaluate n => exact he _ n _
  | execute n => exact hE.mono (Set.subset_univ _) (hs n _)

theorem after_does (hE : E.Lawful) (s : Session) (steps : List Step) :
    E Set.univ s.machine (s.after steps).machine := by
  induction steps generalizing s with
  | nil => exact hE.mono (Set.subset_univ _) (hE.aside rfl rfl)
  | cons step steps ih => exact hE.trans (step_does hE s step) (ih _)

end LoxLang.Session
