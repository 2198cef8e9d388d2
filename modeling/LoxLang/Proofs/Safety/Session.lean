import LoxLang.Proofs.InStep.Sessions
import LoxLang.Proofs.Node.Printing
import LoxLang.Proofs.Safety.Faults
/-!
# Sessions never get stuck

A session that is given source texts only, whatever they are, runs well-formed trees only, so
whatever it reports is the report of a permitted fault.
-/

namespace LoxLang

theorem Program.ofText_wellFormed (source : String) :
    ∀ n ∈ (ofText source).statements, n.WellFormed (.statement true) := by
  obtain ⟨-, -, -, hn, -⟩ := ofText_reads source _
  exact fun n hmem => Node.Proper.mono (fun _ _ => trivial) (hn n hmem)

/-- Well-formed trees come to permitted faults only. -/
theorem Likeness.proper_admits : (Likeness.proper fun _ => True).Admits Fault.Permitted where
  eq h := h.1
  sorted h := h
  undefined _ := trivial
  unary ht h := unaryOperation_permitted ht.2.2 h
  binary ht h := binaryOperation_permitted ht.2.2 h
  call := by
    rintro t c - hc
    rcases hc with rfl | ⟨_, _, rfl⟩ | ⟨_, rfl⟩ | rfl <;> exact trivial
  broken hlen h := ⟨_, _, _, h, Native.apply_broken hlen h⟩
  overflow := trivial
  unfinished := trivial

namespace Session

/-- Whatever texts a session has been given, the statements of the next one all have a prefix form,
and what comes of running them, or of evaluating the first, is at worst a permitted fault. -/
theorem never_stuck (limits : Limits) (traceLevel : Nat) (clock : Nat → Float) (steps : List Step)
    (h : ∀ step ∈ steps, step.ofText) (source : String) :
    let s := (new limits traceLevel clock).after steps
    let statements := (s.read source).2
    let fault := firstFault s.limits.layer s.machine statements
    (∀ n ∈ statements, ∃ text, n.statementText = .ok text) ∧
      (∀ n e, fault = some (n, e) → e.Permitted) ∧
      ((s.step (.interpret source)).1.diagnostics =
        match fault with
        | none => (s.read source).1.diagnostics
        | some (n, e) => (s.read source).1.diagnostics.addFault n e) ∧
      ∀ e, (s.step (.evaluate source)).2 = .failed (.fault e) → e.Permitted := by
  intro s statements fault
  have hl := Likeness.proper_admits
  have hm : s.machine.MadeOf (.proper fun _ => True) :=
    after_madeOf hl (new_madeOf limits traceLevel clock) h fun text _ =>
      Program.ofText_wellFormed text
  have hns : ∀ n ∈ statements, n.WellFormed (.statement true) := Program.ofText_wellFormed source
  refine ⟨fun n hn => Node.statementText_ok (hns n hn), ?_, ?_, ?_⟩
  · exact (interpretWith_leaves hl s.limits hns hm s.diagnostics).2
  · exact diagnostics_interpretWith s.limits.layer s.machine _ statements
  · exact (step_leaves hl s rfl (fun text _ => Program.ofText_wellFormed text) hm).2

/-- A call that is broken off while it is read leaves a function that divides by zero behind. What it
returns is no number, so it has no sign. -/
theorem never_stuck_brokenCall :
    let steps := [Step.interpret "fun f(x) \x7b return x / 0; \x7d f(;"]
    let s := (new .usual 0 fun _ => 0).after steps
    let fault : Fault := .runtime ⟨.minus, "-", .nil, 1⟩ .operandNotNumber
    (∀ step ∈ steps, step.ofText) ∧ (s.step (.evaluate "f(1);")).2 = .value .nil ∧
      (s.step (.evaluate "-f(1);")).2 = .failed (.fault fault) ∧ fault.Permitted := by
  intro steps s fault
  have htexts : ∀ step ∈ steps, step.ofText := by decide
  have hvalue : (s.step (.evaluate "f(1);")).2 = .value .nil := by decide +kernel
  have hfault : (s.step (.evaluate "-f(1);")).2 = .failed (.fault fault) := by decide +kernel
  have hpermitted := (never_stuck .usual 0 (fun _ => 0) steps htexts "-f(1);").2.2.2 fault hfault
  exact ⟨htexts, hvalue, hfault, hpermitted⟩

end Session

end LoxLang
