import LoxLang.Proofs.Effects.Session
import LoxLang.Proofs.Scoping.Stays
/-!
# After a run

Whatever is run, the scope that was current before is current again, so a session is in the global
scope between its steps. Interpreting statements ends at the first failure and reports that one.
-/

namespace LoxLang

/-- Every fault is reported by one message, and not as a syntax error. -/
theorem Diagnostics.addFault_eq (d : Diagnostics) (n : Node) (e : Fault) :
    ∃ text, d.addFault n e = ⟨d.syntaxErrors, true, d.messages ++ [text]⟩ := by
  cases e <;> exact ⟨_, rfl⟩

namespace Session

/-- A statement fails at top level, after those before it have ended normally one after the other;
the last machine is the one that it leaves behind. -/
inductive Fails (layer : Layer Run) : Machine → List Node → Node → Fault → Machine → Prop
  | here {m n ns e m'} : topLevel layer n m = .error e m' → Fails layer m (n :: ns) n e m'
  | later {m n ns m₁ k e m'} : topLevel layer n m = .ok .normal m₁ → Fails layer m₁ ns k e m' →
      Fails layer m (n :: ns) k e m'

variable {layer : Layer Run}

/-- Nothing is reported if no statement fails; otherwise the failure is, and nothing is run after
the statement that failed. -/
theorem interpretWith_cases (layer : Layer Run) (m : Machine) (d : Diagnostics) (ns : List Node) :
    ((∀ n e m', ¬ Fails layer m ns n e m') ∧ (interpretWith layer m d ns).2 = d) ∨
      ∃ n e m', Fails layer m ns n e m' ∧ interpretWith layer m d ns = (m', d.addFault n e) := by
  induction ns generalizing m with
  | nil =>
    refine .inl ⟨fun n e m' h => ?_, rfl⟩
    cases h
  | cons n ns ih =>
    unfold interpretWith
    cases hr : topLevel layer n m with
    | ok c m₁ =>
      cases c with
      | normal =>
        rcases ih m₁ with ⟨hnone, hd⟩ | ⟨k, e, m', hfails, h⟩
        · refine .inl ⟨fun k e m' hfails => ?_, hd⟩
          cases hfails with
          | here h =>
            rw [hr] at h
            cases h
          | later h hlater =>
            rw [hr] at h
            cases h
            exact hnone k e m' hlater
        · exact .inr ⟨k, e, m', .later hr hfails, h⟩
      | returned v =>
        -- What follows a return at top level is not run, so it cannot fail.
        refine .inl ⟨fun k e m' hfails => ?_, rfl⟩
        cases hfails with
        | here h | later h _ =>
          rw [hr] at h
          cases h
    | error e m' => exact .inr ⟨n, e, m', .here hr, rfl⟩

/-- However a run ends, and whatever tree is run, the scope that was current before is current
again; a session stands in the global scope after every step. Interpreting statements always
answers, is silent about syntax, and adds one message if a statement fails and none otherwise; the
machine is then left as that statement left it. -/
theorem scope_restored :
    (∀ (turns nesting scope : Nat) (m : Machine), let layer : Layer Run := Layer.atop turns nesting
      (∀ n, (machineOf (layer.evaluate n m)).scope = m.scope) ∧
      (∀ n, (machineOf (layer.execute n m)).scope = m.scope) ∧
      (∀ ns, (machineOf (Run.within scope (layer.executeAll ns) m)).scope = m.scope) ∧
      (∀ callee vs paren, (machineOf (layer.call callee vs paren m)).scope = m.scope)) ∧
    (∀ (s : Session) (ns : List Node), (s.interpret ns).machine.scope = s.machine.scope) ∧
    (∀ limits traceLevel clock steps,
      ((new limits traceLevel clock).after steps).machine.scope = globals) ∧
    ∀ (s : Session) (ns : List Node), let after := s.step (.interpretNodes ns)
      after.2 = .done ∧ after.1.diagnostics.syntaxErrors = s.diagnostics.syntaxErrors ∧
      ((∀ n e m, ¬ Fails s.limits.layer s.machine ns n e m) ∧
          after.1.diagnostics = s.diagnostics ∨
        ∃ n e m text, Fails s.limits.layer s.machine ns n e m ∧ after.1.machine = m ∧
          after.1.diagnostics.failures = true ∧
          after.1.diagnostics.messages = s.diagnostics.messages ++ [text]) := by
  refine ⟨fun turns nesting scope m => ?_, fun s ns => ?_, fun limits traceLevel clock steps => ?_,
    fun s ns => ?_⟩
  · obtain ⟨hevaluate, hexecute⟩ := Stays.atop turns nesting
    exact ⟨fun n => hevaluate n m, fun n => hexecute n m, fun ns => Stays.within scope _ m,
      fun callee vs paren => Stays.call hexecute callee vs paren m⟩
  · exact interpretWith_does sameScope_lawful s.limits s.machine s.diagnostics ns
  · exact after_does sameScope_lawful (new limits traceLevel clock) steps
  · have answered : (s.step (.interpretNodes ns)).1 = { s with
        machine := (interpretWith s.limits.layer s.machine s.diagnostics ns).1
        diagnostics := (interpretWith s.limits.layer s.machine s.diagnostics ns).2 } := rfl
    dsimp only
    rw [answered]
    rcases interpretWith_cases s.limits.layer s.machine s.diagnostics ns with
      ⟨hnone, hd⟩ | ⟨n, e, m, hfails, h⟩
    · exact ⟨rfl, by rw [hd], .inl ⟨hnone, hd⟩⟩
    · obtain ⟨text, htext⟩ := Diagnostics.addFault_eq s.diagnostics n e
      rw [h, htext]
      exact ⟨rfl, rfl, .inr ⟨n, e, m, text, hfails, rfl, rfl, rfl⟩⟩

end Session

end LoxLang
