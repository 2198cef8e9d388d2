import LoxLang.Proofs.Overflow.CutShort
import LoxLang.Proofs.Scoping.Restored
/-!
# The stack shows in its overflow only

How much nesting a stack allows cannot be told from a program that is interpreted without an
overflow. An overflow ends the run, whichever statement it comes from, and is reported; until then
everything was printed as on any longer stack.
-/

namespace LoxLang

/-! ## Reports of overflows -/

/-- A message that says that the stack is used up. -/
def ReportsOverflow (message : String) : Prop :=
  Cause.stackOverflow.message.toList <+: message.toList

/-- A text that starts with another letter. -/
abbrev StartsOtherwise (text : String) : Prop := text.toList.head?.any (· ≠ 'S')

namespace StartsOtherwise

variable {text : String}

theorem append (h : StartsOtherwise text) (more : String) : StartsOtherwise (text ++ more) := by
  unfold StartsOtherwise at h ⊢
  rw [String.toList_append]
  cases htext : text.toList with
  | nil =>
    rw [htext] at h
    cases h
  | cons first others =>
    rw [htext] at h
    exact h

theorem not_reportsOverflow (h : StartsOtherwise text) : ¬ ReportsOverflow text := by
  rintro ⟨rest, hrest⟩
  unfold StartsOtherwise at h
  rw [← hrest] at h
  cases h

end StartsOtherwise

/-- The messages of all other causes start otherwise. -/
theorem Cause.startsOtherwise {c : Cause} (h : c ≠ .stackOverflow) : StartsOtherwise c.message := by
  cases c with
  | stackOverflow => exact absurd rfl h
  | operandNotNumber | operandsNotNumbers | notAddable | notCallable => decide
  | undefined | unsupportedUnary | unsupportedBinary =>
    exact .append (.append (by decide) _) _
  | arity => exact .append (.append (.append (.append (by decide) _) _) _) _
  | native r =>
    cases r with
    | expectsString n | expectsNumber n => exact .append (by cases n <;> decide) _
    | outOfBounds =>
      exact .append (.append (.append (.append (.append (.append (by decide) _) _) _) _) _) _
    | outOfRange => exact .append (.append (by decide) _) _

theorem Diagnostics.addFault_overflow (d : Diagnostics) (n : Node) {e : Fault}
    (h : e.isOverflow) : ∃ t, d.addFault n e = d.addFailure t Cause.stackOverflow.message := by
  cases e with
  | runtime t c =>
    cases c with
    | stackOverflow => exact ⟨t, rfl⟩
    | _ => cases h
  | overflow => exact ⟨_, rfl⟩
  | _ => cases h

theorem Diagnostics.addFault_other (d : Diagnostics) (n : Node) {e : Fault} (h : ¬ e.isOverflow) :
    ∃ text, (d.addFault n e).messages = d.messages ++ [text] ∧ ¬ ReportsOverflow text := by
  have internal : ∀ what : String, ¬ ReportsOverflow ("Internal error: " ++ what) := fun what =>
    (StartsOtherwise.append (by decide) what).not_reportsOverflow
  cases e with
  | runtime t c =>
    have hc := Cause.startsOtherwise fun hc : c = .stackOverflow => h (by rw [hc]; rfl)
    exact ⟨_, rfl, StartsOtherwise.not_reportsOverflow (.append (.append (.append hc _) _) _)⟩
  | overflow => exact absurd rfl h
  | misplaced | broken | unfinished => exact ⟨_, rfl, internal _⟩

/-! ## Interpreting -/

namespace Session

/-- Statements on the lower of two stacks: they end as on the higher one, or one of them overflows,
and the higher stack prints on from there. -/
theorem interpretWith_cutShort {layer layer' : Layer Run} (h : Parametric.Layers CutShort layer layer')
    (m : Machine) (d : Diagnostics) (ns : List Node) :
    m.PrintsOn (interpretWith layer' m d ns).1 ∧
      (interpretWith layer m d ns = interpretWith layer' m d ns ∨
        ∃ n e m', Fails layer m ns n e m' ∧ e.isOverflow ∧
          interpretWith layer m d ns = (m', d.addFault n e) ∧
          m'.PrintsOn (interpretWith layer' m d ns).1) := by
  induction ns generalizing m with
  | nil => exact ⟨.of_eq rfl, .inl rfl⟩
  | cons n ns ih =>
    obtain ⟨hgrows, hends⟩ : CutShort m (topLevel layer n) (topLevel layer' n) :=
      CutShort.parametric.topLevel h n
    -- What is printed after the first statement only comes after what it printed.
    have goesOn : (machineOf (topLevel layer' n m)).PrintsOn (interpretWith layer' m d (n :: ns)).1 := by
      unfold interpretWith
      cases topLevel layer' n m with
      | ok c m₁ =>
        cases c with
        | normal => exact (ih m₁).1
        | returned v => exact .of_eq rfl
      | error e m₁ => exact .of_eq rfl
    refine ⟨hgrows.trans goesOn, ?_⟩
    rcases hends with heq | ⟨e, m₁, hr, he, hprints⟩
    · unfold interpretWith
      cases hr : topLevel layer' n m with
      | ok c m₁ =>
        rw [hr] at heq
        rw [heq]
        cases c with
        | normal =>
          rcases (ih m₁).2 with hsame | ⟨k, e, m', hfails, hrest⟩
          · exact .inl hsame
          · exact .inr ⟨k, e, m', .later heq hfails, hrest⟩
        | returned v => exact .inl rfl
      | error e m₁ =>
        rw [heq, hr]
        exact .inl rfl
    · refine .inr ⟨n, e, m₁, .here hr, he, ?_, hprints.trans goesOn⟩
      rw [interpretWith, hr]

/-- Statements are interpreted from any state on two stacks, of which one allows more nesting. On the
lower one either no overflow is reported, and then machine and diagnostics end up the same; or a
statement overflows, nothing is run after it, the overflow is the only message and the scope is the
one before, and on the higher stack what was printed is printed first. -/
theorem overflow_surfaces (s : Session) (turns nesting extra : Nat) (ns : List Node) :
    let on (nesting : Nat) : Session := { s with limits := ⟨nesting, turns⟩ }.interpret ns
    let low := on nesting
    let high := on (nesting + extra)
    (∃ new, low.diagnostics.messages = s.diagnostics.messages ++ new ∧
        (∀ message ∈ new, ¬ ReportsOverflow message) ∧
        low.machine = high.machine ∧ low.diagnostics = high.diagnostics) ∨
      ∃ n e line, Fails (Layer.atop turns nesting) s.machine ns n e low.machine ∧ e.isOverflow ∧
        low.diagnostics = ⟨s.diagnostics.syntaxErrors, true,
          s.diagnostics.messages ++ ["Stack overflow.\n[line " ++ intText line ++ "]"]⟩ ∧
        (∃ more, high.machine.output = low.machine.output ++ more) ∧
        low.machine.scope = s.machine.scope := by
  intro on low high
  have hscope : low.machine.scope = s.machine.scope :=
    interpretWith_does sameScope_lawful ⟨nesting, turns⟩ s.machine s.diagnostics ns
  -- Whichever way it was found out, an overflow that was reported comes to this.
  have overflowed : ∀ n e m, Fails (Layer.atop turns nesting) s.machine ns n e m → e.isOverflow →
      low.machine = m → low.diagnostics = s.diagnostics.addFault n e → m.PrintsOn high.machine →
      ∃ n e line, Fails (Layer.atop turns nesting) s.machine ns n e low.machine ∧ e.isOverflow ∧
        low.diagnostics = ⟨s.diagnostics.syntaxErrors, true,
          s.diagnostics.messages ++ ["Stack overflow.\n[line " ++ intText line ++ "]"]⟩ ∧
        (∃ more, high.machine.output = low.machine.output ++ more) ∧
        low.machine.scope = s.machine.scope := by
    rintro n e _ hfails he rfl hd hprints
    obtain ⟨t, ht⟩ := s.diagnostics.addFault_overflow n he
    exact ⟨n, e, t.line, hfails, he, hd.trans ht, hprints, hscope⟩
  obtain ⟨-, hends⟩ := interpretWith_cutShort (CutShort.atop turns extra nesting) s.machine
    s.diagnostics ns
  rcases hends with hsame | ⟨n, e, m, hfails, he, hlow, hprints⟩
  · have hmachine : low.machine = high.machine := congrArg Prod.fst hsame
    have hdiagnostics : low.diagnostics = high.diagnostics := congrArg Prod.snd hsame
    rcases interpretWith_cases (Layer.atop turns nesting) s.machine s.diagnostics ns with
      ⟨-, hd⟩ | ⟨n, e, m, hfails, hlow⟩
    · have hquiet : low.diagnostics = s.diagnostics := hd
      exact .inl ⟨[], by rw [hquiet, List.append_nil], by simp, hmachine, hdiagnostics⟩
    · have hm : low.machine = m := congrArg Prod.fst hlow
      have hd : low.diagnostics = s.diagnostics.addFault n e := congrArg Prod.snd hlow
      by_cases he : e.isOverflow
      · exact .inr (overflowed n e m hfails he hm hd (.of_eq (by rw [← hm, hmachine])))
      · obtain ⟨text, htext, hother⟩ := s.diagnostics.addFault_other n he
        exact .inl ⟨[text], by rw [hd, htext], by simpa using hother, hmachine, hdiagnostics⟩
  · exact .inr (overflowed n e m hfails he (congrArg Prod.fst hlow) (congrArg Prod.snd hlow) hprints)

end Session

end LoxLang
