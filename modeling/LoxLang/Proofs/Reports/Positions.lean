import LoxLang.Proofs.InStep.Sessions
import LoxLang.Proofs.Reading.Mirrored
import LoxLang.Proofs.Reports.Flags
import LoxLang.Proofs.Token.LineNumbers
/-!
# Positions of reports

What is wrong with the syntax of a text is reported on a line of that text. An error of a program
is reported at a token that the scan of a text gave, of this one or of an earlier one that made the
function that was running, and the token plays the part in the tree that the error is about.
-/

namespace LoxLang

/-! ## Syntax -/

/-- A message about the syntax of a text that names a line of it. -/
def IsSyntaxMessage (source message : String) : Prop :=
  ∃ line place text, IsLine source line ∧
    message = "[line " ++ intText line ++ "] Error" ++ place ++ ": " ++ text

theorem Diagnostics.messages_addComplaints (d : Diagnostics) (complaints : List Complaint) :
    (d.addComplaints complaints).messages = d.messages ++ complaints.map fun x =>
      "[line " ++ intText x.token.line ++ "] Error" ++ placeOf x.token ++ ": " ++
        x.objection.message := by
  induction complaints generalizing d with
  | nil => simp [addComplaints]
  | cons x xs ih =>
    change ((d.addSyntaxAt x.token x.objection.message).addComplaints xs).messages = _
    rw [ih, addSyntaxAt, messages_addSyntax, List.map_cons, List.append_assoc, List.singleton_append]

theorem Diagnostics.messages_addText (d : Diagnostics) (source : String) :
    ∃ new, (d.addText source).messages = d.messages ++ new ∧
      ∀ message ∈ new, IsSyntaxMessage source message := by
  refine ⟨_, by rw [addText, messages_addComplaints, messages_addScan, List.append_assoc], ?_⟩
  intro message hmem
  rcases List.mem_append.1 hmem with hmem | hmem
  · obtain ⟨e, he, rfl⟩ := List.mem_map.1 hmem
    exact ⟨e.line, "", e.message, Scan.isLine_error he, rfl⟩
  · obtain ⟨x, hx, rfl⟩ := List.mem_map.1 hmem
    exact ⟨x.token.line, placeOf x.token, x.objection.message,
      Scan.isLine_token (Program.complaint_known hx), rfl⟩

/-! ## Errors of programs -/

/-- A token of one of the given texts that plays a part in the trees made of that text. -/
def Token.PlaysIn (given : List String) (r : Role) (t : Token) : Prop :=
  ∃ source ∈ given, t ∈ (Scan.ofText source).tokens ∧
    ∃ n ∈ (Program.ofText source).statements, ∃ k : Node, k.Within n ∧ (r, t) ∈ k.ownTokens

/-- Trees made of the given texts. -/
def Likeness.givenBy (given : List String) : Likeness where
  token r t t' := t = t' ∧ t.kind ∈ r.kinds ∧ t.PlaysIn given r
  literal _ := True
  misplaced := False

theorem Likeness.givenBy_covers {given : List String} {source : String} (h : source ∈ given) :
    (Likeness.givenBy given).Covers source := by
  intro n hn
  obtain ⟨-, -, -, hproper, -⟩ := Program.ofText_reads source _
  refine (hproper n hn).impWithin ?_ (fun _ => trivial) False.elim
  rintro k r t _ hk hmem ⟨rfl, ht, hkind⟩
  exact ⟨rfl, hkind, source, h, ht, n, hn, k, hk, hmem⟩

/-- The causes that lie in a call. -/
def Cause.ofCall : Cause → Bool
  | notCallable | arity .. | native _ => true
  | _ => false

/-- An error of a program stands at a token of one of the given texts, on a line of it. If a variable
is not defined, that is its name; if a call is wrong, that is its closing parenthesis. -/
def Fault.Positioned (given : List String) : Fault → Prop
  | .runtime t c =>
    (∃ source ∈ given, t ∈ (Scan.ofText source).tokens ∧ IsLine source t.line) ∧
    (∀ name, c = .undefined name → t.kind = .identifier ∧ t.lexeme = name) ∧
    (c.ofCall → t.kind = .rightParen ∧ ∃ source ∈ given, t ∈ (Scan.ofText source).tokens ∧
      ∃ n ∈ (Program.ofText source).statements, ∃ callee arguments,
        (Node.call callee t arguments).Within n)
  | _ => True

theorem Token.PlaysIn.isLine {given : List String} {r : Role} {t : Token} (h : t.PlaysIn given r) :
    ∃ source ∈ given, t ∈ (Scan.ofText source).tokens ∧ IsLine source t.line := by
  obtain ⟨source, hs, ht, -⟩ := h
  exact ⟨source, hs, ht, Scan.isLine_token ht⟩

/-- A parenthesis that belongs to a node belongs to a call. -/
theorem Node.call_of_paren {k : Node} {t : Token} (h : (Role.paren, t) ∈ k.ownTokens) :
    ∃ callee arguments, k = .call callee t arguments := by
  cases k with
  | call callee t arguments =>
    cases List.mem_singleton.1 h
    exact ⟨callee, arguments, rfl⟩
  | _ => simp [ownTokens] at h

theorem unaryOperation_cause {t : Token} {v : Value} {e : OperationError}
    (h : unaryOperation t v = .error e) :
    e = .wrong .operandNotNumber ∨ e = .wrong (.unsupportedUnary t.lexeme) := by
  unfold unaryOperation at h
  split at h
  · cases h
  · split at h <;> cases h
    exact .inl rfl
  · cases h
    exact .inr rfl

theorem arithmetic_cause {t : Token} {x y : Float} {e : OperationError}
    (h : arithmetic t x y = .error e) :
    (∃ b, e = .broken b) ∨ e = .wrong (.unsupportedBinary t.lexeme) := by
  unfold arithmetic at h
  split at h <;> try cases h
  · split at h
    · cases h
    · unfold quotient at h
      split at h <;> cases h
      exact .inl ⟨_, rfl⟩
  · exact .inr rfl

theorem binaryOperation_cause {t : Token} {x y : Value} {e : OperationError}
    (h : binaryOperation t x y = .error e) :
    (∃ b, e = .broken b) ∨ e = .wrong .operandsNotNumbers ∨ e = .wrong .notAddable ∨
      e = .wrong (.unsupportedBinary t.lexeme) := by
  unfold binaryOperation at h
  split at h
  · cases h
  · cases h
  · unfold addition at h
    split at h <;> cases h
    exact .inr (.inr (.inl rfl))
  · split at h
    · exact (arithmetic_cause h).imp id fun h => .inr (.inr h)
    · cases h
      exact .inr (.inl rfl)

theorem Likeness.givenBy_admits (given : List String) :
    (Likeness.givenBy given).Admits (Fault.Positioned given) where
  eq h := h.1
  sorted h := h
  undefined := by
    rintro t ⟨-, hkind, hplays⟩
    refine ⟨hplays.isLine, ?_, by simp [Cause.ofCall]⟩
    rintro name ⟨⟩
    exact ⟨by simpa [Role.kinds] using hkind, rfl⟩
  unary := by
    rintro t v e ⟨-, -, hplays⟩ h
    rcases unaryOperation_cause h with rfl | rfl <;>
      exact ⟨hplays.isLine, by simp, by simp [Cause.ofCall]⟩
  binary := by
    rintro t x y e ⟨-, -, hplays⟩ h
    rcases binaryOperation_cause h with ⟨b, rfl⟩ | rfl | rfl | rfl
    · trivial
    all_goals exact ⟨hplays.isLine, by simp, by simp [Cause.ofCall]⟩
  call := by
    rintro t c ⟨-, hkind, hplays⟩ hc
    refine ⟨hplays.isLine, ?_, fun _ => ⟨by simpa [Role.kinds] using hkind, ?_⟩⟩
    · rintro name rfl
      simp at hc
    · obtain ⟨source, hs, ht, n, hn, k, hk, hmem⟩ := hplays
      obtain ⟨callee, arguments, rfl⟩ := Node.call_of_paren hmem
      exact ⟨source, hs, ht, n, hn, callee, arguments, hk⟩
  broken _ _ := trivial
  overflow := trivial
  unfinished := trivial

namespace Session

/-- Whatever texts a session has been given: what reading the next one reports names lines of it.
Running it reports no more than that, or an error with its position in one of the texts; so does
evaluating it. -/
theorem positions_real (limits : Limits) (traceLevel : Nat) (clock : Nat → Float)
    (steps : List Step) (h : ∀ step ∈ steps, step.ofText) (source : String) :
    let s := (new limits traceLevel clock).after steps
    let given := source :: steps.filterMap Step.text?
    let read := (s.read source).1.diagnostics
    (∃ new, read.messages = s.diagnostics.messages ++ new ∧
      ∀ message ∈ new, IsSyntaxMessage source message) ∧
    (∀ step ∈ [Step.run source, .interpret source, .evaluate source],
      let after := (s.step step).1.diagnostics
      after = read ∨ ∃ n e, after = read.addFault n e ∧ e.Positioned given) ∧
    ∀ e, (s.step (.evaluate source)).2 = .failed (.fault e) → e.Positioned given := by
  intro s given read
  have hl := Likeness.givenBy_admits given
  have covers : ∀ text ∈ given, (Likeness.givenBy given).Covers text :=
    fun _ => Likeness.givenBy_covers
  have hm : s.machine.MadeOf (.givenBy given) :=
    after_madeOf hl (new_madeOf limits traceLevel clock) h fun text ht =>
      covers text (List.mem_cons_of_mem _ ht)
  have hsource : (Likeness.givenBy given).Covers source := covers source List.mem_cons_self
  -- What is reported of the statements is their first fault.
  have interpreted : ((s.read source).1.interpret (s.read source).2).diagnostics = read ∨
      ∃ n e, ((s.read source).1.interpret (s.read source).2).diagnostics = read.addFault n e ∧
        e.Positioned given := by
    have hreport : ((s.read source).1.interpret (s.read source).2).diagnostics = _ :=
      diagnostics_interpretWith s.limits.layer s.machine read (Program.ofText source).statements
    have hfault := (interpretWith_leaves hl s.limits hsource hm read).2
    rw [hreport]
    cases hf : firstFault s.limits.layer s.machine (Program.ofText source).statements with
    | none => exact .inl rfl
    | some f => exact .inr ⟨f.1, f.2, rfl, hfault f.1 f.2 hf⟩
  refine ⟨s.diagnostics.messages_addText source, ?_, ?_⟩
  · intro step hstep
    simp only [List.mem_cons, List.not_mem_nil, or_false] at hstep
    rcases hstep with rfl | rfl | rfl
    · change Session.diagnostics (s.run source) = read ∨
        ∃ n e, Session.diagnostics (s.run source) = read.addFault n e ∧ _
      rw [run_eq]
      split
      · exact .inl rfl
      · exact interpreted
    · exact interpreted
    · exact .inl (s.diagnostics_evaluate source)
  · refine (step_leaves hl s rfl (fun text ht => ?_) hm).2
    cases ht
    exact hsource

/-- A function that was read without errors is called by a text that was not. The error stands on
the second line of the earlier text. -/
theorem positions_real_earlierText :
    let earlier := "fun f(x) \x7b\n return x + y; \x7d"
    let source := "f(1);\n2 +;"
    let steps := [Step.run earlier]
    let fault : Fault := .runtime ⟨.identifier, "y", .string "y", 2⟩ (.undefined "y")
    (∀ step ∈ steps, step.ofText) ∧
      (((new .usual 0 fun _ => 0).after steps).step (.evaluate source)).2 = .failed (.fault fault) ∧
      fault.Positioned [source, earlier] := by
  intro earlier source steps fault
  have htexts : ∀ step ∈ steps, step.ofText := by decide
  have hfault : (((new .usual 0 fun _ => 0).after steps).step (.evaluate source)).2 =
      .failed (.fault fault) := by decide +kernel
  exact ⟨htexts, hfault,
    (positions_real .usual 0 (fun _ => 0) steps htexts source).2.2 fault hfault⟩

end Session

end LoxLang
