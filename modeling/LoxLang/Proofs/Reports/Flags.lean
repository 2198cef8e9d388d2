import LoxLang.Proofs.Prompt.Batch
import LoxLang.Proofs.Scoping.Restored
/-!
# Flags and messages

Scans and programs report errors of syntax, runs report failures, and a reset forgets both. In
whatever order that is done, a flag is set if and only if there is a message.
-/

namespace LoxLang

/-- The complaints about some tokens. If they have no end token, reading stops where they end. -/
def Program.complaintsAbout (nesting : Nat) (tokens : List Token) : List Complaint :=
  match declarations (Rules.atop (tokens.length + 1) nesting) (tokens.length + 1)
    ⟨[], tokens, []⟩ with
  | .ok _ c | .error _ c => c.complaints

theorem Program.complaintsAbout_eq {nesting : Nat} {tokens : List Token} {p : Program}
    (h : within? nesting tokens = some p) : complaintsAbout nesting tokens = p.complaints := by
  unfold within? at h
  unfold complaintsAbout
  dsimp only at h
  generalize declarations (Rules.atop (tokens.length + 1) nesting) (tokens.length + 1)
    ⟨[], tokens, []⟩ = r at h ⊢
  cases r with
  | ok =>
    cases h
    rfl
  | error => cases h

/-- What may be done with diagnostics. -/
inductive Work where
  | scan (source : String)
  /-- Read tokens, at most `nesting` layers deep. -/
  | parse (nesting : Nat) (tokens : List Token)
  | interpret (layer : Layer Run) (machine : Machine) (statements : List Node)
  | reset

namespace Diagnostics

/-- The diagnostics after a piece of work. -/
def did (d : Diagnostics) : Work → Diagnostics
  | .scan source => d.addScan (Scan.ofText source).errors
  | .parse nesting tokens => d.addComplaints (Program.complaintsAbout nesting tokens)
  | .interpret layer machine statements => (Session.interpretWith layer machine d statements).2
  | .reset => .none

/-- The diagnostics after several pieces of work. -/
def didAll (d : Diagnostics) (works : List Work) : Diagnostics := works.foldl did d

/-- There are messages if and only if a flag is set. -/
def Truthful (d : Diagnostics) : Prop := d.messages ≠ [] ↔ d.syntaxErrors = true ∨ d.failures = true

/-! ## Syntax -/

theorem failures_addScan (d : Diagnostics) (errors : List ScanError) :
    (d.addScan errors).failures = d.failures := by
  induction errors generalizing d with
  | nil => rfl
  | cons e es ih => exact ih (d.addSyntax e.line "" e.message)

theorem failures_addComplaints (d : Diagnostics) (complaints : List Complaint) :
    (d.addComplaints complaints).failures = d.failures := by
  induction complaints generalizing d with
  | nil => rfl
  | cons c cs ih => exact ih (d.addSyntaxAt c.token c.objection.message)

namespace Truthful

variable {d : Diagnostics}

protected theorem none : Diagnostics.none.Truthful := by simp [Truthful, Diagnostics.none]

theorem addSyntax (d : Diagnostics) (line : Int) (place message : String) :
    (d.addSyntax line place message).Truthful := by simp [Truthful, Diagnostics.addSyntax]

theorem addScan (h : d.Truthful) (errors : List ScanError) : (d.addScan errors).Truthful := by
  induction errors generalizing d with
  | nil => exact h
  | cons e es ih => exact ih (addSyntax d e.line "" e.message)

theorem addComplaints (h : d.Truthful) (complaints : List Complaint) :
    (d.addComplaints complaints).Truthful := by
  induction complaints generalizing d with
  | nil => exact h
  | cons c cs ih => exact ih (addSyntax d c.token.line (placeOf c.token) c.objection.message)

end Truthful

/-! ## Runs -/

/-- Interpreting leaves the diagnostics alone or adds one failure. -/
theorem interpretWith_addFault (layer : Layer Run) (m : Machine) (d : Diagnostics) (ns : List Node) :
    (Session.interpretWith layer m d ns).2 = d ∨
      ∃ n e, (Session.interpretWith layer m d ns).2 = d.addFault n e := by
  rcases Session.interpretWith_cases layer m d ns with ⟨-, hd⟩ | ⟨n, e, m', -, h⟩
  · exact .inl hd
  · exact .inr ⟨n, e, by rw [h]⟩

theorem syntaxErrors_interpretWith (layer : Layer Run) (m : Machine) (d : Diagnostics)
    (ns : List Node) : (Session.interpretWith layer m d ns).2.syntaxErrors = d.syntaxErrors := by
  rcases interpretWith_addFault layer m d ns with h | ⟨n, e, h⟩
  · rw [h]
  · obtain ⟨text, htext⟩ := addFault_eq d n e
    rw [h, htext]

theorem Truthful.interpretWith {d : Diagnostics} (h : d.Truthful) (layer : Layer Run) (m : Machine)
    (ns : List Node) : (Session.interpretWith layer m d ns).2.Truthful := by
  rcases interpretWith_addFault layer m d ns with hd | ⟨n, e, hd⟩
  · rwa [hd]
  · obtain ⟨text, htext⟩ := addFault_eq d n e
    rw [hd, htext]
    simp [Truthful]

/-! ## All work -/

theorem Truthful.did {d : Diagnostics} (h : d.Truthful) (work : Work) : (d.did work).Truthful := by
  cases work with
  | scan source => exact h.addScan _
  | parse nesting tokens => exact h.addComplaints _
  | interpret layer machine statements => exact h.interpretWith layer machine statements
  | reset => exact .none

theorem Truthful.didAll {d : Diagnostics} (h : d.Truthful) (works : List Work) :
    (d.didAll works).Truthful := by
  induction works generalizing d with
  | nil => exact h
  | cons work works ih => exact ih (h.did work)

end Diagnostics

/-! ## Sessions -/

theorem Diagnostics.addText_did (d : Diagnostics) (source : String) (nesting : Nat) :
    d.addText source nesting =
      d.didAll [.scan source, .parse nesting (Scan.ofText source).tokens] := by
  change _ = (d.addScan _).addComplaints (Program.complaintsAbout _ _)
  rw [Program.complaintsAbout_eq (Program.within?_ofText source nesting)]
  rfl

namespace Session

theorem answering_diagnostics {α : Type} (s : Session) (body : Run α) (answer : α → Answer) :
    (s.answering body answer).1.diagnostics = s.diagnostics := by
  unfold answering
  cases body s.machine <;> rfl

/-- Evaluating a text reports what is wrong with its syntax only; a fault is its answer. -/
theorem diagnostics_evaluate (s : Session) (source : String) :
    (s.step (.evaluate source)).1.diagnostics = (s.read source).1.diagnostics := by
  unfold Session.step
  dsimp only
  split
  · rfl
  · split
    · exact answering_diagnostics _ _ _
    · rfl

/-- All that a step of a session does with the diagnostics is some work. -/
theorem step_did (s : Session) (step : Step) :
    ∃ works, (s.step step).1.diagnostics = s.diagnostics.didAll works := by
  have reads : ∀ source,
      (s.read source).1.diagnostics =
        s.diagnostics.didAll [.scan source, .parse nestingLimit (Scan.ofText source).tokens] :=
    fun source => s.diagnostics.addText_did source nestingLimit
  have interpreted : ∀ source ns, ∃ works,
      ((s.read source).1.interpret ns).diagnostics = s.diagnostics.didAll works := by
    intro source ns
    refine ⟨[.scan source, .parse nestingLimit (Scan.ofText source).tokens, .interpret s.limits.layer s.machine ns],
      ?_⟩
    change (interpretWith _ _ (s.read source).1.diagnostics ns).2 = _
    rw [reads]
    rfl
  cases step with
  | run source =>
    change ∃ works, Session.diagnostics (s.run source) = _
    rw [run_eq]
    split
    · exact ⟨_, reads source⟩
    · exact interpreted source _
  | interpret source => exact interpreted source _
  | interpretNodes ns => exact ⟨[.interpret s.limits.layer s.machine ns], rfl⟩
  | evaluate source =>
    exact ⟨[.scan source, .parse nestingLimit (Scan.ofText source).tokens],
      (diagnostics_evaluate s source).trans (reads source)⟩
  | evaluateNode n => exact ⟨[], answering_diagnostics s _ _⟩
  | evaluateText text =>
    refine ⟨[], ?_⟩
    unfold Session.step
    dsimp only
    split
    · exact answering_diagnostics s _ _
    · rfl
  | executeNode n => exact ⟨[], answering_diagnostics s _ _⟩
  | reset => exact ⟨[.reset], rfl⟩
  | close => exact ⟨[], rfl⟩

/-- A session's flags and messages agree, whatever it is asked to do. -/
theorem after_truthful {s : Session} (h : s.diagnostics.Truthful) (steps : List Step) :
    (s.after steps).diagnostics.Truthful := by
  induction steps generalizing s with
  | nil => exact h
  | cons step steps ih =>
    obtain ⟨works, hworks⟩ := step_did s step
    exact ih (hworks ▸ h.didAll works)

end Session

end LoxLang
