import LoxLang.Command
import LoxLang.Proofs.Node.Printing
import LoxLang.Proofs.Reports.Flags
/-!
# The exit code

The exit code of a script tells what was reported of it. A script whose syntax is complained about is
not run; otherwise the code tells whether a statement failed. Listing the statements complains about
the same scripts, and listing the tokens about no others.
-/

namespace LoxLang

namespace Session

/-- A statement of a text fails when the text is run. -/
def Breaks (s : Session) (source : String) (nesting : Nat := nestingLimit) : Prop :=
  ∃ n e m, Fails s.limits.layer s.machine (Program.ofText source nesting).statements n e m

/-- A valid text is run if no syntax error has been reported before. -/
theorem run_eq_interpret {s : Session} {source : String} {nesting : Nat}
    (hs : s.diagnostics = .none) (h : isValid source nesting) :
    s.run source nesting = s.interpret (Program.ofText source nesting).statements := by
  have hclean : ¬ (Diagnostics.none.syntaxErrors = true) := by decide
  rw [run_eq, read_eq, hs, Diagnostics.addText_valid h, if_neg hclean, ← hs]

/-- What is reported of statements that are run with nothing reported before: a failure, if there is
one. -/
theorem diagnostics_interpret {s : Session} (hs : s.diagnostics = .none) (ns : List Node) :
    (s.interpret ns).diagnostics.syntaxErrors = false ∧
      ((s.interpret ns).diagnostics.failures = true ↔
        ∃ n e m, Fails s.limits.layer s.machine ns n e m) := by
  change (interpretWith s.limits.layer s.machine s.diagnostics ns).2.syntaxErrors = false ∧
    ((interpretWith s.limits.layer s.machine s.diagnostics ns).2.failures = true ↔ _)
  rw [hs]
  rcases interpretWith_cases s.limits.layer s.machine .none ns with
    ⟨hnone, hd⟩ | ⟨n, e, m, hfails, h⟩
  · rw [hd]
    refine ⟨rfl, fun h => ?_, fun ⟨n, e, m, hfails⟩ => absurd hfails (hnone n e m)⟩
    cases h
  · obtain ⟨text, htext⟩ := Diagnostics.addFault_eq .none n e
    rw [h, htext]
    exact ⟨rfl, fun _ => ⟨n, e, m, hfails⟩, fun _ => rfl⟩

end Session

namespace Command

variable {limits : Limits} {verbosity : Nat} {clock : Nat → Float} {source : String}
  {parsing printing : Nat}

/-! ## Running -/

/-- What is left of a run, by the session that it ends with. -/
theorem runScript_eq {s : Session}
    (h : (Session.new limits verbosity clock).run source parsing = s) :
    runScript limits verbosity clock source parsing =
      ⟨if s.diagnostics.syntaxErrors then dataError
        else if s.diagnostics.failures then softwareError
        else 0,
        s.machine.output, printed s.diagnostics.messages, debugFile s verbosity⟩ := by
  subst h
  rfl

/-- A script whose syntax is complained about leaves the machine alone. -/
theorem runScript_invalid (h : isValid source parsing = false) :
    (runScript limits verbosity clock source parsing).exit = dataError ∧
      (runScript limits verbosity clock source parsing).out = "" ∧
      ((Session.new limits verbosity clock).run source parsing).machine =
        (Session.new limits verbosity clock).machine := by
  have hrun := Session.run_invalid (s := Session.new limits verbosity clock) h
  rw [runScript_eq hrun, hrun]
  exact ⟨if_pos (Diagnostics.syntaxErrors_addText h _), rfl, rfl⟩

variable (limits verbosity clock) in
/-- A valid script exits by whether one of its statements fails. -/
theorem runScript_valid (h : isValid source parsing) :
    let breaks := (Session.new limits verbosity clock).Breaks source parsing
    let exit := (runScript limits verbosity clock source parsing).exit
    (breaks ∧ exit = softwareError) ∨ (¬ breaks ∧ exit = 0) := by
  have hrun := Session.run_eq_interpret (s := Session.new limits verbosity clock) rfl h
  obtain ⟨hquiet, hfailures⟩ := Session.diagnostics_interpret
    (s := Session.new limits verbosity clock) rfl (Program.ofText source parsing).statements
  rw [runScript_eq hrun, hquiet, if_neg Bool.false_ne_true]
  by_cases hbreaks : (Session.new limits verbosity clock).Breaks source parsing
  · exact .inl ⟨hbreaks, if_pos (hfailures.2 hbreaks)⟩
  · exact .inr ⟨hbreaks, if_neg fun hf => hbreaks (hfailures.1 hf)⟩

variable (limits verbosity clock source parsing) in
/-- The three ways in which running a script can end. -/
theorem exit_runScript :
    let breaks := (Session.new limits verbosity clock).Breaks source parsing
    let exit := (runScript limits verbosity clock source parsing).exit
    (exit = 65 ↔ isValid source parsing = false) ∧ (exit = 70 ↔ isValid source parsing ∧ breaks) ∧
      (exit = 0 ↔ isValid source parsing ∧ ¬ breaks) := by
  intro breaks exit
  cases hv : isValid source parsing with
  | false =>
    have hexit : exit = 65 := (runScript_invalid hv).1
    simp [hexit]
  | true =>
    rcases runScript_valid limits verbosity clock hv with
      ⟨hbreaks, hexit⟩ | ⟨hbreaks, hexit⟩
    · have hbreaks : breaks := hbreaks
      have hexit : exit = 70 := hexit
      simp [hexit, hbreaks]
    · have hbreaks : ¬ breaks := hbreaks
      have hexit : exit = 0 := hexit
      simp [hexit, hbreaks]

/-! ## Listing -/

theorem exit_listTokens (h : (listTokens source).exit = 65) : isValid source parsing = false := by
  cases hv : isValid source parsing with
  | false => rfl
  | true =>
    unfold listTokens at h
    dsimp only at h
    rw [(isValid_iff.1 hv).1] at h
    cases h

variable (source parsing printing) in
/-- A listing, by what is reported of the script. -/
theorem listStatements_eq :
    listStatements source parsing printing =
      ((Program.ofText source parsing).statements.mapM
          (printWithin printing Node.statementText)).mapError (fun _ => Crash.tooDeep) >>=
        fun lines => .ok
          ⟨if (Diagnostics.none.addText source parsing).syntaxErrors then dataError else 0,
            printed lines, printed (Diagnostics.none.addText source parsing).messages, none⟩ := rfl

theorem exit_listStatements {o : Outcome} (h : listStatements source parsing printing = .ok o) :
    o.exit = 65 ↔ isValid source parsing = false := by
  rw [listStatements_eq] at h
  obtain ⟨lines, -, h⟩ := ok_of_bind h
  cases h
  cases hv : isValid source parsing with
  | false => simp [Diagnostics.syntaxErrors_addText hv, dataError]
  | true => simp [Diagnostics.addText_valid hv, Diagnostics.none]

theorem mapM_ok {α β ε : Type} {f : α → Except ε β} {as : List α}
    (h : ∀ a ∈ as, ∃ b, f a = .ok b) : ∃ bs, as.mapM f = .ok bs := by
  induction as with
  | nil => exact ⟨[], rfl⟩
  | cons a as ih =>
    obtain ⟨b, hb⟩ := h a (by simp)
    obtain ⟨bs, hbs⟩ := ih fun a ha => h a (by simp [ha])
    exact ⟨b :: bs, by rw [List.mapM_cons, hb, hbs]; rfl⟩

/-- The statements of a script are listed, unless one of them nests too deeply. -/
theorem listStatements_ok
    (h : ∀ n ∈ (Program.ofText source parsing).statements, n.height ≤ printing) :
    ∃ o, listStatements source parsing printing = .ok o := by
  obtain ⟨-, -, -, hproper, -⟩ := Program.ofText_reads source parsing
  have hlines : ∀ n ∈ (Program.ofText source parsing).statements,
      ∃ line, printWithin printing Node.statementText n = .ok line := by
    intro n hn
    obtain ⟨line, hline⟩ := Node.statementText_ok (hproper n hn)
    refine ⟨line, ?_⟩
    unfold printWithin
    rw [if_neg (Nat.not_lt.2 (h n hn)), hline]
    rfl
  obtain ⟨lines, hlines⟩ := mapM_ok hlines
  exact ⟨_, by rw [listStatements_eq, hlines]; rfl⟩

/-! ## The command -/

/-- Whatever is scanned, parsed, run and reset, and in sessions of any steps, there are messages if
and only if a flag is set; scans and programs set no flag for failures, and runs none for syntax.
Hence a script that is run exits with 65 if and only if its syntax is complained about, and then it
has printed and done nothing; with 70 if and only if it is not, and one of its statements fails; and
else with 0. Its statements are listed with exit code 65 in the same cases, unless one nests too
deeply to be listed, and its tokens in no other. However deep the parser and the listing may nest,
all of this holds. -/
theorem exit_tells_reports :
    ((∀ works, (Diagnostics.none.didAll works).Truthful) ∧
      (∀ limits traceLevel clock steps,
        ((Session.new limits traceLevel clock).after steps).diagnostics.Truthful) ∧
      (∀ (d : Diagnostics) source, (d.did (.scan source)).failures = d.failures) ∧
      (∀ (d : Diagnostics) nesting tokens,
        (d.did (.parse nesting tokens)).failures = d.failures) ∧
      ∀ (d : Diagnostics) layer m ns,
        (d.did (.interpret layer m ns)).syntaxErrors = d.syntaxErrors) ∧
    ∀ limits clock parsing printing,
      let on (o : Options) (source : String) := onScript limits o clock source parsing printing
      (∀ arguments files input o path source, plan arguments = .script o path →
        path.find? files = some (some source) →
        run limits arguments files input clock parsing printing = on o source) ∧
      ∀ verbosity script source,
        let text := String.ofList (unifyNewlines source.toList)
        let s := Session.new limits verbosity clock
        ∃ ran, on ⟨verbosity, false, false, script⟩ source = .ok ran ∧
          (ran.exit = 65 ↔
            (Scan.ofText text).errors ≠ [] ∨ (Program.ofText text parsing).complaints ≠ []) ∧
          (ran.exit = 65 → ran.out = "" ∧ (s.run text parsing).machine = s.machine) ∧
          (ran.exit = 70 ↔ isValid text parsing ∧ s.Breaks text parsing) ∧
          (ran.exit = 0 ↔ isValid text parsing ∧ ¬ s.Breaks text parsing) ∧
          (∀ listed, on ⟨verbosity, false, true, script⟩ source = .ok listed →
            (listed.exit = 65 ↔ ran.exit = 65)) ∧
          ((∀ n ∈ (Program.ofText text parsing).statements, n.height ≤ printing) →
            ∃ listed, on ⟨verbosity, false, true, script⟩ source = .ok listed) ∧
          ∀ ast, ∃ listed, on ⟨verbosity, true, ast, script⟩ source = .ok listed ∧
            (listed.exit = 65 → ran.exit = 65) := by
  refine ⟨⟨Diagnostics.Truthful.none.didAll, fun limits level clock =>
    Session.after_truthful (s := .new limits level clock) .none, ?_, ?_, ?_⟩,
    fun limits clock parsing printing => ⟨?_, ?_⟩⟩
  · exact fun d source => d.failures_addScan _
  · exact fun d nesting tokens => d.failures_addComplaints _
  · exact fun d layer m ns => Diagnostics.syntaxErrors_interpretWith layer m d ns
  · intro arguments files input o path source hplan hfile
    unfold run
    rw [hplan]
    dsimp only
    rw [hfile]
  · intro verbosity script source text s
    obtain ⟨hdata, hsoftware, hzero⟩ := exit_runScript limits verbosity clock text parsing
    have hinvalid : isValid text parsing = false ↔
        (Scan.ofText text).errors ≠ [] ∨ (Program.ofText text parsing).complaints ≠ [] := by
      rw [← Bool.not_eq_true, isValid_iff, not_and_or]
    refine ⟨runScript limits verbosity clock text parsing, rfl, hdata.trans hinvalid, fun h => ?_, hsoftware,
      hzero, fun listed h => ?_, listStatements_ok, fun ast => ⟨listTokens text, rfl, fun h => ?_⟩⟩
    · exact (runScript_invalid (hdata.1 h)).2
    · exact (exit_listStatements h).trans hdata.symm
    · exact hdata.2 (exit_listTokens h)

end Command

end LoxLang
