import LoxLang.Proofs.Grammar.Sums
import LoxLang.Proofs.Overflow.Program
import LoxLang.Proofs.Overflow.Session
import LoxLang.Proofs.Reports.Exit
import LoxLang.Proofs.Reports.Positions
/-!
# Deep scripts

A script may nest more deeply than the parser, the machine or the listing of statements can follow.
The parser and the machine report it, each in its own words and with its own exit code. The listing
does not: a statement that is higher than it can follow breaks the command off, and nothing else
about nesting does. The parser does not keep such statements away from it, because it reads a sum of
any length without nesting.
-/

namespace LoxLang

/-! ## The parser -/

/-- Either more layers make no difference to what is read of a text, or the last complaint about it
is that it nests too deeply. -/
theorem Program.ofText_nesting (source : String) (parsing : Nat) :
    (∀ nesting ≥ parsing, ofText source nesting = ofText source parsing) ∨
      ∃ others last, (ofText source parsing).complaints = others ++ [last] ∧
        last.objection = .tooDeep := by
  have hend : ∃ t ∈ (Scan.ofText source).tokens, t.kind = .eof :=
    ⟨.eof (Scan.lastLine 1 (items source.toList)), by
      rw [Scan.ofText, Scan.tokens_ofItems]
      simp, rfl⟩
  obtain ⟨ns, -, c, e, -, hread⟩ := within?_eq_some parsing hend
  have hprogram : ofText source parsing = ⟨ns, c.complaints⟩ :=
    Option.some.inj ((within?_ofText source parsing).symm.trans hread)
  rw [hprogram]
  by_cases hdeep : ∃ x others, c.complaints = others ++ [x] ∧ x.objection = .tooDeep
  · obtain ⟨x, others, hx, hobjection⟩ := hdeep
    exact .inr ⟨others, x, hx, hobjection⟩
  · refine .inl fun nesting hle => ?_
    obtain ⟨ns', -, c', e', -, hread'⟩ := within?_eq_some nesting hend
    rcases declarations_stopShort (Rules.StopShort.atop _ hle) e e' with
      ⟨rfl, rfl, -⟩ | ⟨c₀, x, -, hx, hobjection, -⟩
    · exact Option.some.inj ((within?_ofText source nesting).symm.trans hread')
    · exact absurd ⟨x, c₀.complaints, hx, hobjection⟩ hdeep

/-! ## The machine -/

/-- Statements that are run with nothing reported before: either a higher stack makes no difference,
or the overflow of this one is all that is reported. -/
theorem Session.interpret_nesting {s : Session} (hs : s.diagnostics = .none)
    (turns nesting : Nat) (ns : List Node) :
    let on (nesting : Nat) : Session := { s with limits := ⟨nesting, turns⟩ }.interpret ns
    (∀ extra, (on (nesting + extra)).machine = (on nesting).machine ∧
        (on (nesting + extra)).diagnostics = (on nesting).diagnostics) ∨
      ∃ t, (on nesting).diagnostics = Diagnostics.none.addFailure t Cause.stackOverflow.message := by
  intro on
  by_cases hoverflows : ∃ n e m', e.isOverflow ∧
      interpretWith (Layer.atop turns nesting) s.machine s.diagnostics ns =
        (m', s.diagnostics.addFault n e)
  · obtain ⟨n, e, m', he, h⟩ := hoverflows
    obtain ⟨t, ht⟩ := Diagnostics.addFault_overflow s.diagnostics n he
    refine .inr ⟨t, ?_⟩
    have hd : (on nesting).diagnostics = s.diagnostics.addFault n e := congrArg Prod.snd h
    rw [hd, ht, hs]
  · refine .inl fun extra => ?_
    obtain ⟨-, hsame | ⟨n, e, m', -, he, h, -⟩⟩ :=
      interpretWith_cutShort (CutShort.atop turns extra nesting) s.machine s.diagnostics ns
    · exact ⟨(congrArg Prod.fst hsame).symm, (congrArg Prod.snd hsame).symm⟩
    · exact absurd ⟨n, e, m', he, h⟩ hoverflows

namespace Command

variable {limits limits' : Limits} {verbosity : Nat} {clock : Nat → Float} {source : String}
  {parsing printing : Nat}

/-- What is printed for errors ends with a complaint that a token nests too deeply. -/
def TellsNesting (err : String) : Prop :=
  ∃ before, ∃ t : Token, err =
    before ++ ("[line " ++ intText t.line ++ "] Error" ++ Diagnostics.placeOf t ++ ": " ++
      "Too much nesting.") ++ "\n"

/-- What is printed for errors is that the stack has overflowed on some line. -/
def TellsOverflow (err : String) : Prop :=
  ∃ line, err = "Stack overflow.\n[line " ++ intText line ++ "]" ++ "\n"

@[simp]
theorem printed_nil : printed [] = "" := rfl

theorem printed_concat (lines : List String) (line : String) :
    printed (lines ++ [line]) = printed lines ++ line ++ "\n" := by
  unfold printed
  rw [List.foldl_append]
  rfl

/-- A complaint about nesting that comes last is printed last. -/
theorem tellsNesting {others : List Complaint} {last : Complaint}
    (h : (Program.ofText source parsing).complaints = others ++ [last])
    (hdeep : last.objection = .tooDeep) :
    TellsNesting (printed (Diagnostics.none.addText source parsing).messages) := by
  have hmessages : ((Diagnostics.none.addText source parsing).messages) =
      ((Diagnostics.none.addScan (Scan.ofText source).errors).addComplaints others).messages ++
        ["[line " ++ intText last.token.line ++ "] Error" ++ Diagnostics.placeOf last.token ++ ": " ++
          last.objection.message] := by
    rw [Diagnostics.addText, h, Diagnostics.addComplaints, List.foldl_append]
    rfl
  rw [hmessages, printed_concat, hdeep]
  exact ⟨_, last.token, rfl⟩

/-! ## Running -/

/-- What is left of a run is in the machine and in the diagnostics that it ends with. -/
theorem runScript_congr {s s' : Session}
    (h : (Session.new limits verbosity clock).run source parsing = s)
    (h' : (Session.new limits' verbosity clock).run source parsing = s')
    (hm : s.machine = s'.machine) (hd : s.diagnostics = s'.diagnostics) :
    runScript limits verbosity clock source parsing =
      runScript limits' verbosity clock source parsing := by
  rw [runScript_eq h, runScript_eq h', debugFile, debugFile, Session.traceText, Session.traceText,
    hm, hd]

/-- What is reported of a script whose syntax is complained about. -/
theorem err_runScript_invalid (h : isValid source parsing = false) :
    (runScript limits verbosity clock source parsing).err =
      printed (Diagnostics.none.addText source parsing).messages := by
  rw [runScript_eq (Session.run_invalid h)]
  rfl

variable (verbosity clock source parsing) in
/-- Either a higher stack makes no difference to a script, or its overflow is reported. -/
theorem runScript_nesting (nesting turns : Nat) :
    (∀ extra, runScript ⟨nesting + extra, turns⟩ verbosity clock source parsing =
        runScript ⟨nesting, turns⟩ verbosity clock source parsing) ∨
      (runScript ⟨nesting, turns⟩ verbosity clock source parsing).exit = softwareError ∧
        TellsOverflow (runScript ⟨nesting, turns⟩ verbosity clock source parsing).err := by
  cases hv : isValid source parsing with
  | false =>
    -- A script that is not valid is not run, on whatever stack.
    exact .inl fun extra =>
      runScript_congr (Session.run_invalid hv) (Session.run_invalid hv) rfl rfl
  | true =>
    rcases Session.interpret_nesting (s := Session.new ⟨nesting, turns⟩ verbosity clock) rfl turns
      nesting (Program.ofText source parsing).statements with hsame | ⟨t, hoverflow⟩
    · exact .inl fun extra =>
        runScript_congr (Session.run_eq_interpret rfl hv) (Session.run_eq_interpret rfl hv)
          (hsame extra).1 (hsame extra).2
    · have hrun := Session.run_eq_interpret
        (s := Session.new ⟨nesting, turns⟩ verbosity clock) rfl hv
      have hd : ((Session.new ⟨nesting, turns⟩ verbosity clock).interpret
          (Program.ofText source parsing).statements).diagnostics =
            Diagnostics.none.addFailure t Cause.stackOverflow.message := hoverflow
      rw [runScript_eq hrun, hd]
      refine .inr ⟨rfl, t.line, (printed_concat [] _).trans ?_⟩
      rw [printed_nil, String.empty_append]
      rfl

/-! ## Listing -/

/-- What is listed of a script, if its statements can be. -/
theorem err_listStatements {o : Outcome} (h : listStatements source parsing printing = .ok o) :
    o.err = printed (Diagnostics.none.addText source parsing).messages := by
  obtain ⟨lines, -, h⟩ := ok_of_bind h
  cases h
  rfl

theorem mem_of_mapM_ok {α β ε : Type} {f : α → Except ε β} {as : List α} {bs : List β}
    (h : as.mapM f = .ok bs) : ∀ a ∈ as, ∃ b, f a = .ok b := by
  induction as generalizing bs with
  | nil => simp
  | cons a as ih =>
    rw [List.mapM_cons] at h
    obtain ⟨b, hb, h⟩ := ok_of_bind h
    obtain ⟨bs, hbs, -⟩ := ok_of_bind h
    intro x hx
    rcases List.mem_cons.1 hx with rfl | hx
    · exact ⟨b, hb⟩
    · exact ih hbs x hx

/-- Listing breaks off if and only if a statement is too high, and for no other reason. -/
theorem listStatements_tooDeep_iff :
    listStatements source parsing printing = .error .tooDeep ↔
      ∃ n ∈ (Program.ofText source parsing).statements, printing < n.height := by
  constructor
  · intro h
    by_contra hnone
    push Not at hnone
    obtain ⟨o, ho⟩ := listStatements_ok hnone
    rw [ho] at h
    cases h
  · rintro ⟨n, hn, hheight⟩
    cases hlines : (Program.ofText source parsing).statements.mapM
      (printWithin printing Node.statementText) with
    | error e =>
      rw [listStatements_eq, hlines]
      rfl
    | ok lines =>
      obtain ⟨line, hline⟩ := mem_of_mapM_ok hlines n hn
      unfold printWithin at hline
      rw [if_pos hheight] at hline
      cases hline

/-- Listing ends in no other way than with an outcome or because a statement is too high. -/
theorem listStatements_cases (source : String) (parsing printing : Nat) :
    listStatements source parsing printing = .error .tooDeep ∨
      ∃ o, listStatements source parsing printing = .ok o := by
  by_cases h : ∃ n ∈ (Program.ofText source parsing).statements, printing < n.height
  · exact .inl (listStatements_tooDeep_iff.2 h)
  · push Not at h
    exact .inr (listStatements_ok h)

/-! ## The command -/

/-- The three exit codes of a script. -/
def IsScriptExit (exit : Nat) : Prop := exit = 0 ∨ exit = dataError ∨ exit = softwareError

/-- Nesting that the parser cannot follow is reported by every command that parses the script. -/
theorem nesting_read {o : Outcome} (hexit : isValid source parsing = false → o.exit = dataError)
    (herr : isValid source parsing = false →
      o.err = printed (Diagnostics.none.addText source parsing).messages) :
    (∀ nesting ≥ parsing, Program.ofText source nesting = Program.ofText source parsing) ∨
      o.exit = dataError ∧ TellsNesting o.err := by
  rcases Program.ofText_nesting source parsing with hsame | ⟨others, last, hlast, hdeep⟩
  · exact .inl hsame
  · have hinvalid : isValid source parsing = false := by
      rw [← Bool.not_eq_true, isValid_iff]
      simp [hlast]
    refine .inr ⟨hexit hinvalid, ?_⟩
    rw [herr hinvalid]
    exact tellsNesting hlast hdeep

theorem isScriptExit_runScript :
    IsScriptExit (runScript limits verbosity clock source parsing).exit := by
  cases hv : isValid source parsing with
  | false => exact .inr (.inl (runScript_invalid hv).1)
  | true =>
    rcases runScript_valid limits verbosity clock hv with ⟨-, hexit⟩ | ⟨-, hexit⟩
    · exact .inr (.inr hexit)
    · exact .inl hexit

theorem isScriptExit_listing (b : Bool) : IsScriptExit (if b then dataError else 0) := by
  cases b with
  | false => exact .inl rfl
  | true => exact .inr (.inl rfl)

/-- Scripts break the command off only by statements that are too high to be listed. -/
theorem onScript_tooDeep_iff {o : Options} :
    onScript limits o clock source parsing printing = .error .tooDeep ↔
      o.tokens = false ∧ o.ast = true ∧
        ∃ n ∈ (Program.ofText (String.ofList (unifyNewlines source.toList)) parsing).statements,
          printing < n.height := by
  obtain ⟨verbosity, tokens, ast, script⟩ := o
  unfold onScript
  dsimp only
  cases tokens with
  | true => simp
  | false =>
    cases ast with
    | true => simpa using listStatements_tooDeep_iff
    | false => simp

/-- The command breaks off because of nesting only while it is at work on a script. -/
theorem run_tooDeep_iff {arguments : List String} {files : List (String × Option String)}
    {input : String} :
    run limits arguments files input clock parsing printing = .error .tooDeep ↔
      ∃ o path source, plan arguments = .script o path ∧
        path.find? files = some (some source) ∧
        onScript limits o clock source parsing printing = .error .tooDeep := by
  unfold run
  constructor
  · intro h
    cases hplan : plan arguments with
    | finish done => simp [hplan] at h
    | prompt verbosity => simp [hplan] at h
    | script o path =>
      rw [hplan] at h
      dsimp only at h
      cases hfile : path.find? files with
      | none => simp [hfile] at h
      | some file =>
        rw [hfile] at h
        cases file with
        | none => simp at h
        | some source => exact ⟨o, path, source, rfl, hfile, h⟩
  · rintro ⟨o, path, source, hplan, hfile, hdeep⟩
    rw [hplan]
    dsimp only
    rw [hfile]
    exact hdeep

/-- The command breaks off because of nesting if and only if it is to list the statements of a
script of which one is too high. In all other cases a script comes to an outcome, with one of the
three exit codes. Where a parser that nests more deeply would read another program, nesting is
complained about, with the exit code for errors of syntax; where a machine that nests more deeply
would come to another outcome, a stack overflow is reported, with the exit code for failures. The
parser, the machine and the listing may each nest as deep as they like. -/
theorem nesting_reported (limits : Limits) (clock : Nat → Float) (parsing printing : Nat) :
    (∀ arguments files input,
      run limits arguments files input clock parsing printing = .error .tooDeep ↔
        ∃ o path source, plan arguments = .script o path ∧
          path.find? files = some (some source) ∧ o.tokens = false ∧ o.ast = true ∧
          ∃ n ∈ (Program.ofText (String.ofList (unifyNewlines source.toList)) parsing).statements,
            printing < n.height) ∧
    ∀ (o : Options) source,
      onScript limits o clock source parsing printing = .error .tooDeep ∨
        ∃ done, onScript limits o clock source parsing printing = .ok done ∧
          (done.exit = 0 ∨ done.exit = 65 ∨ done.exit = 70) ∧
          let text := String.ofList (unifyNewlines source.toList)
          (o.tokens = false →
            (∀ nesting ≥ parsing, Program.ofText text nesting = Program.ofText text parsing) ∨
              done.exit = 65 ∧ TellsNesting done.err) ∧
          (o.tokens = false → o.ast = false →
            (∀ extra, onScript ⟨limits.nesting + extra, limits.turns⟩ o clock source parsing
                printing = .ok done) ∨
              done.exit = 70 ∧ TellsOverflow done.err) := by
  refine ⟨fun arguments files input => ?_, fun o source => ?_⟩
  · simp only [run_tooDeep_iff, onScript_tooDeep_iff]
  · obtain ⟨verbosity, tokens, ast, script⟩ := o
    unfold onScript
    dsimp only
    generalize String.ofList (unifyNewlines source.toList) = text
    cases tokens with
    | true => exact .inr ⟨_, rfl, isScriptExit_listing _, by simp, by simp⟩
    | false =>
      cases ast with
      | true =>
        rcases listStatements_cases text parsing printing with hdeep | ⟨done, hdone⟩
        · exact .inl hdeep
        · refine .inr ⟨done, hdone, ?_, fun _ => ?_, by simp⟩
          · obtain ⟨lines, -, h⟩ := ok_of_bind hdone
            cases h
            exact isScriptExit_listing _
          · exact nesting_read (fun h => (exit_listStatements hdone).2 h)
              fun _ => err_listStatements hdone
      | false =>
        refine .inr ⟨_, rfl, isScriptExit_runScript, fun _ => ?_, fun _ _ => ?_⟩
        · exact nesting_read (fun h => (runScript_invalid h).1) err_runScript_invalid
        · rcases runScript_nesting verbosity clock text parsing limits.nesting limits.turns with
            hsame | hoverflow
          · exact .inl fun extra => congrArg Except.ok (hsame extra)
          · exact .inr hoverflow

/-! ## A sum that is too long to be listed -/

/-- Without carriage returns all line ends are plain already. -/
theorem unifyNewlines_plain {cs : List Char} (h : '\r' ∉ cs) : unifyNewlines cs = cs := by
  induction cs with
  | nil => rfl
  | cons c cs ih =>
    obtain ⟨hc, hcs⟩ := not_or.1 (mt List.mem_cons.2 h)
    rw [unifyNewlines, ih hcs]
    · rintro _ rfl
      exact absurd rfl hc
    · rintro rfl
      exact absurd rfl hc

theorem return_notMem_addends (n : ℕ) : '\r' ∉ LongSum.addends n := by
  induction n with
  | zero => decide
  | succ n ih => simp [LongSum.addends, ih]

theorem find?_s {α : Type} (a : α) : (Path.ofText "s").find? [("s", a)] = some a := by
  have hparts : "s".splitOn "/" = ["s"] := by
    rw [String.splitOn, if_neg (by decide), String.splitOnAux, String.splitOnAux]
    rfl
  simp [Path.ofText, Path.find?, hparts, Path.meaningful, Path.walk, Path.isDirectory]

/-- However deep the listing can follow, a sum with as many plus signs is too high for it, while a
parser that nests at all takes it as it takes any other. -/
theorem run_longSum {n : Nat} (hparsing : 0 < parsing) (hprinting : printing ≤ n + 1)
    (input : String) :
    run limits ["--ast", "s"] [("s", some (LongSum.text n))] input clock parsing printing =
      .error .tooDeep := by
  have hplan : plan ["--ast", "s"] = .script ⟨0, false, true, some "s"⟩ (.ofText "s") := by
    have hrequest : Request.ofArguments ["--ast", "s"] = .options ⟨0, false, true, some "s"⟩ := by
      decide +kernel
    unfold plan
    rw [hrequest]
    simp
  have htext : unifyNewlines (LongSum.text n).toList = (LongSum.text n).toList := by
    refine unifyNewlines_plain ?_
    simp [LongSum.text, return_notMem_addends]
  refine run_tooDeep_iff.2 ⟨_, _, _, hplan, find?_s _, onScript_tooDeep_iff.2 ⟨rfl, rfl, ?_⟩⟩
  rw [htext, String.ofList_toList, LongSum.statements_text n hparsing]
  refine ⟨_, List.mem_singleton_self _, ?_⟩
  rw [Node.height, LongSum.height_sum]
  omega

/-- A sum of six thousand ones breaks the command off. -/
theorem longSum_breaks_off :
    run .usual ["--ast", "s"] [("s", some (LongSum.text 5999))] "" (fun _ => 0) =
      .error .tooDeep :=
  run_longSum (by decide) (by decide) ""

end Command

end LoxLang
