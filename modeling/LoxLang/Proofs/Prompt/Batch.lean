import LoxLang.Proofs.Prompt.Joined
import LoxLang.Proofs.Scoping.WellScoped
/-!
# The prompt and the whole text

What a session does with lines that are entered one after the other is what it does with one text
made of those lines, if the lines that are not valid are left out and all others run to their end.
-/

namespace LoxLang

namespace Diagnostics

theorem syntaxErrors_addComplaints (d : Diagnostics) (complaints : List Complaint) :
    (d.addComplaints complaints).syntaxErrors = (d.syntaxErrors || !complaints.isEmpty) := by
  induction complaints generalizing d with
  | nil => simp [addComplaints]
  | cons c cs ih =>
    change ((d.addSyntaxAt c.token c.objection.message).addComplaints cs).syntaxErrors = _
    rw [ih]
    simp [addSyntaxAt, addSyntax]

/-- Reports what is wrong with a text. -/
def addText (d : Diagnostics) (source : String) (nesting : Nat := nestingLimit) : Diagnostics :=
  (d.addScan (Scan.ofText source).errors).addComplaints (Program.ofText source nesting).complaints

theorem addText_valid {source : String} {nesting : Nat} (h : isValid source nesting)
    (d : Diagnostics) : d.addText source nesting = d := by
  obtain ⟨herrors, hcomplaints⟩ := isValid_iff.1 h
  rw [addText, herrors, hcomplaints]
  rfl

theorem syntaxErrors_addText {source : String} {nesting : Nat} (h : isValid source nesting = false)
    (d : Diagnostics) : (d.addText source nesting).syntaxErrors = true := by
  rw [addText, syntaxErrors_addComplaints, syntaxErrors_addScan]
  unfold isValid at h
  cases he : (Scan.ofText source).errors.isEmpty <;> simp_all

end Diagnostics

/-! ## Lines at the prompt -/

namespace Session

/-- The machine after statements at top level, if all of them end normally. -/
def completes (layer : Layer Run) : List Node → Machine → Option Machine
  | [], m => some m
  | n :: ns, m =>
    match topLevel layer n m with
    | .ok .normal m => completes layer ns m
    | _ => none

/-- A text runs to its end: no statement fails and none returns. -/
def EndsNormally (s : Session) (source : String) : Prop :=
  (completes s.limits.layer (Program.ofText source).statements s.machine).isSome

/-- A line that is entered is run, and what was reported is then forgotten. -/
def enter (s : Session) (line : String) : Session := s.after [.run line, .reset]

/-- Lines that are entered one after the other. -/
def enterAll (s : Session) (lines : List String) : Session := lines.foldl enter s

theorem completes_append (layer : Layer Run) (ns ms : List Node) (m : Machine) :
    completes layer (ns ++ ms) m = (completes layer ns m).bind (completes layer ms) := by
  induction ns generalizing m with
  | nil => rfl
  | cons n ns ih =>
    simp only [List.cons_append, completes]
    split
    · exact ih _
    · rfl

theorem interpretWith_completes {layer : Layer Run} {ns : List Node} {m m' : Machine} (d : Diagnostics)
    (h : completes layer ns m = some m') : interpretWith layer m d ns = (m', d) := by
  induction ns generalizing m with
  | nil =>
    cases h
    rfl
  | cons n ns ih =>
    unfold completes at h
    unfold interpretWith
    split at h
    · next hn =>
      rw [hn]
      exact ih h
    · cases h

variable {s : Session} {source : String}

theorem read_eq (s : Session) (source : String) (nesting : Nat) :
    s.read source nesting =
      ({ s with diagnostics := s.diagnostics.addText source nesting },
        (Program.ofText source nesting).statements) := rfl

/-- A valid text is run if nothing has been reported before. -/
theorem run_valid (hs : s.diagnostics = .none) (h : isValid source) {m : Machine}
    (hm : completes s.limits.layer (Program.ofText source).statements s.machine = some m) :
    s.run source = { s with machine := m } := by
  have clean : ¬ s.diagnostics.syntaxErrors = true := by simp [hs, Diagnostics.none]
  unfold run
  rw [read_eq, Diagnostics.addText_valid h]
  dsimp only
  rw [if_neg clean]
  unfold interpret
  dsimp only
  rw [interpretWith_completes _ hm]

/-- A text that is not valid is not run. -/
theorem run_invalid {nesting : Nat} (h : isValid source nesting = false) :
    s.run source nesting = { s with diagnostics := s.diagnostics.addText source nesting } := by
  unfold run
  rw [read_eq]
  dsimp only
  rw [if_pos (Diagnostics.syntaxErrors_addText h _)]

theorem enter_valid (hs : s.diagnostics = .none) (h : isValid source) {m : Machine}
    (hm : completes s.limits.layer (Program.ofText source).statements s.machine = some m) :
    s.enter source = { s with machine := m } := by
  change ({ s.run source with diagnostics := .none } : Session) = _
  rw [run_valid hs h hm, ← hs]

/-- A line that is not valid leaves no trace. -/
theorem enter_invalid (hs : s.diagnostics = .none) (h : isValid source = false) :
    s.enter source = s := by
  change ({ s.run source with diagnostics := .none } : Session) = _
  rw [run_invalid h, ← hs]

/-- The machine after some lines is that after the statements of the valid ones. -/
theorem enterAll_completes {lines : List String} (hs : s.diagnostics = .none)
    (h : ∀ before line after, lines = before ++ line :: after → isValid line →
      (s.enterAll before).EndsNormally line) :
    ∃ m, completes s.limits.layer
        ((lines.filter isValid).flatMap fun line => (Program.ofText line).statements) s.machine =
          some m ∧ s.enterAll lines = { s with machine := m } := by
  induction lines generalizing s with
  | nil => exact ⟨s.machine, rfl, rfl⟩
  | cons line lines ih =>
    have later : ∀ {s' : Session}, s.enter line = s' → ∀ before next after,
        lines = before ++ next :: after → isValid next → (s'.enterAll before).EndsNormally next := by
      rintro _ rfl before next after rfl hv
      exact h (line :: before) next after rfl hv
    by_cases hv : isValid line
    · obtain ⟨m, hm⟩ := Option.isSome_iff_exists.1 (h [] line lines rfl hv)
      have hentered := enter_valid hs hv hm
      obtain ⟨m', hm', hall⟩ := @ih { s with machine := m } hs (later hentered)
      refine ⟨m', ?_, ?_⟩
      · change completes s.limits.layer (Program.ofText line).statements s.machine = some m at hm
        rw [List.filter_cons_of_pos (p := fun line => isValid line) hv, List.flatMap_cons, completes_append, hm]
        exact hm'
      · change enterAll (s.enter line) lines = _
        rw [hentered, hall]
    · have hv : isValid line = false := by simpa using hv
      have hentered := enter_invalid hs hv
      obtain ⟨m', hm', hall⟩ := ih hs (later hentered)
      refine ⟨m', ?_, ?_⟩
      · rw [List.filter_cons_of_neg (by simp [hv])]
        exact hm'
      · change enterAll (s.enter line) lines = _
        rw [hentered, hall]

end Session

/-! ## The same but for lines -/

/-- The same function, declared on other lines. -/
structure Closure.Relined (c c' : Closure) : Prop where
  name : c.name.Relined c'.name
  params : List.Forall₂ Token.Relined c.params c'.params
  body : Node.AllRelined (.statement true) c.body c'.body
  scope : c.scope = c'.scope

/-- The same machine, but for the lines on which its functions are declared. -/
structure Machine.Relined (m m' : Machine) : Prop where
  scopes : m.store.scopes = m'.store.scopes
  closures : List.Forall₂ Closure.Relined m.store.closures.toList m'.store.closures.toList
  scope : m.scope = m'.scope
  output : m.output = m'.output
  traceLevel : m.traceLevel = m'.traceLevel
  trace : m.trace = m'.trace
  clock : m.clock = m'.clock
  readings : m.readings = m'.readings

theorem Likeness.relined_faithful : Likeness.relined.Faithful := fun h => ⟨h.1, h.2.1⟩

theorem Likeness.relined_reflexive : Likeness.relined.Reflexive :=
  ⟨fun _ _ => ⟨rfl, rfl, rfl⟩, fun _ => trivial, trivial⟩

/-- If all scopes stand where they are, only lines can differ. -/
theorem Machine.Relined.of_machines {w : Placing} {b : Bool} {m m' : Machine}
    (h : (linked .relined .none True).machines w b m m') : m.Relined m' := by
  obtain ⟨hm, ⟨own, hs, -⟩, hw⟩ := h
  obtain rfl := hw trivial
  have hsize : m'.store.scopes.size = m.store.scopes.size := by
    rw [← hm.store.size]
    simp [Placing.identity]
  refine ⟨Array.ext_getElem? fun i => ?_, hm.store.closures.imp fun c c' hc => ?_, ?_, hm.output,
    hm.traceLevel, hm.trace, hm.clock, hm.readings⟩
  · by_cases hi : i < m'.store.scopes.size
    · exact hm.scopes_eq (List.prefix_refl _) hi
    · rw [Array.getElem?_eq_none (by omega), Array.getElem?_eq_none (by omega)]
  · obtain ⟨own, hplace⟩ := hc.scope
    have hscope := congrArg Prod.fst (Placing.of_getElem?_identity hplace).2
    exact ⟨hc.name, hc.params, hc.body, hscope.symm⟩
  · exact (congrArg Prod.fst (Placing.of_getElem?_identity hs).2).symm

theorem Node.Alike.className {l : Likeness} {s : Site} {n n' : Node} (h : Node.Alike l s n n') :
    n.className = n'.className := by
  cases h <;> rfl

namespace Session

variable {D : Correspondence} {layer layer' : Layer Run} {w : D.World} {m m' : Machine} {ns ns' : List Node}

/-- Statements that are alike run to their end on both sides. -/
theorem completes_inStep (hD : D.Lawful) (hnone : D.slack = .none)
    (h : D.LayersInStep layer layer')
    (hns : List.Forall₂ (Node.Alike D.likeness (.statement true)) ns ns')
    (hm : D.machines w true m m') {n : Machine} (hn : completes layer ns m = some n) :
    ∃ w' n', D.le w w' ∧ completes layer' ns' m' = some n' ∧ D.machines w' true n n' := by
  induction hns generalizing w m m' with
  | nil =>
    cases hn
    exact ⟨w, m', hD.refl w, rfl, hm⟩
  | @cons k k' ks ks' hk _ ih =>
    have htop : D.Ends w true D.SameCompletion (topLevel layer k m) (topLevel layer' k' m') := by
      have hrecord := hD.record (.execute k.className) m m' hm
      unfold topLevel
      rw [← hk.className]
      exact Correspondence.Ends.bind hD hrecord fun w' _ _ _ _ => h.execute hk
    unfold completes at hn
    split at hn
    · next m₁ hr =>
      rw [hr] at htop
      cases hr' : topLevel layer' k' m' with
      | ok c m₁' =>
        rw [hr'] at htop
        obtain ⟨w₁, hle, hm₁, rfl, -⟩ := htop
        obtain ⟨w', n', hle', hn', hmn⟩ := ih hm₁ hn
        refine ⟨w', n', hD.trans hle hle', ?_, hmn⟩
        unfold completes
        rw [hr']
        exact hn'
      | error e m₁' =>
        rw [hr'] at htop
        exact absurd (hnone.symm.trans htop.1) (by simp)
    · cases hn

/-- A session at the prompt does what a new one does with the valid lines as one text: it has the
same bindings, printed the same, and nothing is reported. Lines that are not valid change nothing. -/
theorem enterAll_joinLines (limits : Limits) (traceLevel : Nat) (clock : Nat → Float)
    (lines : List String)
    (hdeep : ∀ x ∈ (Program.ofText (joinLines (lines.filter isValid))).complaints,
      x.objection ≠ .tooDeep)
    (hnormal : ∀ before line after, lines = before ++ line :: after → isValid line →
      ((new limits traceLevel clock).enterAll before).EndsNormally line) :
    let s := new limits traceLevel clock
    let batch := s.run (joinLines (lines.filter isValid))
    batch.diagnostics = .none ∧ (s.enterAll lines).machine.Relined batch.machine ∧
      ∀ before line after, lines = before ++ line :: after → isValid line = false →
        s.enterAll (before ++ [line]) = s.enterAll before := by
  intro s batch
  have hs : s.diagnostics = .none := rfl
  obtain ⟨m, hm, hall⟩ := enterAll_completes hs hnormal
  obtain ⟨hjoined, halike⟩ := Program.ofText_joinLines
    (fun t ht => (List.mem_filter.1 ht).2) hdeep
  have hD : (linked .relined .none True).Lawful := Linked.lawful Likeness.relined_faithful
  have hlayers : (linked .relined .none True).LayersInStep limits.layer limits.layer :=
    Correspondence.layersInStep hD (rfl : limits.turns = limits.turns) _ _
      (rfl : limits.nesting = limits.nesting)
  -- The same machine stands on both sides before the statements, which differ in lines only.
  have hself := (new_wellScoped limits traceLevel clock).machines_self
    Likeness.relined_reflexive .none True true
  obtain ⟨w', m', -, hm', hlinked⟩ := completes_inStep hD rfl hlayers halike hself hm
  have hbatch : batch = { s with machine := m' } := run_valid hs hjoined hm'
  refine ⟨by rw [hbatch]; rfl, ?_, ?_⟩
  · rw [hbatch, hall]
    exact Machine.Relined.of_machines hlinked
  · rintro before line after rfl hv
    have hbefore : ∀ before' line' after', before = before' ++ line' :: after' → isValid line' →
        (s.enterAll before').EndsNormally line' := by
      rintro before' line' after' rfl hv'
      exact hnormal before' line' (after' ++ line :: after) (by simp) hv'
    obtain ⟨m₁, -, hentered⟩ := enterAll_completes hs hbefore
    unfold enterAll
    rw [List.foldl_append]
    change (s.enterAll before).enter line = s.enterAll before
    exact enter_invalid (by rw [hentered]; rfl) hv

/-- A line that binds a name, one with a stray character, and one that uses the name. -/
theorem enterAll_joinLines_print :
    let lines := ["var a = true;", "@", "print a;"]
    let s := new ⟨5, 5⟩ 0 fun _ => 0
    (∀ x ∈ (Program.ofText (joinLines (lines.filter isValid))).complaints,
      x.objection ≠ .tooDeep) ∧
      (∀ before line after, lines = before ++ line :: after → isValid line →
        (s.enterAll before).EndsNormally line) ∧
      let batch := s.run "var a = true;\nprint a;"
      batch.diagnostics = .none ∧ (s.enterAll lines).machine.Relined batch.machine ∧
        (s.enterAll lines).machine.output = "True\n" := by
  intro lines s
  have hfilter : lines.filter isValid = ["var a = true;", "print a;"] := by decide +kernel
  have hjoined : joinLines (lines.filter isValid) = "var a = true;\nprint a;" := by
    rw [hfilter]
    decide
  have hdeep : ∀ x ∈ (Program.ofText (joinLines (lines.filter isValid))).complaints,
      x.objection ≠ .tooDeep := by
    have hcomplaints : (Program.ofText "var a = true;\nprint a;").complaints = [] := by
      decide +kernel
    rw [hjoined, hcomplaints]
    simp
  have hnormal : ∀ before line after, lines = before ++ line :: after → isValid line →
      (s.enterAll before).EndsNormally line := by
    intro before line after h hv
    change ["var a = true;", "@", "print a;"] = _ at h
    rcases before with _ | ⟨_, _ | ⟨_, _ | ⟨_, before⟩⟩⟩
    · cases h
      unfold EndsNormally
      decide +kernel
    · cases h
      have hstray : isValid "@" = false := by decide +kernel
      rw [hstray] at hv
      cases hv
    · cases h
      unfold EndsNormally
      decide +kernel
    · simp at h
  obtain ⟨hquiet, hrelined, -⟩ := enterAll_joinLines ⟨5, 5⟩ 0 (fun _ => 0) lines hdeep hnormal
  rw [hjoined] at hquiet hrelined
  exact ⟨hdeep, hnormal, hquiet, hrelined, by decide +kernel⟩

end Session

end LoxLang
