import LoxLang.Proofs.Calls.Underway
import LoxLang.Proofs.Effects.Parametric
import LoxLang.Proofs.Scoping.Restored
/-!
# Calls are bracketed

A placed run ends as the run does, and what it traces is nested, up to the calls that are under way
where it is cut off. So the calls that a trace leaves open are those in which an error was raised.
-/

namespace LoxLang

open TraceEvent

/-- From one machine to another exactly some events were traced, if calls are traced at all. -/
structure Machine.Traces (m : Machine) (events : List TraceEvent) (m' : Machine) : Prop where
  level : m'.traceLevel = m.traceLevel
  trace : 3 ≤ m.traceLevel → m'.trace.toList = m.trace.toList ++ events

namespace Machine.Traces

variable {m m' m'' : Machine} {events events' : List TraceEvent}

theorem refl (m : Machine) : m.Traces [] m := ⟨rfl, fun _ => by rw [List.append_nil]⟩

theorem trans (h : m.Traces events m') (h' : m'.Traces events' m'') :
    m.Traces (events ++ events') m'' where
  level := h'.level.trans h.level
  trace hm := by rw [h'.trace (by rwa [h.level]), h.trace hm, List.append_assoc]

end Machine.Traces

/-- The most detailed trace shows every event. -/
theorem TraceEvent.level_le (e : TraceEvent) : e.level ≤ 3 := by
  cases e <;> exact Nat.le_of_ble_eq_true rfl

theorem Run.record_traces (e : TraceEvent) (m : Machine) :
    ∃ m', Run.record e m = .ok () m' ∧ m.Traces [e] m' := by
  refine ⟨machineOf (Run.record e m), rfl, ?_⟩
  by_cases h : e.level ≤ m.traceLevel
  · have hm : machineOf (Run.record e m) = { m with trace := m.trace.push e } := if_pos h
    rw [hm]
    exact ⟨rfl, fun _ => Array.toList_push⟩
  · have hm : machineOf (Run.record e m) = m := if_neg h
    rw [hm]
    exact ⟨rfl, fun hm => absurd (e.level_le.trans hm) h⟩

theorem Run.bind_eq {α β : Type} (x : Run α) (f : α → Run β) (m : Machine) :
    (x >>= f) m =
      match x m with
      | .ok a m' => f a m'
      | .error fault m' => .error fault m' := by
  change EStateM.bind x f m = _
  unfold EStateM.bind
  cases x m <;> rfl

theorem Placed.bind_eq {α β : Type} (p : Placed α) (f : α → Placed β) (calls : List Call)
    (m : Machine) :
    (p >>= f) calls m =
      match p calls m with
      | .ok a m' => f a calls m'
      | .error e m' => .error e m' := by
  change EStateM.bind (p calls) (fun a => f a calls) m = _
  unfold EStateM.bind
  cases p calls m <;> rfl

theorem Placed.alone_ok {α : Type} {x : Run α} {a : α} {m m' : Machine} (h : x m = .ok a m')
    (calls : List Call) : alone x calls m = .ok a m' := by
  unfold alone
  rw [h]

/-- A placed run amid some calls ends as a run does. If it ends with a value, what was traced is
nested; if not, the calls that were opened and are under way are left open. -/
inductive EndsBracketed {α : Type} (calls : List Call) (m : Machine) :
    EStateM.Result (Fault × List Call) Machine α → EStateM.Result Fault Machine α → Prop
  | ok {a m' events} : m.Traces events m' → Nested events → EndsBracketed calls m (.ok a m') (.ok a m')
  | error {fault m' events opened} : m.Traces events m' → LeavesOpen opened events →
      EndsBracketed calls m (.error (fault, calls ++ opened) m') (.error fault m')

/-- From a machine on, a placed run is bracketed and ends as a run does, amid whatever calls. -/
def Bracketed {α : Type} (m : Machine) (p : Placed α) (x : Run α) : Prop :=
  ∀ calls, EndsBracketed calls m (p calls m) (x m)

namespace Bracketed

open Placed

variable {α β : Type} {m : Machine} {p : Placed α} {x : Run α} {f : α → Placed β} {g : α → Run β}

/-- A run that calls nothing. -/
theorem alone {events : List TraceEvent} (htraces : m.Traces events (machineOf (x m)))
    (hnested : Nested events) : Bracketed m (alone x) x := by
  intro calls
  unfold Placed.alone
  cases hx : x m with
  | ok a m' =>
    rw [hx] at htraces
    exact .ok htraces hnested
  | error fault m' =>
    rw [hx] at htraces
    have hends : EndsBracketed calls m (.error (fault, calls ++ []) m') (.error fault m' : EStateM.Result _ _ α) :=
      .error htraces (.nested hnested)
    rwa [List.append_nil] at hends

/-- A run that traces nothing. -/
theorem quiet (hl : (machineOf (x m)).traceLevel = m.traceLevel)
    (ht : (machineOf (x m)).trace = m.trace) : Bracketed m (Placed.alone x) x :=
  alone ⟨hl, fun _ => by rw [ht, List.append_nil]⟩ .nil

theorem isStep (h : x.IsStep) : Bracketed m (Placed.alone x) x := by
  cases h with
  | lookup => refine quiet ?_ ?_ <;> rw [Run.lookup_eq] <;> split <;> rfl
  | assign => refine quiet ?_ ?_ <;> rw [Run.assign_eq] <;> split <;> rfl
  | @record e he =>
    obtain ⟨m', hm', htraces⟩ := Run.record_traces e m
    refine alone ?_ (.single he)
    rwa [hm']
  | _ => exact quiet rfl rfl

protected theorem bind (h : Bracketed m p x) (hf : ∀ a m, Bracketed m (f a) (g a)) :
    Bracketed m (p >>= f) (x >>= g) := by
  intro calls
  have hp := h calls
  rw [Placed.bind_eq, Run.bind_eq]
  generalize p calls m = r, x m = r' at hp
  cases hp with
  | @ok a m₁ events htraces hnested =>
    have hf' := hf a m₁ calls
    dsimp only
    generalize f a calls m₁ = r, g a m₁ = r' at hf'
    cases hf' with
    | ok htraces' hnested' => exact .ok (htraces.trans htraces') (hnested.append hnested')
    | error htraces' hopen => exact .error (htraces.trans htraces') (hopen.append hnested)
  | error htraces hopen => exact .error htraces hopen

theorem inside (scope : Scope) (h : ∀ m, Bracketed m p x) :
    Bracketed m (Placed.inside scope p) (Run.inside scope x) := by
  intro calls
  have hp := h (m.inScope scope) calls
  rw [Run.inside_eq]
  change EndsBracketed calls m (match p calls (m.inScope scope) with
    | .ok a m' => .ok a { m' with scope := m.scope }
    | .error e m' => .error e { m' with scope := m.scope }) _
  generalize p calls (m.inScope scope) = r, x (m.inScope scope) = r' at hp
  cases hp with
  | ok htraces hnested => exact .ok ⟨htraces.level, htraces.trace⟩ hnested
  | error htraces hopen => exact .error ⟨htraces.level, htraces.trace⟩ hopen

theorem catchOverflow (paren : Token) (h : Bracketed m p x) :
    Bracketed m (Placed.catchOverflow paren p) (Run.catchOverflow paren x) := by
  intro calls
  have hp := h calls
  rw [Run.catchOverflow_eq]
  unfold Placed.catchOverflow
  generalize p calls m = r, x m = r' at hp
  cases hp with
  | ok htraces hnested => exact .ok htraces hnested
  | error htraces hopen => exact .error htraces hopen

/-- A call is a bracket around what its body traces; if the body is cut off, it stays open. -/
theorem call (c : Call) {body : Placed Value} {y : Run Value} (h : ∀ m, Bracketed m body y) :
    Bracketed m
      (Placed.alone (Run.record (opening c)) >>= fun _ => amid c body >>= fun v =>
        Placed.alone (Run.record (.result v c.callee)) >>= fun _ => pure v)
      (Run.record (opening c) >>= fun _ => y >>= fun v =>
        Run.record (.result v c.callee) >>= fun _ => pure v) := by
  intro calls
  obtain ⟨m₁, hopens, htraces⟩ := Run.record_traces (opening c) m
  have hbody := h m₁ (calls ++ [c])
  rw [Placed.bind_eq, Run.bind_eq, alone_ok hopens, hopens]
  dsimp only
  rw [Placed.bind_eq, Run.bind_eq, amid]
  generalize body (calls ++ [c]) m₁ = r, y m₁ = r' at hbody
  cases hbody with
  | @ok v m₂ events htraces' hnested =>
    obtain ⟨m₃, hcloses, htraces''⟩ := Run.record_traces (.result v c.callee) m₂
    dsimp only
    rw [Placed.bind_eq, Run.bind_eq, alone_ok hcloses, hcloses]
    exact .ok (htraces.trans (htraces'.trans htraces'')) (.bracket c v hnested)
  | error htraces' hopen =>
    dsimp only
    rw [List.append_assoc]
    exact .error (htraces.trans htraces') (.bracket c hopen)

/-! ## Trees -/

theorem parametric : Parametric (M := Placed) (N := Run) Bracketed where
  pure _ _ := .ok (.refl _) .nil
  bind := Bracketed.bind
  step := isStep
  reading h := h
  inside _ h := inside _ h
  traced callee vs t h := call ⟨callee, vs⟩ fun m => catchOverflow t (h m)

/-- Whatever tree is run, and on however many layers, calls are bracketed. -/
theorem atop (turns nesting : Nat) :
    Parametric.Layers (M := Placed) (N := Run) Bracketed (Layer.atop turns nesting)
      (Layer.atop turns nesting) :=
  parametric.atop turns nesting

end Bracketed

/-! ## Sessions -/

namespace Session

/-- What a run of statements traces is nested if none fails. If one does, its fault is reported, and
the calls that were under way are left open. -/
theorem interpretWith_bracketed {placed : Layer Placed} {layer : Layer Run}
    (h : Parametric.Layers Bracketed placed layer) (d : Diagnostics) (ns : List Node) (m : Machine) :
    ∃ events, m.Traces events (interpretWith layer m d ns).1 ∧
      match raisedWith? placed m ns with
      | none => (interpretWith layer m d ns).2 = d ∧ Nested events
      | some r => (interpretWith layer m d ns).2 = d.addFault r.statement r.fault ∧
          LeavesOpen r.underway events := by
  induction ns generalizing m with
  | nil => exact ⟨[], .refl m, rfl, .nil⟩
  | cons n ns ih =>
    have hfirst : EndsBracketed [] m (topLevel placed n [] m) (topLevel layer n m) :=
      Bracketed.parametric.topLevel h n []
    unfold interpretWith raisedWith?
    generalize topLevel placed n [] m = r, topLevel layer n m = r' at hfirst
    cases hfirst with
    | @ok c m₁ events htraces hnested =>
      cases c with
      | normal =>
        obtain ⟨events', htraces', hrest⟩ := ih m₁
        refine ⟨events ++ events', htraces.trans htraces', ?_⟩
        dsimp only
        generalize raisedWith? placed m₁ ns = raised at hrest
        cases raised with
        | none => exact ⟨hrest.1, hnested.append hrest.2⟩
        | some r => exact ⟨hrest.1, hrest.2.append hnested⟩
      | returned v => exact ⟨events, htraces, rfl, hnested⟩
    | error htraces hopen => exact ⟨_, htraces, rfl, hopen⟩

/-- With calls traced, the events that a run of statements adds to a trace are the first ones of
nested events. If nothing is reported, they are nested. Otherwise an error was raised, it is what is
reported, and the unmatched calls are those that were under way, the outermost first. -/
theorem interpret_bracketed {s : Session} (h : 3 ≤ s.machine.traceLevel) (ns : List Node) :
    ∃ events,
      (s.interpret ns).machine.trace.toList = s.machine.trace.toList ++ events ∧
      (∃ more, Nested (events ++ more)) ∧
      ((s.interpret ns).diagnostics = s.diagnostics ∧ s.raised? ns = none ∧ Nested events ∨
        ∃ r, s.raised? ns = some r ∧
          (s.interpret ns).diagnostics = s.diagnostics.addFault r.statement r.fault ∧
          (s.interpret ns).diagnostics ≠ s.diagnostics ∧ unmatched? events = some r.underway) := by
  obtain ⟨events, htraces, hcases⟩ := interpretWith_bracketed
    (Bracketed.atop s.limits.turns s.limits.nesting) s.diagnostics ns s.machine
  refine ⟨events, htraces.trace h, ?_⟩
  change _ ∧ ((s.interpret ns).diagnostics = _ ∧ raisedWith? _ _ _ = none ∧ _ ∨
    ∃ r, raisedWith? _ _ _ = some r ∧ _)
  generalize raisedWith? (Layer.atop s.limits.turns s.limits.nesting) s.machine ns = raised
    at hcases ⊢
  cases raised with
  | none =>
    obtain ⟨hsilent, hnested⟩ := hcases
    exact ⟨⟨[], by rwa [List.append_nil]⟩, .inl ⟨hsilent, rfl, hnested⟩⟩
  | some r =>
    obtain ⟨hreported, hopen⟩ := hcases
    refine ⟨hopen.completed, .inr ⟨r, rfl, hreported, ?_, hopen.unmatched⟩⟩
    change (interpretWith _ _ _ _).2 ≠ _
    obtain ⟨text, htext⟩ := s.diagnostics.addFault_eq r.statement r.fault
    rw [show (interpretWith s.limits.layer s.machine s.diagnostics ns).2 = _ from hreported, htext]
    intro heq
    simpa using congrArg (fun d => d.messages.length) heq

/-- A function `g` that fails, a function `f` that calls it, and a call of `f`. -/
def failingCalls : List Node :=
  let name (text : String) : Token := ⟨.identifier, text, .nil, 1⟩
  let paren : Token := ⟨.rightParen, ")", .nil, 1⟩
  [.funDecl (name "g") [] [.exprStmt (.ident (name "x"))],
   .funDecl (name "f") [] [.exprStmt (.call (.ident (name "g")) paren [])],
   .exprStmt (.call (.ident (name "f")) paren [])]

theorem interpret_bracketed_failingCalls :
    let s := new ⟨20, 1⟩ 3 fun _ => 0
    3 ≤ s.machine.traceLevel ∧
      ∃ events, (s.interpret failingCalls).machine.trace.toList = s.machine.trace.toList ++ events ∧
        (∃ more, Nested (events ++ more)) ∧
        (s.interpret failingCalls).diagnostics ≠ s.diagnostics ∧
        unmatched? events = some [⟨.function ⟨1, "f", 0⟩, []⟩, ⟨.function ⟨0, "g", 0⟩, []⟩] := by
  obtain ⟨events, htrace, hinitial, hcases⟩ :=
    interpret_bracketed (s := new ⟨20, 1⟩ 3 fun _ => 0) (by decide) failingCalls
  have hraised : ((new ⟨20, 1⟩ 3 fun _ => 0).raised? failingCalls).map Raised.underway =
      some [⟨.function ⟨1, "f", 0⟩, []⟩, ⟨.function ⟨0, "g", 0⟩, []⟩] := by decide +kernel
  refine ⟨by decide, events, htrace, hinitial, ?_⟩
  obtain ⟨-, hnone, -⟩ | ⟨r, hr, -, hne, hunmatched⟩ := hcases
  · rw [hnone] at hraised
    cases hraised
  · rw [hr, Option.map_some] at hraised
    rw [hunmatched]
    exact ⟨hne, hraised⟩

end Session

end LoxLang
