import LoxLang.Proofs.InStep.Traced
import LoxLang.Proofs.Natives.Arguments
import LoxLang.Proofs.Safety.Session
/-!
# Failures that are not the program's own

A call of a native gives what the native gives: a value, an error at the closing parenthesis, or a
failure that is not the program's own. The last comes of an index that cannot be cut off, and of
nothing else: if a session reports such a failure, the call that it comes from is the last thing in
its trace.
-/

namespace LoxLang

/-! ## Calls of natives -/

/-- The machine after an event, which is traced if the level of detail asks for it. -/
def Machine.recorded (m : Machine) (e : TraceEvent) : Machine :=
  if e.level ≤ m.traceLevel then { m with trace := m.trace.push e } else m

theorem Machine.traceLevel_recorded (m : Machine) (e : TraceEvent) :
    (m.recorded e).traceLevel = m.traceLevel := by
  unfold recorded
  split <;> rfl

namespace Layer

variable {below : Layer Run} {n : Native} {vs : List Value} {t : Token}

/-- Before a native is run, nothing happens but that the clock may be read. -/
theorem callNative_eq (n : Native) (vs : List Value) (t : Token) (m : Machine) :
    ∃ r m', m'.trace = m.trace ∧ m'.traceLevel = m.traceLevel ∧
      callNative (M := Run) n vs t m = settleCall t (n.apply r vs) m' := by
  by_cases hn : n = .clock
  · subst hn
    exact ⟨m.clock m.readings, { m with readings := m.readings + 1 }, rfl, rfl, rfl⟩
  · refine ⟨0, m, rfl, rfl, ?_⟩
    unfold callNative
    rw [if_neg hn]
    rfl

theorem call_native_eq (hlen : vs.length = n.arity) (m : Machine) :
    below.call (.native n) vs t m =
      match callNative (M := Run) n vs t (m.recorded (.call (.native n) vs)) with
      | .ok v m' => .ok v (m'.recorded (.result v (.native n)))
      | .error e m' => .error (e.caught t) m' := by
  have hcall : below.call (.native n) vs t m =
      (Run.catchOverflow t (callNative n vs t) >>= fun v =>
        Run.record (.result v (.native n)) >>= fun _ => pure v)
        (m.recorded (.call (.native n) vs)) := by
    unfold call
    dsimp only [arity?]
    rw [if_neg (not_not_intro hlen)]
    rfl
  rw [hcall]
  change EStateM.bind _ _ _ = _
  unfold EStateM.bind
  rw [Run.catchOverflow_eq]
  cases callNative (M := Run) n vs t (m.recorded (.call (.native n) vs)) <;> rfl

end Layer

/-- The fault of a call whose native gives no value. -/
def NativeError.fault (paren : Token) : NativeError → Fault
  | rejected r => .runtime paren (.native r)
  | broken b => .broken b

/-- What a call comes to is what its native comes to, and when it fails nothing has been traced
since the call. -/
theorem Layer.call_native {n : Native} {vs : List Value} (hlen : vs.length = n.arity)
    (below : Layer Run) (t : Token) (m : Machine) :
    ∃ r m', m'.traceLevel = m.traceLevel ∧
      ((∃ v, n.apply r vs = .ok v ∧ below.call (.native n) vs t m = .ok v m') ∨
        ∃ e, n.apply r vs = .error e ∧ below.call (.native n) vs t m = .error (e.fault t) m' ∧
          m'.trace = (m.recorded (.call (.native n) vs)).trace) := by
  obtain ⟨r, m', htrace, hlevel, hm⟩ := callNative_eq n vs t (m.recorded (.call (.native n) vs))
  rw [m.traceLevel_recorded] at hlevel
  refine ⟨r, ?_⟩
  rw [call_native_eq hlen, hm]
  cases hr : n.apply r vs with
  | ok v => exact ⟨_, (m'.traceLevel_recorded _).trans hlevel, .inl ⟨v, rfl, rfl⟩⟩
  | error e =>
    refine ⟨m', hlevel, .inr ⟨e, rfl, ?_, htrace⟩⟩
    cases e <;> rfl

section Calls

variable {n : Native} {vs : List Value} {b : Breakdown} (hlen : vs.length = n.arity)

include hlen

/-- A native whose indices can be cut off gives a value or an error of the program. -/
theorem Native.apply_unbroken (h : ¬ ∃ b, Breaks n.parameters vs b) (r : Float) :
    (∃ v, n.apply r vs = .ok v) ∨ ∃ rej, n.apply r vs = .error (.rejected rej) := by
  cases hr : n.apply r vs with
  | ok v => exact .inl ⟨v, rfl⟩
  | error e =>
    cases e with
    | rejected rej => exact .inr ⟨rej, rfl⟩
    | broken b => exact absurd ⟨b, (apply_broken_iff hlen).1 hr⟩ h

/-- Its call does too, with the error at the closing parenthesis. -/
theorem Layer.call_native_unbroken (h : ¬ ∃ b, Breaks n.parameters vs b) (below : Layer Run)
    (t : Token) (m : Machine) :
    (∃ v m', below.call (.native n) vs t m = .ok v m') ∨
      ∃ rej m', below.call (.native n) vs t m = .error (.runtime t (.native rej)) m' := by
  obtain ⟨r, m', -, ⟨v, -, hcall⟩ | ⟨e, he, hcall, -⟩⟩ := call_native hlen below t m
  · exact .inl ⟨v, m', hcall⟩
  · cases e with
    | rejected rej => exact .inr ⟨rej, m', hcall⟩
    | broken b => exact absurd ⟨b, (Native.apply_broken_iff hlen).1 he⟩ h

theorem Layer.call_native_broken_iff (below : Layer Run) (t : Token) (m : Machine) :
    (∃ m', below.call (.native n) vs t m = .error (.broken b) m') ↔ Breaks n.parameters vs b := by
  obtain ⟨r, m', -, hcases⟩ := call_native hlen below t m
  rw [← Native.apply_broken_iff (r := r) hlen]
  rcases hcases with ⟨v, hv, hcall⟩ | ⟨e, he, hcall, -⟩
  · rw [hv, hcall]
    exact ⟨nofun, nofun⟩
  · rw [he, hcall]
    cases e with
    | rejected => exact ⟨nofun, nofun⟩
    | broken b' =>
      constructor
      · rintro ⟨_, ⟨⟩⟩
        rfl
      · rintro ⟨⟩
        exact ⟨m', rfl⟩

end Calls

/-! ## The call that a run breaks off in -/

/-- The level of detail is high enough for calls to be traced. -/
def Machine.TracesCalls (m : Machine) : Prop := 3 ≤ m.traceLevel

/-- What was traced last is the call of a native that breaks off. -/
def Machine.BrokeOff (m : Machine) (b : Breakdown) : Prop :=
  ∃ (n : Native) (vs : List Value), m.trace.back? = some (.call (.native n) vs) ∧
    vs.length = n.arity ∧ Breaks n.parameters vs b

/-- If a run was broken off, the call that it broke off in was traced last. -/
def Explained {α : Type} : EStateM.Result Fault Machine α → Prop
  | .ok _ m => m.TracesCalls
  | .error e m => m.TracesCalls ∧ ∀ b, e = .broken b → m.BrokeOff b

/-- A run that is explained whenever calls are traced. -/
def Explains {α : Type} (x : Run α) : Prop := ∀ m : Machine, m.TracesCalls → Explained (x m)

namespace Explains

variable {α β : Type} {x : Run α} {f : α → Run β} {m : Machine}

theorem explained_error {e : Fault} (h : ¬ e.isBroken) (hm : m.TracesCalls) :
    Explained (.error e m : EStateM.Result Fault Machine α) := by
  refine ⟨hm, ?_⟩
  rintro b rfl
  exact absurd rfl h

protected theorem bind (hx : Explains x) (hf : ∀ a, Explains (f a)) : Explains (x >>= f) := by
  intro m hm
  change Explained (EStateM.bind x f m)
  have hxm := hx m hm
  unfold EStateM.bind
  cases hr : x m with
  | ok a n =>
    rw [hr] at hxm
    exact hf a n hxm
  | error e n =>
    rw [hr] at hxm
    exact hxm

theorem lookup (t : Token) : Explains (Run.lookup t) := by
  intro m hm
  rw [Run.lookup_eq]
  split
  · exact hm
  · exact explained_error Bool.false_ne_true hm
  · exact explained_error Bool.false_ne_true hm

theorem assign (t : Token) (v : Value) : Explains (Run.assign t v) := by
  intro m hm
  rw [Run.assign_eq]
  split
  · exact hm
  · exact explained_error Bool.false_ne_true hm
  · exact explained_error Bool.false_ne_true hm

theorem record (e : TraceEvent) : Explains (Run.record e) := by
  intro m hm
  change 3 ≤ (m.recorded e).traceLevel
  rwa [m.traceLevel_recorded]

theorem inside (s : Scope) (h : Explains x) : Explains (Run.inside s x) := by
  intro m hm
  have hx := h (m.inScope s) hm
  rw [Run.inside_eq]
  cases hr : x (m.inScope s) <;> rw [hr] at hx <;> exact hx

theorem catchOverflow (t : Token) (h : Explains x) : Explains (Run.catchOverflow t x) := by
  intro m hm
  have hx := h m hm
  rw [Run.catchOverflow_eq]
  cases hr : x m with
  | ok a n =>
    rw [hr] at hx
    exact hx
  | error e n =>
    rw [hr] at hx
    refine ⟨hx.1, fun b hb => hx.2 b ?_⟩
    cases e <;> first | exact hb | cases hb

/-- A native is run right after its call was traced. -/
theorem native (below : Layer Run) {n : Native} {vs : List Value} (t : Token)
    (hlen : vs.length = n.arity) : Explains (below.call (.native n) vs t) := by
  intro m hm
  obtain ⟨r, m', hlevel, ⟨v, -, hcall⟩ | ⟨e, he, hcall, htrace⟩⟩ :=
    Layer.call_native hlen below t m
  · rw [hcall]
    exact hm.trans_eq hlevel.symm
  · rw [hcall]
    refine ⟨hm.trans_eq hlevel.symm, fun b hb => ⟨n, vs, ?_, hlen, ?_⟩⟩
    · have hrecorded : m.recorded (.call (.native n) vs) =
          { m with trace := m.trace.push (.call (.native n) vs) } := if_pos hm
      rw [htrace, hrecorded, Array.back?_push]
    · cases e with
      | rejected => cases hb
      | broken =>
        cases hb
        exact (Native.apply_broken_iff hlen).1 he

theorem inherited : Inherited fun _ x => Explains x where
  mono _ h := h
  pure _ _ hm := hm
  throw h _ hm := explained_error h hm
  bind := .bind
  pointwise := by
    intro α names x h m hm
    obtain ⟨y, hy, heq⟩ := h m
    rw [heq]
    exact hy m hm
  lookup := lookup
  assign := assign
  define _ _ _ hm := hm
  makeFunction _ _ _ _ hm := hm
  record := record
  printLine _ _ hm := hm
  inside := inside
  catchOverflow := catchOverflow
  native below n _ t := native below t

theorem topLevel (l : Limits) (n : Node) : Explains (Session.topLevel l.layer n) :=
  .bind (record _) fun _ => (inherited.atop l.turns l.nesting).2 n

end Explains

/-! ## Sessions -/

namespace Session

variable {limits : Limits}

/-- If statements are broken off, what was traced last is the call that they broke off in. -/
theorem interpretWith_brokeOff {ns : List Node} {m : Machine} (hm : m.TracesCalls)
    (d : Diagnostics) {n : Node} {b : Breakdown}
    (h : firstFault limits.layer m ns = some (n, .broken b)) :
    (interpretWith limits.layer m d ns).1.BrokeOff b := by
  induction ns generalizing m with
  | nil => cases h
  | cons k ns ih =>
    have htop := Explains.topLevel limits k m hm
    unfold firstFault at h
    unfold interpretWith
    cases hr : topLevel limits.layer k m with
    | ok c m' =>
      rw [hr] at h htop
      cases c with
      | normal => exact ih htop h
      | returned => cases h
    | error e m' =>
      rw [hr] at h htop
      cases h
      exact htop.2 b rfl

theorem firstFault_seenAt {level : ℕ} {m : Machine} (hm : level ≤ m.traceLevel) (ns : List Node) :
    firstFault limits.layer (m.seenAt level) ns = firstFault limits.layer m ns := by
  induction ns generalizing m with
  | nil => rfl
  | cons n ns ih =>
    obtain ⟨hn, hlevel⟩ := topLevel_unseen level limits n m hm
    unfold firstFault
    rw [hn]
    cases hr : topLevel limits.layer n m with
    | ok c m' =>
      rw [hr] at hlevel
      cases c with
      | normal => exact ih hlevel
      | returned => rfl
    | error => rfl

/-- What running a text adds to the reports: nothing, an error of the program, that a loop went on
for longer than the machine allows, or a failure that is not the program's own. -/
def Adds (d d' : Diagnostics) (broken : Breakdown → Prop) : Prop :=
  d' = d ∨ (∃ t c, d' = d.addFailure t (Cause.message c)) ∨ (∃ n, d' = d.addFault n .unfinished) ∨
    ∃ b, d' = d.addInternal b.text ∧ broken b

theorem interpret_adds {s t : Session} {μ : ℕ} (hs : s.seenAt μ = t.seenAt μ)
    (hlevel : μ ≤ s.machine.traceLevel) (hlevel' : μ ≤ t.machine.traceLevel)
    (ht : t.machine.TracesCalls) {ns : List Node}
    (hfault : ∀ n e, firstFault s.limits.layer s.machine ns = some (n, e) → e.Permitted) :
    Adds s.diagnostics (s.interpret ns).diagnostics (t.interpret ns).machine.BrokeOff := by
  have hlimits : s.limits = t.limits := congrArg (·.limits) hs
  have hmachine : s.machine.seenAt μ = t.machine.seenAt μ := congrArg (·.machine) hs
  have hsame : firstFault s.limits.layer s.machine ns = firstFault t.limits.layer t.machine ns := by
    rw [← firstFault_seenAt hlevel, hmachine, firstFault_seenAt hlevel', hlimits]
  have hreport : (s.interpret ns).diagnostics = _ :=
    diagnostics_interpretWith s.limits.layer s.machine s.diagnostics ns
  rw [hreport]
  cases hr : firstFault s.limits.layer s.machine ns with
  | none => exact .inl rfl
  | some fault =>
    obtain ⟨n, e⟩ := fault
    have he := hfault n e hr
    cases e with
    | runtime t c => exact .inr (.inl ⟨t, c, rfl⟩)
    | misplaced => exact he.elim
    | overflow => exact .inr (.inl ⟨_, .stackOverflow, rfl⟩)
    | unfinished => exact .inr (.inr (.inl ⟨n, rfl⟩))
    | broken b =>
      exact .inr (.inr (.inr ⟨b, rfl, interpretWith_brokeOff ht _ (hsame.symm.trans hr)⟩))

/-- Two sessions that are given the same texts are the same, seen at a level that both trace. -/
theorem seenAt_after_new (limits : Limits) (clock : ℕ → Float) (level level' : ℕ)
    (steps : List Step) :
    let s := (new limits level clock).after steps
    let t := (new limits level' clock).after steps
    s.seenAt (min level level') = t.seenAt (min level level') ∧
      min level level' ≤ s.machine.traceLevel ∧ min level level' ≤ t.machine.traceLevel := by
  have hs := (Sees.new (min_le_left level level') limits clock).after steps
  have ht := (Sees.new (min_le_right level level') limits clock).after steps
  exact ⟨hs.1.symm.trans ht.1, hs.2, ht.2⟩

/-- A text that is run adds to the reports what a run can, and if that is a failure which is not the
program's own, the run was broken off at an index of a native. -/
theorem run_adds (limits : Limits) (level : ℕ) (clock : ℕ → Float) {steps : List Step}
    (h : ∀ step ∈ steps, step.ofText) (source : String) {step : Step}
    (hstep : step = .run source ∨ step = .interpret source) :
    let s := (new limits level clock).after steps
    let closely := (new limits 3 clock).after steps
    Adds (s.read source).1.diagnostics (s.step step).1.diagnostics
      (closely.step step).1.machine.BrokeOff := by
  intro s closely
  obtain ⟨hseen, hlevel, hlevel'⟩ := seenAt_after_new limits clock level 3 steps
  have hread : (s.read source).1.seenAt (min level 3) =
      (closely.read source).1.seenAt (min level 3) :=
    congrArg (fun u => (u.read source).1) hseen
  have hreports : (closely.read source).1.diagnostics = (s.read source).1.diagnostics :=
    (congrArg (·.diagnostics) hread).symm
  have hcalls : closely.machine.TracesCalls := ((Sees.new le_rfl limits clock).after steps).2
  have hl := Likeness.proper_admits
  have hm : s.machine.MadeOf (.proper fun _ => True) :=
    after_madeOf hl (new_madeOf limits level clock) h fun text _ => Program.ofText_wellFormed text
  have hfault := (interpretWith_leaves hl s.limits (Program.ofText_wellFormed source) hm
    (s.read source).1.diagnostics).2
  have interpreted : Adds (s.read source).1.diagnostics
      ((s.read source).1.interpret (s.read source).2).diagnostics
      ((closely.read source).1.interpret (closely.read source).2).machine.BrokeOff :=
    interpret_adds hread hlevel hlevel' hcalls hfault
  rcases hstep with rfl | rfl
  · change Adds _ (s.run source).diagnostics (closely.run source).machine.BrokeOff
    rw [run_eq, run_eq, hreports]
    split
    · exact .inl rfl
    · exact interpreted
  · exact interpreted

end Session

/-! ## Failing as the program's own error -/

/-- A native with all its arguments gives a value or an error of the program, and so does a call of
it at its closing parenthesis, unless the first argument that is of no use is an index that cannot
be cut off. Whatever texts a session is given, no other failure is reported of them. -/
theorem Native.fails_as_error (n : Native) (vs : List Value) (hlen : vs.length = n.arity) :
    (∀ r : Float,
      ((¬ ∃ b, Breaks n.parameters vs b) →
        (∃ v, n.apply r vs = .ok v) ∨ ∃ rej, n.apply r vs = .error (.rejected rej)) ∧
      ∀ b, n.apply r vs = .error (.broken b) ↔ Breaks n.parameters vs b) ∧
    (∀ (below : Layer Run) (t : Token) (m : Machine),
      ((¬ ∃ b, Breaks n.parameters vs b) →
        (∃ v m', below.call (.native n) vs t m = .ok v m') ∨
          ∃ rej m', below.call (.native n) vs t m = .error (.runtime t (.native rej)) m') ∧
      ∀ b, (∃ m', below.call (.native n) vs t m = .error (.broken b) m') ↔
        Breaks n.parameters vs b) ∧
    ∀ (limits : Limits) (level : ℕ) (clock : ℕ → Float) (steps : List Step),
      (∀ step ∈ steps, step.ofText) → ∀ (source : String) (step : Step),
      step = .run source ∨ step = .interpret source →
      let s := (Session.new limits level clock).after steps
      let closely := (Session.new limits 3 clock).after steps
      Session.Adds (s.read source).1.diagnostics (s.step step).1.diagnostics
        (closely.step step).1.machine.BrokeOff := by
  refine ⟨fun r => ?_, fun below t m => ?_, ?_⟩
  · exact ⟨fun h => apply_unbroken hlen h r, fun b => apply_broken_iff hlen⟩
  · exact ⟨fun h => Layer.call_native_unbroken hlen h below t m, fun b =>
      Layer.call_native_broken_iff hlen below t m⟩
  · exact fun limits level clock steps h source step =>
      Session.run_adds limits level clock h source

/-- An index that is out of range is an error of the program, in a function of an earlier text. -/
theorem Native.fails_as_error_outOfRange :
    let vs := [Value.string "a b", .number 2]
    let steps := [Step.interpret "fun field(i) \x7b return strat(\"a b\", i); \x7d"]
    let s := (Session.new .usual 0 fun _ => 0).after steps
    let closely := (Session.new .usual 3 fun _ => 0).after steps
    let step := Step.interpret "field(2);"
    ((∃ v, strat.apply 0 vs = .ok v) ∨ ∃ rej, strat.apply 0 vs = .error (.rejected rej)) ∧
    Session.Adds (s.read "field(2);").1.diagnostics (s.step step).1.diagnostics
      (closely.step step).1.machine.BrokeOff := by
  intro vs steps s closely step
  obtain ⟨happly, -, hprogram⟩ := Native.fails_as_error .strat vs rfl
  refine ⟨(happly 0).1 ?_, hprogram .usual 0 (fun _ => 0) steps (by decide) _ _ (.inr rfl)⟩
  rintro ⟨b, hb⟩
  have hvalue : strat.apply 0 vs = .error (.rejected (.outOfRange 2)) := rfl
  have hbroken := (apply_broken_iff (r := 0) rfl).2 hb
  rw [hvalue] at hbroken
  cases hbroken

/-- A program that squares a number until it is infinite and asks for that field reports a failure
that is not its own, and so it does for a difference of infinities. -/
theorem Native.breaks_at_infinity :
    strat.apply 0 [.string "a", .number (1 / 0)] = .error (.broken .infiniteIndex) ∧
    strat.apply 0 [.string "a", .number (0 / 0)] = .error (.broken .nanIndex) ∧
    let squared := "var x = 99999999999; while (x < x * x) x = x * x; "
    let messages (source : String) := ((Session.new .usual 0 fun _ => 0).step
      (.interpret source)).1.diagnostics.messages
    messages (squared ++ "strat(\"a\", x);") =
      ["Internal error: OverflowError('cannot convert float infinity to integer')"] ∧
    messages (squared ++ "strat(\"a\", x - x);") =
      ["Internal error: ValueError('cannot convert float NaN to integer')"] :=
  ⟨rfl, rfl, by decide +kernel, by decide +kernel⟩

end LoxLang
