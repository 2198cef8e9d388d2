import LoxLang.Proofs.Effects.Session
import LoxLang.Proofs.Scoping.WellScoped
/-!
# What a trace changes

A machine may be seen at a lower level of detail: then the events that ask for more are missing from
its trace. A run sees no difference. It ends in the same way, and the machine that it leaves, seen
at the lower level, is the one that it leaves at the lower level.
-/

namespace LoxLang

/-- The machine as it would be at a lower level of detail. -/
def Machine.seenAt (level : Nat) (m : Machine) : Machine :=
  { m with traceLevel := level, trace := m.trace.filter (·.level ≤ level) }

@[simp]
theorem Machine.seenAt_store (level : Nat) (m : Machine) : (m.seenAt level).store = m.store := rfl

@[simp]
theorem Machine.seenAt_scope (level : Nat) (m : Machine) : (m.seenAt level).scope = m.scope := rfl

/-- A result whose machine is seen at a lower level of detail. -/
def endSeenAt {α : Type} (level : Nat) :
    EStateM.Result Fault Machine α → EStateM.Result Fault Machine α
  | .ok a m => .ok a (m.seenAt level)
  | .error e m => .error e (m.seenAt level)

/-- A run beside the same run at a lower level of detail. -/
def traced (level : Nat) : Correspondence where
  World := Unit
  le _ _ := True
  likeness := .same
  held _ _ := True
  machines _ _ m m' := m' = m.seenAt level ∧ level ≤ m.traceLevel
  fault e e' := e = e'
  slack := .none

namespace Traced

variable {level : Nat} {α : Type} {x : Run α} {m : Machine}

/-- A run that goes the same way at a lower level of detail, and does not change the level. -/
def Unseen (level : Nat) (x : Run α) : Prop :=
  ∀ m : Machine, level ≤ m.traceLevel →
    x (m.seenAt level) = endSeenAt level (x m) ∧ level ≤ (machineOf (x m)).traceLevel

theorem runs {w : (traced level).World} {b : Bool} {Q : (traced level).World → α → α → Prop}
    (h : Unseen level x) (hq : ∀ w a, Q w a a) : (traced level).Runs w b x x Q := by
  rintro m _ ⟨rfl, hm⟩
  obtain ⟨hx, hlevel⟩ := h m hm
  rw [hx]
  cases hr : x m with
  | ok a n =>
    rw [hr] at hlevel
    exact ⟨(), trivial, ⟨rfl, hlevel⟩, hq _ a⟩
  | error e n =>
    rw [hr] at hlevel
    exact .inr ⟨rfl, (), trivial, rfl, hlevel⟩

theorem unseen {Q : Unit → α → α → Prop} (hq : ∀ a a', Q () a a' → a = a')
    (h : (traced level).Runs () true x x Q) : Unseen level x := by
  intro m hm
  have hx := h m (m.seenAt level) ⟨rfl, hm⟩
  revert hx
  generalize x m = r, x (m.seenAt level) = r'
  intro hx
  refine Correspondence.Ends.elim hx ?left ?right ?ok ?error
  case left => exact fun _ _ _ hs _ => nomatch hs
  case right => exact fun _ _ _ hs _ => nomatch hs
  case ok =>
    rintro _ a a' n _ - ⟨rfl, hn⟩ ha
    obtain rfl := hq a a' ha
    exact ⟨rfl, hn⟩
  case error =>
    rintro _ e _ n _ rfl - ⟨rfl, hn⟩
    exact ⟨rfl, hn⟩

/-! ## Single steps -/

theorem lookup_unseen (t : Token) : Unseen level (Run.lookup t) := by
  intro m hm
  rw [Run.lookup_eq, Run.lookup_eq]
  simp only [Machine.seenAt_store, Machine.seenAt_scope]
  cases m.store.resolve t.lexeme m.store.room m.scope <;> exact ⟨rfl, hm⟩

theorem assign_unseen (t : Token) (v : Value) : Unseen level (Run.assign t v) := by
  intro m hm
  rw [Run.assign_eq, Run.assign_eq]
  simp only [Machine.seenAt_store, Machine.seenAt_scope]
  cases m.store.resolve t.lexeme m.store.room m.scope <;> exact ⟨rfl, hm⟩

/-- An event that is not traced is not missed, and one that is traced is missing if it asks for more
detail. -/
theorem record_unseen (e : TraceEvent) : Unseen level (Run.record e) := by
  intro m hm
  change EStateM.Result.ok () (if e.level ≤ level then _ else _) =
    endSeenAt level (.ok () (if e.level ≤ m.traceLevel then _ else _)) ∧
      level ≤ Machine.traceLevel (if e.level ≤ m.traceLevel then _ else _)
  by_cases htop : e.level ≤ m.traceLevel
  · rw [if_pos htop]
    by_cases hlow : e.level ≤ level
    · simp [endSeenAt, Machine.seenAt, hlow, hm]
    · simp [endSeenAt, Machine.seenAt, hlow, hm]
  · have hlow : ¬ e.level ≤ level := fun h => htop (h.trans hm)
    rw [if_neg htop, if_neg hlow]
    exact ⟨rfl, hm⟩

theorem lawful : (traced level).Lawful where
  refl _ := trivial
  trans _ _ := trivial
  held_mono _ _ := trivial
  held_plain _ := trivial
  literal _ := trivial
  kind h := by rw [h]
  lexeme h := by rw [h]
  lookup := by
    rintro w b t _ rfl
    exact runs (lookup_unseen t) fun _ _ => ⟨rfl, trivial⟩
  assign := by
    rintro w b t _ v rfl -
    exact runs (assign_unseen t v) fun _ _ => trivial
  define _ := runs (fun _ hm => ⟨rfl, hm⟩) fun _ _ => trivial
  makeFunction := by
    rintro w t _ ps ps' ns ns' rfl hps hns
    obtain rfl := Node.forall₂_eq hps fun _ _ _ h => h
    obtain rfl := Node.forall₂_eq hns fun _ _ _ h => h.eq id
    exact runs (fun _ hm => ⟨rfl, hm⟩) fun _ _ => ⟨rfl, trivial⟩
  record e := runs (record_unseen e) fun _ _ => trivial
  printLine text := runs (fun _ hm => ⟨rfl, hm⟩) fun _ _ => trivial
  readClock := runs (fun _ hm => ⟨rfl, hm⟩) fun _ _ => rfl
  enterBlock := by
    rintro w b m _ ⟨rfl, hm⟩
    exact ⟨(), trivial, rfl, hm⟩
  enterCall := by
    rintro w b m _ f vs ⟨rfl, hm⟩ - -
    cases hc : m.store.closures[f.id]? with
    | none => exact .inl ⟨rfl, hc⟩
    | some c =>
      have hbody := fun n (_ : n ∈ c.body) => (Node.alike_self Likeness.same_reflexive n).2
      exact .inr ⟨c, c, (), rfl, hc, List.forall₂_same.2 hbody, trivial, rfl, hm⟩
  leave := by
    rintro w w' b b' m _ n _ ⟨rfl, -⟩ - ⟨rfl, hn⟩
    exact ⟨rfl, hn⟩
  unary := by
    rintro t _ v e rfl -
    rfl
  binary := by
    rintro t _ x y e rfl -
    rfl
  call := by
    rintro t _ c rfl -
    rfl
  broken _ _ := rfl
  misplaced _ := rfl
  overflow := rfl
  unfinished := rfl
  overflow_iff h := by rw [h]

theorem inStep (level : Nat) (l : Limits) : (traced level).LayersInStep l.layer l.layer :=
  Correspondence.layersInStep lawful (rfl : l.turns = l.turns) _ _ (rfl : l.nesting = l.nesting)

theorem evaluate_unseen (level : Nat) (l : Limits) (n : Node) : Unseen level (l.layer.evaluate n) :=
  unseen (fun _ _ h => h.1) ((inStep level l).evaluate (Node.alike_self Likeness.same_reflexive n).1)

theorem execute_unseen (level : Nat) (l : Limits) (n : Node) : Unseen level (l.layer.execute n) :=
  unseen (fun _ _ h => h.1) ((inStep level l).execute (Node.alike_self Likeness.same_reflexive n).2)

end Traced

/-! ## Sessions -/

/-- The session as it would be at a lower level of detail. -/
def Session.seenAt (level : Nat) (s : Session) : Session :=
  { s with machine := s.machine.seenAt level }

/-- One session is the other, seen at a level of detail that is no higher than its own. -/
def Session.Sees (level : Nat) (s s' : Session) : Prop :=
  s' = s.seenAt level ∧ level ≤ s.machine.traceLevel

namespace Session

variable {level : Nat}

theorem topLevel_unseen (level : Nat) (l : Limits) (n : Node) :
    Traced.Unseen level (topLevel l.layer n) := by
  have hrecord : (traced level).Runs () true (Run.record (.execute n.className))
      (Run.record (.execute n.className)) (Correspondence.Done _) :=
    Traced.lawful.record _
  have hexecute : ∀ w : Unit, (traced level).Runs w true (l.layer.execute n) (l.layer.execute n)
      (Correspondence.SameCompletion _) :=
    fun _ => (Traced.inStep level l).execute (Node.alike_self Likeness.same_reflexive n).2
  exact Traced.unseen (fun _ _ h => h.1)
    (Correspondence.Runs.bind Traced.lawful hrecord fun w _ _ _ _ => hexecute w)

theorem interpretWith_seenAt (l : Limits) (ns : List Node) (d : Diagnostics) {m : Machine}
    (hm : level ≤ m.traceLevel) :
    interpretWith l.layer (m.seenAt level) d ns =
        ((interpretWith l.layer m d ns).1.seenAt level, (interpretWith l.layer m d ns).2) ∧
      level ≤ (interpretWith l.layer m d ns).1.traceLevel := by
  induction ns generalizing m with
  | nil => exact ⟨rfl, hm⟩
  | cons n ns ih =>
    obtain ⟨hn, hlevel⟩ := topLevel_unseen level l n m hm
    unfold interpretWith
    rw [hn]
    cases hr : topLevel l.layer n m with
    | ok c n =>
      rw [hr] at hlevel
      cases c with
      | normal => exact ih hlevel
      | returned => exact ⟨rfl, hlevel⟩
    | error =>
      rw [hr] at hlevel
      exact ⟨rfl, hlevel⟩

namespace Sees

variable {s s' : Session}

theorem read (h : Sees level s s') (source : String) :
    Sees level (s.read source).1 (s'.read source).1 := by
  obtain ⟨rfl, hs⟩ := h
  exact ⟨rfl, hs⟩

theorem interpret (h : Sees level s s') (ns : List Node) :
    Sees level (s.interpret ns) (s'.interpret ns) := by
  obtain ⟨rfl, hs⟩ := h
  obtain ⟨heq, hlevel⟩ := interpretWith_seenAt s.limits ns s.diagnostics hs
  refine ⟨?_, hlevel⟩
  simp only [Session.interpret, seenAt, heq]

theorem answering {α : Type} {body : Run α} (h : Sees level s s')
    (hbody : Traced.Unseen level body) (answer : α → Answer) :
    Sees level (s.answering body answer).1 (s'.answering body answer).1 ∧
      (s.answering body answer).2 = (s'.answering body answer).2 := by
  obtain ⟨rfl, hs⟩ := h
  obtain ⟨heq, hlevel⟩ := hbody s.machine hs
  have hmachine : (s.seenAt level).machine = s.machine.seenAt level := rfl
  unfold Session.answering
  rw [hmachine, heq]
  cases hr : body s.machine with
  | ok =>
    rw [hr] at hlevel
    exact ⟨⟨rfl, hlevel⟩, rfl⟩
  | error =>
    rw [hr] at hlevel
    exact ⟨⟨rfl, hlevel⟩, rfl⟩

/-- Neither session can tell from a step at which level it is traced. -/
theorem step (h : Sees level s s') (step : Step) :
    Sees level (s.step step).1 (s'.step step).1 ∧ (s.step step).2 = (s'.step step).2 := by
  have hlimits : s'.limits = s.limits := by rw [h.1]; rfl
  have evaluated : ∀ {s s' : Session}, Sees level s s' → ∀ n,
      Sees level (s.evaluate n).1 (s'.evaluate n).1 ∧ (s.evaluate n).2 = (s'.evaluate n).2 := by
    rintro s _ ⟨rfl, hs⟩ n
    exact answering ⟨rfl, hs⟩ (Traced.evaluate_unseen level s.limits n) .value
  cases step with
  | run source =>
    have hread := h.read source
    have hd : (s'.read source).1.diagnostics = (s.read source).1.diagnostics := by
      rw [hread.1]; rfl
    refine ⟨?_, rfl⟩
    change Sees level (s.run source) (s'.run source)
    rw [run_eq, run_eq, hd]
    split
    · exact hread
    · exact hread.interpret _
  | interpret source => exact ⟨(h.read source).interpret _, rfl⟩
  | interpretNodes ns => exact ⟨h.interpret ns, rfl⟩
  | evaluate source =>
    have hread := h.read source
    have hns : (s'.read source).2 = (s.read source).2 := rfl
    unfold Session.step
    dsimp only
    rw [hns]
    split
    · exact ⟨hread, rfl⟩
    · split
      · exact evaluated hread _
      · exact ⟨hread, rfl⟩
  | evaluateNode n => exact evaluated h n
  | evaluateText text =>
    unfold Session.step
    dsimp only
    split
    · exact evaluated h _
    · exact ⟨h, rfl⟩
  | executeNode n =>
    rw [Session.step, Session.step, hlimits]
    exact h.answering (Traced.execute_unseen level s.limits n) .completion
  | reset | close =>
    obtain ⟨rfl, hs⟩ := h
    exact ⟨⟨rfl, hs⟩, rfl⟩

theorem after (h : Sees level s s') (steps : List Step) :
    Sees level (s.after steps) (s'.after steps) := by
  induction steps generalizing s s' with
  | nil => exact h
  | cons step steps ih => exact ih (h.step step).1

/-- A new session at a lower level is what a new session at a higher one is seen as. -/
theorem new {level' : Nat} (h : level ≤ level') (limits : Limits) (clock : Nat → Float) :
    Sees level (.new limits level' clock) (.new limits level clock) := by
  refine ⟨?_, h⟩
  simp [seenAt, Session.new, Machine.seenAt]

end Sees

/-- A session traces nothing that its level does not ask for. -/
theorem trace_after_new (limits : Limits) (level : Nat) (clock : Nat → Float) (steps : List Step) :
    let trace := ((new limits level clock).after steps).machine.trace
    trace.filter (·.level ≤ level) = trace :=
  (congrArg (·.machine.trace) ((Sees.new le_rfl limits clock).after steps).1).symm

/-- Two sessions that do the same steps at different levels of detail print the same, report the
same, give the same answers, and leave the same bindings behind. They differ in their traces only,
and these agree in all events that both levels ask for. -/
theorem tracing_unnoticed (limits : Limits) (clock : Nat → Float) (level level' : Nat)
    (steps : List Step) :
    let s := (new limits level clock).after steps
    let s' := (new limits level' clock).after steps
    s.machine.output = s'.machine.output ∧ s.diagnostics = s'.diagnostics ∧
      s.machine.store = s'.machine.store ∧ s.machine.scope = s'.machine.scope ∧
      s.machine.readings = s'.machine.readings ∧ s.closed = s'.closed ∧
      (∀ step, (s.step step).2 = (s'.step step).2) ∧
      s.machine.trace.filter (·.level ≤ level') = s'.machine.trace.filter (·.level ≤ level) := by
  intro s s'
  -- Both are seen as the session at the lower of the two levels.
  have hs : Sees (min level level') s ((new limits (min level level') clock).after steps) :=
    (Sees.new (min_le_left level level') limits clock).after steps
  have hs' : Sees (min level level') s' ((new limits (min level level') clock).after steps) :=
    (Sees.new (min_le_right level level') limits clock).after steps
  have heq : s.seenAt (min level level') = s'.seenAt (min level level') := hs.1.symm.trans hs'.1
  have field : ∀ {α : Type} (f : Session → α),
      f (s.seenAt (min level level')) = f (s'.seenAt (min level level')) := fun f => congrArg f heq
  refine ⟨field (·.machine.output), field (·.diagnostics), field (·.machine.store),
    field (·.machine.scope), field (·.machine.readings), field (·.closed), fun step => ?_, ?_⟩
  · exact (hs.step step).2.trans (hs'.step step).2.symm
  · have htrace := field (·.machine.trace)
    rw [← trace_after_new limits level clock steps, ← trace_after_new limits level' clock steps,
      Array.filter_filter, Array.filter_filter]
    simpa [seenAt, Machine.seenAt, Bool.and_comm] using htrace

end Session

end LoxLang
