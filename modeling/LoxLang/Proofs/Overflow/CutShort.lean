import LoxLang.Proofs.Effects.Basic
import LoxLang.Proofs.Effects.Parametric
/-!
# Runs that are cut short

A stack that allows less nesting cuts a run short or leaves it as it is. A run that is cut short
ends with an overflow, whether or not a call is blamed for it: no tree makes a value of it, and none
goes on after it. What was printed until then is what any longer stack prints first.
-/

namespace LoxLang

/-- A fault for want of stack, blamed on a call or not. -/
def Fault.isOverflow : Fault → Bool
  | .overflow | .runtime _ .stackOverflow => true
  | _ => false

theorem Fault.isOverflow_caught (paren : Token) {e : Fault} (h : e.isOverflow) :
    (e.caught paren).isOverflow := by
  cases e <;> exact h

/-- The second machine has printed what the first has, and perhaps more. -/
def Machine.PrintsOn (m m' : Machine) : Prop := ∃ more, m'.output = m.output ++ more

namespace Machine.PrintsOn

variable {m m' m'' : Machine}

theorem of_eq (h : m'.output = m.output) : m.PrintsOn m' := ⟨"", by rw [h, String.append_empty]⟩

theorem trans (h : m.PrintsOn m') (h' : m'.PrintsOn m'') : m.PrintsOn m'' := by
  obtain ⟨more, h⟩ := h
  obtain ⟨more', h'⟩ := h'
  exact ⟨more ++ more', by rw [h', h, String.append_assoc]⟩

end Machine.PrintsOn

/-- From a machine on one run ends like another, or it is cut short by an overflow, and the other
prints on from there. The other takes back nothing that was printed before. -/
def CutShort {α : Type} (m : Machine) (short long : Run α) : Prop :=
  m.PrintsOn (machineOf (long m)) ∧ (short m = long m ∨
    ∃ e n, short m = .error e n ∧ e.isOverflow ∧ n.PrintsOn (machineOf (long m)))

namespace CutShort

variable {α β : Type} {m : Machine} {x y : Run α} {f g : α → Run β}

/-! ## Single steps -/

/-- No run is cut shorter than itself. -/
theorem refl (h : m.PrintsOn (machineOf (x m))) : CutShort m x x := ⟨h, .inl rfl⟩

theorem silent (h : (machineOf (x m)).output = m.output) : CutShort m x x := refl (.of_eq h)

/-- At the bottom of the stack every run is cut short at once. -/
theorem overflow (h : m.PrintsOn (machineOf (y m))) :
    CutShort m (MonadExcept.throw Fault.overflow) y :=
  ⟨h, .inr ⟨.overflow, m, rfl, rfl, h⟩⟩

theorem printsOn (h : CutShort m x y) : m.PrintsOn (machineOf (y m)) := h.1

theorem record (e : TraceEvent) : CutShort m (Run.record e) (Run.record e) := by
  refine silent ?_
  obtain ⟨trace, h⟩ := Run.record_eq e m
  rw [h]
  rfl

theorem isStep (h : x.IsStep) : CutShort m x x := by
  cases h with
  | lookup =>
    refine silent ?_
    rw [Run.lookup_eq]
    split <;> rfl
  | assign =>
    refine silent ?_
    rw [Run.assign_eq]
    split <;> rfl
  | record => exact record _
  | printLine text => exact refl ⟨text ++ "\n", String.append_assoc ..⟩
  | _ => exact silent rfl

/-! ## Runs put together -/

protected theorem bind (hx : CutShort m x y) (hf : ∀ a m, CutShort m (f a) (g a)) :
    CutShort m (x >>= f) (y >>= g) := by
  have goesOn : (machineOf (y m)).PrintsOn (machineOf ((y >>= g) m)) := by
    change Machine.PrintsOn _ (machineOf (EStateM.bind y g m))
    unfold EStateM.bind
    cases y m with
    | ok a n => exact (hf a n).printsOn
    | error e n => exact .of_eq rfl
  refine ⟨hx.printsOn.trans goesOn, ?_⟩
  rcases hx.2 with heq | ⟨e, n, hr, he, hn⟩
  · change EStateM.bind x f m = EStateM.bind y g m ∨ ∃ e n, EStateM.bind x f m = .error e n ∧ _ ∧
      n.PrintsOn (machineOf (EStateM.bind y g m))
    unfold EStateM.bind
    rw [heq]
    cases y m with
    | ok a n => exact (hf a n).2
    | error e n => exact .inl rfl
  · refine .inr ⟨e, n, ?_, he, hn.trans goesOn⟩
    change EStateM.bind x f m = _
    unfold EStateM.bind
    rw [hr]

theorem inside (s : Scope) (h : ∀ m, CutShort m x y) :
    CutShort m (Run.inside s x) (Run.inside s y) := by
  have left : (machineOf (Run.inside s y m)).output = (machineOf (y (m.inScope s))).output := by
    rw [Run.inside_eq]
    cases y (m.inScope s) <;> rfl
  obtain ⟨⟨more, hmore⟩, hends⟩ := h (m.inScope s)
  refine ⟨⟨more, left.trans hmore⟩, ?_⟩
  rcases hends with heq | ⟨e, n, hr, he, more, hmore⟩
  · left
    rw [Run.inside_eq, Run.inside_eq, heq]
  · refine .inr ⟨e, { n with scope := m.scope }, ?_, he, more, left.trans hmore⟩
    rw [Run.inside_eq, hr]

/-- Blaming an overflow on a call does not turn it into anything else. -/
theorem catchOverflow (t : Token) (h : CutShort m x y) :
    CutShort m (Run.catchOverflow t x) (Run.catchOverflow t y) := by
  have same : machineOf (Run.catchOverflow t y m) = machineOf (y m) := by
    rw [Run.catchOverflow_eq]
    cases y m <;> rfl
  obtain ⟨hgrows, hends⟩ := h
  unfold CutShort
  rw [same]
  refine ⟨hgrows, ?_⟩
  rcases hends with heq | ⟨e, n, hr, he, hn⟩
  · left
    rw [Run.catchOverflow_eq, Run.catchOverflow_eq, heq]
  · refine .inr ⟨e.caught t, n, ?_, Fault.isOverflow_caught t he, hn⟩
    rw [Run.catchOverflow_eq, hr]

/-! ## Layers -/

theorem parametric : Parametric (M := Run) (N := Run) CutShort where
  pure _ := silent rfl
  bind := CutShort.bind
  step := isStep
  reading h := h
  inside _ h := inside _ h
  traced _ _ t h :=
    (record _).bind fun _ m => (catchOverflow t (h m)).bind fun _ _ => (record _).bind fun _ _ =>
      silent rfl

/-- A lower stack cuts the runs on a higher one short or leaves them as they are. -/
theorem atop (turns extra : Nat) : ∀ nesting,
    Parametric.Layers (M := Run) (N := Run) CutShort (Layer.atop turns nesting)
      (Layer.atop turns (nesting + extra))
  | 0 => by
    -- No run takes back what was printed, also if it is not cut short.
    have h := parametric.atop turns (0 + extra)
    exact ⟨fun n m => overflow (h.evaluate n m).printsOn, fun n m => overflow (h.execute n m).printsOn⟩
  | nesting + 1 => by
    rw [Nat.add_right_comm]
    exact parametric.above (atop turns extra nesting) turns

end CutShort

end LoxLang
