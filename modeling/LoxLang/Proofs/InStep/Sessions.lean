import LoxLang.Proofs.InStep.Solo
import LoxLang.Proofs.Reading.Text
import LoxLang.Session
/-!
# Sessions of texts

A session that is given source texts only runs the trees of those texts and no others. If these are
of a certain kind, all that the session comes across is, and it meets no faults but theirs.
-/

namespace LoxLang

/-- The first fault of statements at top level, with the statement that was running. -/
def Session.firstFault (layer : Layer Run) (m : Machine) : List Node → Option (Node × Fault)
  | [] => none
  | n :: ns =>
    match Session.topLevel layer n m with
    | .ok .normal m => firstFault layer m ns
    | .ok (.returned _) _ => none
    | .error e _ => some (n, e)

/-- Whether a step is given a source text, or nothing at all. -/
def Step.ofText : Step → Bool
  | .run _ | .interpret _ | .evaluate _ | .reset | .close => true
  | .interpretNodes _ | .evaluateNode _ | .evaluateText _ | .executeNode _ => false

/-- The source text that a step is given. -/
def Step.text? : Step → Option String
  | .run source | .interpret source | .evaluate source => some source
  | _ => none

/-- The trees made of a text are of a certain kind. -/
def Likeness.Covers (l : Likeness) (source : String) : Prop :=
  ∀ n ∈ (Program.ofText source).statements, Node.Alike l (.statement true) n n

namespace Session

variable {l : Likeness} {F : Fault → Prop}

/-- What is reported of statements at top level is their first fault. -/
theorem diagnostics_interpretWith (layer : Layer Run) (m : Machine) (d : Diagnostics) (ns : List Node) :
    (interpretWith layer m d ns).2 =
      match firstFault layer m ns with
      | none => d
      | some (n, e) => d.addFault n e := by
  induction ns generalizing m with
  | nil => rfl
  | cons n ns ih =>
    unfold interpretWith firstFault
    cases topLevel layer n m with
    | ok c m' =>
      cases c with
      | normal => exact ih m'
      | returned => rfl
    | error e m' => rfl

theorem topLevel_leaves (hl : l.Admits F) (limits : Limits) {n : Node}
    (hn : Node.Alike l (.statement true) n n) {m : Machine} (hm : m.MadeOf l) :
    Leaves l F (topLevel limits.layer n m) :=
  hl.execute limits hn (Solo.record_leaves (F := F) (.execute n.className) hm)

theorem interpretWith_leaves (hl : l.Admits F) (limits : Limits) {ns : List Node}
    (hns : ∀ n ∈ ns, Node.Alike l (.statement true) n n) {m : Machine} (hm : m.MadeOf l)
    (d : Diagnostics) :
    (interpretWith limits.layer m d ns).1.MadeOf l ∧
      ∀ n e, firstFault limits.layer m ns = some (n, e) → F e := by
  induction ns generalizing m with
  | nil => exact ⟨hm, by simp [firstFault]⟩
  | cons n ns ih =>
    have htop := topLevel_leaves hl limits (hns n (by simp)) hm
    unfold interpretWith firstFault
    cases hr : topLevel limits.layer n m with
    | ok c m' =>
      rw [hr] at htop
      cases c with
      | normal => exact ih (fun k hk => hns k (by simp [hk])) htop
      | returned => exact ⟨htop, by simp⟩
    | error e m' =>
      rw [hr] at htop
      refine ⟨htop.2, fun n' e' h => ?_⟩
      cases h
      exact htop.1

theorem evaluate_leaves (hl : l.Admits F) (s : Session) {e : Node}
    (he : Node.Alike l .expression e e) (hm : s.machine.MadeOf l) :
    (s.evaluate e).1.machine.MadeOf l ∧ ∀ f, (s.evaluate e).2 = .failed (.fault f) → F f := by
  have hs := hl.evaluate s.limits he hm
  unfold evaluate answering
  cases hr : s.limits.layer.evaluate e s.machine with
  | ok v m' =>
    rw [hr] at hs
    exact ⟨hs, by simp⟩
  | error f m' =>
    rw [hr] at hs
    refine ⟨hs.2, fun f' h => ?_⟩
    cases h
    exact hs.1

/-- A step that is given a text leaves functions of that text's trees, and fails as they can. -/
theorem step_leaves (hl : l.Admits F) (s : Session) {step : Step} (hstep : step.ofText)
    (hcovers : ∀ source, step.text? = some source → l.Covers source) (hm : s.machine.MadeOf l) :
    (s.step step).1.machine.MadeOf l ∧ ∀ f, (s.step step).2 = .failed (.fault f) → F f := by
  have interpreted : ∀ source, l.Covers source →
      ((s.read source).1.interpret (s.read source).2).machine.MadeOf l :=
    fun source hsource => (interpretWith_leaves hl s.limits hsource hm _).1
  cases step with
  | run source =>
    refine ⟨?_, by simp [step]⟩
    change Machine.MadeOf l (Session.machine (if _ then _ else _))
    split
    · exact hm
    · exact interpreted source (hcovers source rfl)
  | interpret source => exact ⟨interpreted source (hcovers source rfl), by simp [step]⟩
  | evaluate source =>
    have hns : ∀ n ∈ (s.read source).2, Node.Alike l (.statement true) n n := hcovers source rfl
    unfold Session.step
    dsimp only
    split
    · exact ⟨hm, by simp⟩
    · next first _ h =>
      split
      · next he =>
        exact evaluate_leaves hl _ ((hns first (by simp [h])).soleExpression? hl.sorted he) hm
      · exact ⟨hm, by simp⟩
  | reset | close => exact ⟨hm, by simp [step]⟩
  | interpretNodes | evaluateNode | evaluateText | executeNode => cases hstep

theorem new_madeOf (limits : Limits) (traceLevel : Nat) (clock : Nat → Float) :
    (new limits traceLevel clock).machine.MadeOf l := by
  intro c hc
  have none_made : (new limits traceLevel clock).machine.store.closures = #[] := rfl
  rw [none_made] at hc
  simp at hc

theorem after_madeOf (hl : l.Admits F) {s : Session} (hm : s.machine.MadeOf l) {steps : List Step}
    (h : ∀ step ∈ steps, step.ofText)
    (hcovers : ∀ source ∈ steps.filterMap Step.text?, l.Covers source) :
    (s.after steps).machine.MadeOf l := by
  induction steps generalizing s with
  | nil => exact hm
  | cons step steps ih =>
    have hstep : (s.step step).1.machine.MadeOf l := by
      refine (step_leaves hl s (h step (by simp)) (fun source hs => hcovers source ?_) hm).1
      exact List.mem_filterMap.2 ⟨step, by simp, hs⟩
    refine ih hstep (fun step hs => h step (by simp [hs])) fun source hs => hcovers source ?_
    obtain ⟨later, hlater, htext⟩ := List.mem_filterMap.1 hs
    exact List.mem_filterMap.2 ⟨later, by simp [hlater], htext⟩

end Session

end LoxLang
