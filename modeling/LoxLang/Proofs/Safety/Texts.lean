import LoxLang.Proofs.Effects.Session
import LoxLang.Proofs.Safety.Session
/-!
# What sessions of texts keep

A session that is given source texts only runs nothing but the trees made of them, so it keeps what
running such trees keeps.
-/

namespace LoxLang

/-- A tree that is well formed and made of the tokens of some text. -/
def Node.Parsed (s : Site) (n : Node) : Prop :=
  ∃ source : String, n.Proper (· ∈ (Scan.ofText source).tokens) s

/-- Running the trees of a text keeps a property of machines. -/
structure KeptByTexts (P : Machine → Prop) : Prop where
  record : ∀ (e : TraceEvent) m, P m → P (machineOf (Run.record e m))
  evaluate : ∀ (l : Limits) (n : Node) m, n.Parsed .expression → P m →
    P (machineOf (l.layer.evaluate n m))
  execute : ∀ (l : Limits) (n : Node) m, n.Parsed (.statement true) → P m →
    P (machineOf (l.layer.execute n m))

namespace KeptByTexts

variable {P : Machine → Prop}

theorem interpretWith (hP : KeptByTexts P) (l : Limits) (d : Diagnostics) {ns : List Node}
    (hns : ∀ n ∈ ns, n.Parsed (.statement true)) {m : Machine} (hm : P m) :
    P (Session.interpretWith l.layer m d ns).1 := by
  induction ns generalizing m with
  | nil => exact hm
  | cons n ns ih =>
    have hn : P (machineOf (Session.topLevel l.layer n m)) :=
      hP.execute l n _ (hns n (by simp)) (hP.record _ m hm)
    unfold Session.interpretWith
    cases hr : Session.topLevel l.layer n m with
    | ok c m' =>
      rw [hr] at hn
      cases c with
      | normal => exact ih (fun k hk => hns k (by simp [hk])) hn
      | returned => exact hn
    | error e m' =>
      rw [hr] at hn
      exact hn

theorem step (hP : KeptByTexts P) (s : Session) {step : Step} (hstep : step.ofText)
    (hm : P s.machine) : P (s.step step).1.machine := by
  have parsed : ∀ source, ∀ n ∈ (Program.ofText source).statements, n.Parsed (.statement true) := by
    intro source
    obtain ⟨-, -, -, hn, -⟩ := Program.ofText_reads source _
    exact fun n hmem => ⟨source, hn n hmem⟩
  cases step with
  | run source =>
    change P (Session.machine (if _ then _ else _))
    split
    · exact hm
    · exact hP.interpretWith s.limits _ (parsed source) hm
  | interpret source => exact hP.interpretWith s.limits _ (parsed source) hm
  | evaluate source =>
    unfold Session.step
    dsimp only
    split
    · exact hm
    · next first _ h =>
      split
      · next e he =>
        have hfirst : first ∈ (Program.ofText source).statements := by
          change first ∈ (s.read source).2
          rw [h]
          exact List.mem_cons_self
        obtain ⟨text, hproper⟩ := parsed source first hfirst
        rw [Session.evaluate, Session.answering_machine]
        exact hP.evaluate s.limits e s.machine ⟨text, hproper.soleExpression? id he⟩ hm
      · exact hm
  | reset | close => exact hm
  | interpretNodes | evaluateNode | evaluateText | executeNode => cases hstep

theorem after (hP : KeptByTexts P) {s : Session} (hm : P s.machine) {steps : List Step}
    (h : ∀ step ∈ steps, step.ofText) : P (s.after steps).machine := by
  induction steps generalizing s with
  | nil => exact hm
  | cons step steps ih =>
    exact ih (hP.step s (h step (by simp)) hm) fun step hs => h step (by simp [hs])

end KeptByTexts

end LoxLang
