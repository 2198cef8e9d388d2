import LoxLang.Proofs.InStep.Rules
/-!
# Evaluation in step

Nodes that are alike run in step, layer by layer, if the correspondence is lawful and the limits
compare as its slack allows.
-/

namespace LoxLang

open Layer

namespace Correspondence

variable {D : Correspondence} {w : D.World} {b : Bool} {below below' : Layer Run}

/-- Two layers under which nodes that are alike run in step. -/
structure LayersInStep (D : Correspondence) (below below' : Layer Run) : Prop where
  evaluate : ∀ {w b n n'}, Node.Alike D.likeness .expression n n' →
    D.Runs w b (below.evaluate n) (below'.evaluate n') D.Same
  execute : ∀ {w b n n'}, Node.Alike D.likeness (.statement b) n n' →
    D.Runs w b (below.execute n) (below'.execute n') D.SameCompletion

namespace Runs

/-! ## Lists of nodes -/

theorem evaluateAll (hD : D.Lawful) (h : D.LayersInStep below below') {ns ns' : List Node}
    (hns : List.Forall₂ (Node.Alike D.likeness .expression) ns ns') :
    ∀ w, D.Runs w b (below.evaluateAll ns) (below'.evaluateAll ns') D.SameAll := by
  induction hns with
  | nil =>
    intro w
    exact Runs.pure hD ⟨rfl, by simp⟩
  | cons hn _ ih =>
    intro w
    apply Runs.bind hD (h.evaluate hn)
    rintro w₁ v _ - ⟨rfl, hv⟩
    apply Runs.bind hD (ih w₁)
    rintro w₂ vs _ hle ⟨rfl, hvs⟩
    refine Runs.pure hD ⟨rfl, fun u hu => ?_⟩
    rcases List.mem_cons.1 hu with rfl | hu
    · exact hD.held_mono hle hv
    · exact hvs u hu

theorem executeAll (hD : D.Lawful) (h : D.LayersInStep below below') {ns ns' : List Node}
    (hns : List.Forall₂ (Node.Alike D.likeness (.statement b)) ns ns') :
    ∀ w, D.Runs w b (below.executeAll ns) (below'.executeAll ns') D.SameCompletion := by
  induction hns with
  | nil =>
    intro w
    exact Runs.pure hD ⟨rfl, by simp⟩
  | cons hn _ ih =>
    intro w
    apply Runs.bind hD (h.execute hn)
    rintro w₁ c _ - ⟨rfl, hc⟩
    cases c with
    | normal => exact ih w₁
    | returned v => exact Runs.pure hD ⟨rfl, hc⟩

/-! ## Calls -/

theorem settle (hD : D.Lawful) {t t' : Token} {r : Except OperationError Value}
    (hv : ∀ v, r = .ok v → D.held w v)
    (he : ∀ e, r = .error e → D.fault (e.fault t) (e.fault t')) :
    D.Runs w b (settle t r) (settle t' r) D.Same := by
  cases r with
  | ok v => exact Runs.pure hD ⟨rfl, hv v rfl⟩
  | error e => exact Runs.throw hD (he e rfl)

theorem settleCall (hD : D.Lawful) {t t' : Token} (ht : D.likeness.token .paren t t') {n : Native}
    {vs : List Value} (hlen : vs.length = n.arity) (x : Float) :
    D.Runs w b (settleCall t (n.apply x vs)) (settleCall t' (n.apply x vs)) D.Same := by
  cases hr : n.apply x vs with
  | ok v => exact Runs.pure hD ⟨rfl, hD.held_plain (Native.apply_plain hr)⟩
  | error e =>
    cases e with
    | rejected r => exact Runs.throw hD (hD.call ht (by simp))
    | broken br => exact Runs.throw hD (hD.broken hlen hr)

theorem callNative (hD : D.Lawful) {t t' : Token} (ht : D.likeness.token .paren t t') {n : Native}
    {vs : List Value} (hlen : vs.length = n.arity) :
    D.Runs w b (callNative n vs t) (callNative n vs t') D.Same := by
  unfold Layer.callNative
  split
  · apply Runs.bind hD hD.readClock
    rintro w' x _ - rfl
    exact settleCall hD ht hlen x
  · exact settleCall hD ht hlen 0

theorem callFunction (hD : D.Lawful) (h : D.LayersInStep below below') {f : Callable}
    {vs : List Value} (hf : D.held w (.function f)) (hvs : ∀ v ∈ vs, D.held w v) :
    D.Runs w b (below.callFunction f vs) (below'.callFunction f vs) D.Same := by
  have completed : ∀ w' c c', D.le w w' → D.SameCompletion w' c c' →
      D.Runs w' b (pure c.value) (pure c'.value) D.Same := by
    rintro w' c _ - ⟨rfl, hc⟩
    refine Runs.pure hD ⟨rfl, ?_⟩
    cases c with
    | normal => exact hD.held_plain (by simp [Completion.value])
    | returned v => exact hc v rfl
  intro m m' hm
  rw [Layer.callFunction_eq, Layer.callFunction_eq]
  rcases hD.enterCall hm hf hvs with ⟨hn, hn'⟩ | ⟨c, c', w', hc, hc', hbody, hle, hin⟩
  · rw [hn, hn']
    exact ⟨w, hD.refl w, hm, rfl, hD.held_plain (by simp)⟩
  · rw [hc, hc']
    have hcall : D.Ends w b D.SameCompletion
        (Run.inside (callScope c vs) (below.executeAll c.body) m)
        (Run.inside (callScope c' vs) (below'.executeAll c'.body) m') :=
      Ends.inside hD hm hle hin (Runs.executeAll hD h hbody w')
    exact Ends.bind hD hcall completed

theorem call (hD : D.Lawful) (h : D.LayersInStep below below') {t t' : Token}
    (ht : D.likeness.token .paren t t') {callee : Value} {vs : List Value}
    (hcallee : D.held w callee) (hvs : ∀ v ∈ vs, D.held w v) :
    D.Runs w b (below.call callee vs t) (below'.call callee vs t') D.Same := by
  have entered : ∀ (w : D.World) {arity : Nat}, arity? callee = some arity →
      vs.length = arity → D.held w callee → (∀ v ∈ vs, D.held w v) →
      D.Runs w b (below.enter callee vs t) (below'.enter callee vs t') D.Same := by
    intro w arity ha hlen hcallee hvs
    cases callee with
    | native n =>
      cases ha
      exact callNative hD ht hlen
    | function f => exact callFunction hD h hcallee hvs
    | _ => cases ha
  unfold Layer.call
  split
  · exact Runs.throw hD (hD.call ht (by simp))
  · next arity ha =>
    split
    · exact Runs.throw hD (hD.call ht (by simp))
    · next hlen =>
      refine Runs.bind hD (hD.record _) fun w₁ _ _ hle _ => ?_
      have hvs₁ : ∀ v ∈ vs, D.held w₁ v := fun v hv => hD.held_mono hle (hvs v hv)
      refine Runs.bind hD (Runs.catchOverflow hD ht (entered w₁ ha (by simpa using hlen)
        (hD.held_mono hle hcallee) hvs₁)) ?_
      rintro w₂ v _ - ⟨rfl, hv⟩
      refine Runs.bind hD (hD.record _) fun w₃ _ _ hle _ => ?_
      exact Runs.pure hD ⟨rfl, hD.held_mono hle hv⟩

/-! ## Nodes -/

theorem evaluateNode (hD : D.Lawful) (h : D.LayersInStep below below') {n n' : Node}
    (hn : Node.Alike D.likeness .expression n n') :
    D.Runs w b (below.evaluateNode n) (below'.evaluateNode n') D.Same := by
  cases hn with
  | literal hv => exact Runs.pure hD ⟨rfl, hD.literal hv⟩
  | ident ht => exact hD.lookup ht
  | assign ht he =>
    apply Runs.bind hD (h.evaluate he)
    rintro w₁ v _ - ⟨rfl, hv⟩
    refine Runs.bind hD (hD.assign ht hv) fun w₂ _ _ hle _ => ?_
    exact Runs.pure hD ⟨rfl, hD.held_mono hle hv⟩
  | @unary t t' _ _ ht he =>
    apply Runs.bind hD (h.evaluate he)
    rintro w₁ v _ - ⟨rfl, hv⟩
    rw [unaryOperation_congr (hD.kind ht).symm (hD.lexeme ht).symm]
    exact settle hD (fun _ hr => hD.held_plain (unaryOperation_plain hr)) fun _ hr =>
      hD.unary ht hr
  | binary ha ht hb =>
    apply Runs.bind hD (h.evaluate ha)
    rintro w₁ x _ - ⟨rfl, -⟩
    apply Runs.bind hD (h.evaluate hb)
    rintro w₂ y _ - ⟨rfl, -⟩
    rw [binaryOperation_congr (hD.kind ht).symm (hD.lexeme ht).symm]
    exact settle hD (fun _ hr => hD.held_plain (binaryOperation_plain hr)) fun _ hr =>
      hD.binary ht hr
  | @logical _ _ _ t' _ _ ha ht hb =>
    apply Runs.bind hD (h.evaluate ha)
    rintro w₁ v _ - ⟨rfl, hv⟩
    rw [hD.kind ht]
    dsimp only
    generalize (if t'.kind = .keyword .orWord then v.truthy else !v.truthy) = decided
    cases decided with
    | true => exact Runs.pure hD ⟨rfl, hv⟩
    | false => exact h.evaluate hb
  | grouping he => exact h.evaluate he
  | call hf ht hargs =>
    apply Runs.bind hD (h.evaluate hf)
    rintro w₁ callee _ - ⟨rfl, hcallee⟩
    apply Runs.bind hD (evaluateAll hD h hargs w₁)
    rintro w₂ vs _ hle ⟨rfl, hvs⟩
    exact call hD h ht (hD.held_mono hle hcallee) hvs
  | misplaced hm hn =>
    have refused : ∀ below : Layer Run,
        below.evaluateNode n = throw (.misplaced ⟨.evaluate, n.className⟩) := by
      intro below
      cases n <;> first | rfl | cases hn
    rw [refused, refused]
    exact Runs.throw hD (hD.misplaced hm)

/-- Each turn starts from machines that correspond. -/
theorem loop (hD : D.Lawful) {condition condition' : Run Value} {body body' : Run Completion}
    (hc : ∀ w, D.Runs w b condition condition' D.Same)
    (hb : ∀ w, D.Runs w b body body' D.SameCompletion) :
    ∀ t t', D.slack.Allows t t' → ∀ w,
      D.Runs w b (loop condition body t) (loop condition' body' t') D.SameCompletion := by
  intro t
  induction t with
  | zero =>
    intro t' ht w
    cases t' with
    | zero => exact Runs.throw hD hD.unfinished
    | succ t' => exact Runs.excusedLeft ht.left_of_zero rfl
  | succ t ih =>
    intro t' ht w
    cases t' with
    | zero => exact Runs.excusedRight ht.right_of_zero rfl
    | succ t' =>
      apply Runs.bind hD (hc w)
      rintro w₁ v _ - ⟨rfl, -⟩
      split
      · apply Runs.bind hD (hb w₁)
        rintro w₂ c _ - ⟨rfl, hc⟩
        cases c with
        | normal => exact ih t' ht.pred w₂
        | returned v => exact Runs.pure hD ⟨rfl, hc⟩
      · exact Runs.pure hD ⟨rfl, by simp⟩

theorem executeNode (hD : D.Lawful) (h : D.LayersInStep below below') {t t' : Nat}
    (ht : D.slack.Allows t t') {n n' : Node} (hn : Node.Alike D.likeness (.statement b) n n') :
    D.Runs w b (below.executeNode t n) (below'.executeNode t' n') D.SameCompletion := by
  have normal : ∀ {b : Bool} w',
      D.Runs w' b (Pure.pure .normal) (Pure.pure .normal) D.SameCompletion :=
    fun w' => Runs.pure hD ⟨rfl, by simp⟩
  have bound : ∀ {w' v} (name : String) (e : TraceEvent), D.held w' v →
      D.Runs w' true (Run.define name v >>= fun _ => Run.record e >>= fun _ => Pure.pure .normal)
        (Run.define name v >>= fun _ => Run.record e >>= fun _ => Pure.pure .normal)
        D.SameCompletion := by
    intro w' v name e hv
    refine Runs.bind hD (hD.define hv) fun w₂ _ _ _ _ => ?_
    exact Runs.bind hD (hD.record e) fun w' _ _ _ _ => normal w'
  cases hn with
  | exprStmt he => exact Runs.bind hD (h.evaluate he) fun w' _ _ _ _ => normal w'
  | printStmt he =>
    apply Runs.bind hD (h.evaluate he)
    rintro w₁ v _ - ⟨rfl, -⟩
    exact Runs.bind hD (hD.printLine _) fun w' _ _ _ _ => normal w'
  | @block _ ns ns' hns =>
    intro m m' hm
    obtain ⟨w', hle, hin⟩ := hD.enterBlock hm
    exact Ends.inside hD hm hle hin (Runs.executeAll hD h hns w')
  | ifThen hc hs =>
    apply Runs.bind hD (h.evaluate hc)
    rintro w₁ v _ - ⟨rfl, -⟩
    split
    · exact h.execute hs
    · exact normal w₁
  | ifElse hc hs he =>
    apply Runs.bind hD (h.evaluate hc)
    rintro w₁ v _ - ⟨rfl, -⟩
    split
    · exact h.execute hs
    · exact h.execute he
  | whileStmt hc hs => exact loop hD (fun _ => h.evaluate hc) (fun _ => h.execute hs) t t' ht w
  | returnNil => exact Runs.pure hD ⟨rfl, fun v hv => hD.held_plain (by cases hv; simp)⟩
  | returnValue _ he =>
    apply Runs.bind hD (h.evaluate he)
    rintro w₁ v _ - ⟨rfl, hv⟩
    exact Runs.pure hD ⟨rfl, fun u hu => by cases hu; exact hv⟩
  | varNil hx =>
    have hnil : D.Runs w true (below.evaluateOption none) (below'.evaluateOption none) D.Same :=
      Runs.pure hD ⟨rfl, hD.held_plain (by simp)⟩
    rw [Layer.executeNode, Layer.executeNode, hD.lexeme hx]
    apply Runs.bind hD hnil
    rintro w₁ v _ - ⟨rfl, hv⟩
    exact bound _ _ hv
  | varValue hx he =>
    rw [Layer.executeNode, Layer.executeNode, hD.lexeme hx]
    apply Runs.bind hD (h.evaluate he)
    rintro w₁ v _ - ⟨rfl, hv⟩
    exact bound _ _ hv
  | funDecl hx hps hns =>
    rw [Layer.executeNode, Layer.executeNode, hD.lexeme hx]
    apply Runs.bind hD (hD.makeFunction hx hps hns)
    rintro w₁ v _ - ⟨rfl, hv⟩
    exact bound _ _ hv
  | misplaced hm hn =>
    have refused : ∀ (t : Nat) (below : Layer Run),
        below.executeNode t n = throw (.misplaced ⟨.execute, n.className⟩) := by
      intro t below
      cases n <;> first | rfl | cases hn
    rw [refused, refused]
    exact Runs.throw hD (hD.misplaced hm)

end Runs

/-! ## Layers -/

theorem layersInStep_floor (hD : D.Lawful) : D.LayersInStep Layer.floor Layer.floor :=
  ⟨fun _ => Runs.throw hD hD.overflow, fun _ => Runs.throw hD hD.overflow⟩

/-- With limits that compare as the slack allows, nodes that are alike run in step. -/
theorem layersInStep (hD : D.Lawful) {t t' : Nat} (ht : D.slack.Allows t t') :
    ∀ n n', D.slack.Allows n n' → D.LayersInStep (Layer.atop t n) (Layer.atop t' n') := by
  intro n
  induction n with
  | zero =>
    intro n' hn
    cases n' with
    | zero => exact layersInStep_floor hD
    | succ n' =>
      have hs := hn.left_of_zero
      exact ⟨fun _ => Runs.excusedLeft hs rfl, fun _ => Runs.excusedLeft hs rfl⟩
  | succ n ih =>
    intro n' hn
    cases n' with
    | zero =>
      have hs := hn.right_of_zero
      exact ⟨fun _ => Runs.excusedRight hs rfl, fun _ => Runs.excusedRight hs rfl⟩
    | succ n' =>
      have hbelow := ih n' hn.pred
      exact ⟨fun h => Runs.evaluateNode hD hbelow h, fun h => Runs.executeNode hD hbelow ht h⟩

end Correspondence

end LoxLang
