import LoxLang.Session
import LoxLang.Proofs.Calls.Brackets
/-!
# Runs of two kinds

Evaluation is written once for all kinds of runs. A relation between runs of two kinds that single
steps have to themselves, and that is kept where runs are put together, relates what the two kinds
make of a tree, whatever the tree and on however many layers.
-/

namespace LoxLang

open Operations

/-- The single steps of evaluation, but for those that show a call in the trace. -/
inductive Run.IsStep : ∀ {α : Type}, Run α → Prop
  | pure {α : Type} (a : α) : IsStep (pure a : Run α)
  | throw {α : Type} (e : Fault) : IsStep (throw e : Run α)
  | lookup (t : Token) : IsStep (Run.lookup t)
  | assign (t : Token) (v : Value) : IsStep (Run.assign t v)
  | define (x : String) (v : Value) : IsStep (Run.define x v)
  | makeFunction (t : Token) (ps : List Token) (ns : List Node) : IsStep (Run.makeFunction t ps ns)
  | record {e : TraceEvent} : e.aside → IsStep (Run.record e)
  | printLine (text : String) : IsStep (Run.printLine text)
  | readClock : IsStep Run.readClock

theorem Run.IsStep.settle (t : Token) (r : Except OperationError Value) :
    IsStep (Layer.settle t r) := by
  cases r with
  | ok v => exact .pure v
  | error e => exact .throw _

theorem Run.IsStep.settleCall (t : Token) (r : Except NativeError Value) :
    IsStep (Layer.settleCall t r) := by
  rcases r with (_ | _) | v
  · exact .throw _
  · exact .throw _
  · exact .pure v

/-- A new scope may lie in the current one, or in one that a function was made in. -/
def Machine.Encloses (m : Machine) (s : Scope) : Prop :=
  s.parent = some m.scope ∨ ∃ c ∈ m.store.closures, s.parent = some c.scope

/-- A relation between runs of two kinds, from a machine on, that evaluation keeps. -/
structure Parametric {M N : Type → Type} [Monad M] [Operations M] [Monad N] [Operations N]
    (R : ∀ {α : Type}, Machine → M α → N α → Prop) : Prop where
  pure : ∀ {α m} (a : α), R m (pure a) (pure a)
  bind : ∀ {α β m} {x : M α} {y : N α} {f : α → M β} {g : α → N β}, R m x y →
    (∀ a m, R m (f a) (g a)) → R m (x >>= f) (y >>= g)
  step : ∀ {α m} {x : Run α}, x.IsStep → R m (step x) (step x)
  reading : ∀ {α m} {f : Machine → M α} {g : Machine → N α}, R m (f m) (g m) →
    R m (reading f) (reading g)
  inside : ∀ {α m s} {x : M α} {y : N α}, m.Encloses s → (∀ m, R m x y) →
    R m (inside s x) (inside s y)
  /-- A call is shown in the trace while what it names runs. -/
  traced : ∀ {m} {x : M Value} {y : N Value} callee vs t, (∀ m, R m x y) →
    R m (Layer.traced callee vs t x) (Layer.traced callee vs t y)

/-- Two layers whose runs are related. -/
structure Parametric.Layers {M N : Type → Type} (R : ∀ {α : Type}, Machine → M α → N α → Prop)
    (below : Layer M) (below' : Layer N) : Prop where
  evaluate : ∀ n m, R m (below.evaluate n) (below'.evaluate n)
  execute : ∀ n m, R m (below.execute n) (below'.execute n)

namespace Parametric

variable {M N : Type → Type} [Monad M] [Operations M] [Monad N] [Operations N]
  {R : ∀ {α : Type}, Machine → M α → N α → Prop} (hR : Parametric (M := M) (N := N) R) {m : Machine}
  {below : Layer M} {below' : Layer N} (h : Layers R below below')

include hR

theorem fail (t : Token) (c : Cause) :
    R m (Operations.step (Run.fail t c : Run Value)) (Operations.step (Run.fail t c)) :=
  hR.step (.throw _)

theorem callNative (n : Native) (vs : List Value) (t : Token) :
    R m (Layer.callNative n vs t) (Layer.callNative n vs t) := by
  unfold Layer.callNative
  split
  · exact hR.bind (hR.step .readClock) fun _ _ => hR.step (.settleCall t _)
  · exact hR.bind (hR.pure 0) fun _ _ => hR.step (.settleCall t _)

theorem loop {condition : M Value} {condition' : N Value} {body : M Completion}
    {body' : N Completion} (hc : ∀ m, R m condition condition') (hb : ∀ m, R m body body') :
    ∀ turns m, R m (Layer.loop condition body turns) (Layer.loop condition' body' turns)
  | 0, m => hR.step (.throw _)
  | turns + 1, m => by
    refine hR.bind (hc m) fun v m => ?_
    split
    · refine hR.bind (hb m) fun c m => ?_
      cases c with
      | normal => exact loop hc hb turns m
      | returned v => exact hR.pure _
    · exact hR.pure _

/-- A name is bound, which is traced. -/
theorem bound (x : String) (v : Value) {e : TraceEvent} (he : e.aside) :
    R m (Operations.step (Run.define x v) >>= fun _ => Operations.step (Run.record e) >>= fun _ =>
        Pure.pure Completion.normal)
      (Operations.step (Run.define x v) >>= fun _ => Operations.step (Run.record e) >>= fun _ =>
        Pure.pure Completion.normal) :=
  hR.bind (hR.step (.define x v)) fun _ _ => hR.bind (hR.step (.record he)) fun _ _ => hR.pure _

include h

/-! ## Lists of nodes -/

theorem evaluateAll : ∀ ns m, R m (below.evaluateAll ns) (below'.evaluateAll ns)
  | [], _ => hR.pure []
  | n :: ns, m => hR.bind (h.evaluate n m) fun _ m => hR.bind (evaluateAll ns m) fun _ _ => hR.pure _

theorem executeAll : ∀ ns m, R m (below.executeAll ns) (below'.executeAll ns)
  | [], _ => hR.pure _
  | n :: ns, m => by
    refine hR.bind (h.execute n m) fun c m => ?_
    cases c with
    | normal => exact executeAll ns m
    | returned v => exact hR.pure _

/-! ## Calls -/

theorem callFunction (f : Callable) (vs : List Value) :
    R m (below.callFunction f vs) (below'.callFunction f vs) := by
  refine hR.reading ?_
  cases hc : m.store.closures[f.id]? with
  | none => exact hR.pure _
  | some c =>
    have hencloses : m.Encloses (Layer.callScope c vs) :=
      .inr ⟨c, Array.mem_of_getElem? hc, Layer.callScope_parent c vs⟩
    exact hR.bind (hR.inside hencloses (hR.executeAll h c.body)) fun _ _ => hR.pure _

theorem call (callee : Value) (vs : List Value) (t : Token) :
    R m (below.call callee vs t) (below'.call callee vs t) := by
  have entered : ∀ m, R m (below.enter callee vs t) (below'.enter callee vs t) := by
    intro m
    cases callee with
    | native n => exact hR.callNative n vs t
    | function f => exact hR.callFunction h f vs
    | _ => exact hR.fail t _
  unfold Layer.call
  split
  · exact hR.fail t _
  · split
    · exact hR.fail t _
    · exact hR.traced callee vs t entered

/-! ## Nodes -/

theorem evaluateNode (n : Node) : R m (below.evaluateNode n) (below'.evaluateNode n) := by
  cases n with
  | literal v => exact hR.pure v
  | grouping e => exact h.evaluate e m
  | ident t => exact hR.step (.lookup t)
  | assign t e =>
    exact hR.bind (h.evaluate e m) fun v _ => hR.bind (hR.step (.assign t v)) fun _ _ => hR.pure v
  | logical a t b =>
    refine hR.bind (h.evaluate a m) fun v m => ?_
    dsimp only
    generalize (if t.kind = .keyword .orWord then v.truthy else !v.truthy) = decided
    cases decided with
    | true => exact hR.pure v
    | false => exact h.evaluate b m
  | unary t e => exact hR.bind (h.evaluate e m) fun v _ => hR.step (.settle t _)
  | binary a t b =>
    exact hR.bind (h.evaluate a m) fun x m => hR.bind (h.evaluate b m) fun y _ =>
      hR.step (.settle t _)
  | call f t as =>
    exact hR.bind (h.evaluate f m) fun c m => hR.bind (hR.evaluateAll h as m) fun vs _ =>
      hR.call h c vs t
  | _ => exact hR.step (.throw _)

theorem evaluateOption (o : Option Node) : R m (below.evaluateOption o) (below'.evaluateOption o) := by
  cases o with
  | none => exact hR.pure _
  | some n => exact h.evaluate n m

theorem executeNode (turns : Nat) (n : Node) :
    R m (below.executeNode turns n) (below'.executeNode turns n) := by
  cases n with
  | exprStmt e => exact hR.bind (h.evaluate e m) fun _ _ => hR.pure _
  | printStmt e =>
    exact hR.bind (h.evaluate e m) fun v _ => hR.bind (hR.step (.printLine _)) fun _ _ => hR.pure _
  | varDecl t o => exact hR.bind (hR.evaluateOption h o) fun v _ => hR.bound _ v rfl
  | block ns => exact hR.reading (hR.inside (.inl rfl) (hR.executeAll h ns))
  | ifStmt c s o =>
    refine hR.bind (h.evaluate c m) fun v m => ?_
    split
    · exact h.execute s m
    · cases o with
      | none => exact hR.pure _
      | some s' => exact h.execute s' m
  | whileStmt c s => exact hR.loop (h.evaluate c) (h.execute s) turns m
  | funDecl t ps ns =>
    exact hR.bind (hR.step (.makeFunction t ps ns)) fun v _ => hR.bound _ v rfl
  | returnStmt t o => exact hR.bind (hR.evaluateOption h o) fun _ _ => hR.pure _
  | _ => exact hR.step (.throw _)

theorem topLevel (n : Node) : R m (Session.topLevel below n) (Session.topLevel below' n) :=
  hR.bind (hR.step (.record rfl)) fun _ m => h.execute n m

/-! ## Layers -/

theorem above (turns : Nat) : Layers R (Layer.above turns below) (Layer.above turns below') :=
  ⟨fun n _ => hR.evaluateNode h n, fun n _ => hR.executeNode h turns n⟩

omit h in
/-- On the same number of layers, the two kinds of runs of a tree are related. -/
theorem atop (turns : Nat) : ∀ nesting,
    Layers (M := M) (N := N) R (Layer.atop turns nesting) (Layer.atop turns nesting)
  | 0 => ⟨fun _ _ => hR.step (.throw _), fun _ _ => hR.step (.throw _)⟩
  | nesting + 1 => hR.above (atop turns nesting) turns

end Parametric

end LoxLang
