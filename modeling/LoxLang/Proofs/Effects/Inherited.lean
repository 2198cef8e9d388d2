import LoxLang.Proofs.InStep.Rules
import Mathlib.Data.Set.Basic
/-!
# What runs inherit from their parts

The run of a tree is put together from the single steps of a machine and from calls of natives. A
property that these have, and that is kept where runs are put together, is one of all runs, whatever
the tree.
-/

namespace LoxLang

/-- The names that a statement declares in the scope in which it is executed, and not in a block or
in the body of a function. -/
def Node.declared : Node → List String
  | varDecl name _ | funDecl name _ _ => [name.lexeme]
  | ifStmt _ thenBranch none => thenBranch.declared
  | ifStmt _ thenBranch (some elseBranch) => thenBranch.declared ++ elseBranch.declared
  | whileStmt _ body => body.declared
  | _ => []

/-- No failure of the program: an operation or a native was broken off. -/
def Fault.isBroken : Fault → Bool
  | .broken _ => true
  | _ => false

/-- A property of runs that may bind certain names in their scope, if the single steps of a machine
have it and runs that are put together have it from their parts. -/
structure Inherited (P : ∀ {α : Type}, Set String → Run α → Prop) : Prop where
  mono : ∀ {α names names'} {x : Run α}, names ⊆ names' → P names x → P names' x
  pure : ∀ {α names} (a : α), P names (pure a : Run α)
  throw : ∀ {α names} {e : Fault}, ¬ e.isBroken → P names (throw e : Run α)
  bind : ∀ {α β names} {x : Run α} {f : α → Run β}, P names x → (∀ a, P names (f a)) →
    P names (x >>= f)
  /-- What a run is may depend on the machine that it finds. -/
  pointwise : ∀ {α names} {x : Run α}, (∀ m, ∃ y, P names y ∧ x m = y m) → P names x
  lookup : ∀ {names} t, P names (Run.lookup t)
  assign : ∀ {names} t v, P names (Run.assign t v)
  define : ∀ x v, P {x} (Run.define x v)
  makeFunction : ∀ t ps ns, P {t.lexeme} (Run.makeFunction t ps ns)
  record : ∀ {names} e, P names (Run.record e)
  printLine : ∀ {names} text, P names (Run.printLine text)
  /-- Whatever is bound in a new scope. -/
  inside : ∀ {α names} {x : Run α} s, P Set.univ x → P names (Run.inside s x)
  catchOverflow : ∀ {α names} {x : Run α} t, P names x → P names (Run.catchOverflow t x)
  native : ∀ {names} below (n : Native) vs t, vs.length = n.arity →
    P names (Layer.call below (.native n) vs t)

/-! ## Operations -/

theorem unaryOperation_unbroken {t : Token} {v : Value} {e : OperationError}
    (h : unaryOperation t v = .error e) : ¬ (e.fault t).isBroken := by
  unfold unaryOperation at h
  split at h
  · cases h
  · split at h <;> cases h
    exact Bool.false_ne_true
  · cases h
    exact Bool.false_ne_true

/-- The machine is never told to divide by zero. -/
theorem arithmetic_unbroken {t : Token} {x y : Float} {e : OperationError}
    (h : arithmetic t x y = .error e) : ¬ (e.fault t).isBroken := by
  unfold arithmetic at h
  split at h <;> try cases h
  · split at h
    · cases h
    · next hy =>
      unfold quotient at h
      rw [if_neg hy] at h
      cases h
  · exact Bool.false_ne_true

theorem binaryOperation_unbroken {t : Token} {x y : Value} {e : OperationError}
    (h : binaryOperation t x y = .error e) : ¬ (e.fault t).isBroken := by
  unfold binaryOperation at h
  split at h
  · cases h
  · cases h
  · unfold addition at h
    split at h <;> cases h
    exact Bool.false_ne_true
  · split at h
    · exact arithmetic_unbroken h
    · cases h
      exact Bool.false_ne_true

namespace Inherited

variable {P : ∀ {α : Type}, Set String → Run α → Prop} (hP : Inherited P) {names : Set String}
  {below : Layer Run}

include hP

theorem evaluateAll (h : ∀ n, P names (below.evaluate n)) : ∀ ns, P names (below.evaluateAll ns)
  | [] => hP.pure []
  | n :: ns => hP.bind (h n) fun _ => hP.bind (evaluateAll h ns) fun _ => hP.pure _

theorem executeAll (h : ∀ n, P names (below.execute n)) : ∀ ns, P names (below.executeAll ns)
  | [] => hP.pure _
  | n :: ns => by
    refine hP.bind (h n) fun c => ?_
    cases c with
    | normal => exact executeAll h ns
    | returned v => exact hP.pure _

theorem settle {t : Token} {r : Except OperationError Value}
    (h : ∀ e, r = .error e → ¬ (e.fault t).isBroken) : P names (Layer.settle t r) := by
  cases r with
  | ok v => exact hP.pure v
  | error e => exact hP.throw (h e rfl)

/-! ## Calls -/

theorem callFunction (h : ∀ n, P Set.univ (below.execute n)) (f : Callable) (vs : List Value) :
    P names (below.callFunction f vs) := by
  refine hP.pointwise fun m => ?_
  rw [Layer.callFunction_eq]
  split
  · exact ⟨Pure.pure Value.nil, hP.pure _, rfl⟩
  · exact ⟨_, hP.bind (hP.inside _ (hP.executeAll h _)) fun _ => hP.pure _, rfl⟩

theorem call (h : ∀ n, P Set.univ (below.execute n)) (callee : Value) (vs : List Value)
    (t : Token) : P names (below.call callee vs t) := by
  have traced : ∀ {x : Run Value}, P names x → P names (Run.record (.call callee vs) >>= fun _ =>
      Run.catchOverflow t x >>= fun v => Run.record (.result v callee) >>= fun _ =>
        Pure.pure v) :=
    fun hx => hP.bind (hP.record _) fun _ => hP.bind (hP.catchOverflow t hx) fun _ =>
      hP.bind (hP.record _) fun _ => hP.pure _
  have refused : ∀ c, P names (Run.fail t c : Run Value) := fun _ => hP.throw Bool.false_ne_true
  cases callee with
  | native n =>
    by_cases hlen : vs.length = n.arity
    · exact hP.native below n vs t hlen
    · unfold Layer.call
      dsimp only [Layer.arity?]
      rw [if_pos hlen]
      exact refused _
  | function f =>
    unfold Layer.call
    dsimp only [Layer.arity?]
    split
    · exact refused _
    · exact traced (hP.callFunction h f vs)
  | _ => exact refused _

/-! ## Nodes -/

theorem evaluateNode (he : ∀ n, P names (below.evaluate n))
    (hs : ∀ n, P Set.univ (below.execute n)) (n : Node) : P names (below.evaluateNode n) := by
  cases n with
  | literal v => exact hP.pure v
  | grouping e => exact he e
  | ident t => exact hP.lookup t
  | assign t e => exact hP.bind (he e) fun v => hP.bind (hP.assign t v) fun _ => hP.pure v
  | logical a t b =>
    refine hP.bind (he a) fun v => ?_
    dsimp only
    generalize (if t.kind = .keyword .orWord then v.truthy else !v.truthy) = decided
    cases decided with
    | true => exact hP.pure v
    | false => exact he b
  | unary t e => exact hP.bind (he e) fun v => hP.settle fun _ => unaryOperation_unbroken
  | binary a t b =>
    exact hP.bind (he a) fun x => hP.bind (he b) fun y =>
      hP.settle fun _ => binaryOperation_unbroken
  | call f t as =>
    exact hP.bind (he f) fun c => hP.bind (hP.evaluateAll he as) fun vs => hP.call hs c vs t
  | _ => exact hP.throw Bool.false_ne_true

theorem evaluateOption (h : ∀ n, P names (below.evaluate n)) (o : Option Node) :
    P names (below.evaluateOption o) := by
  cases o with
  | none => exact hP.pure _
  | some n => exact h n

theorem loop {condition : Run Value} {body : Run Completion} (hc : P names condition)
    (hb : P names body) : ∀ turns, P names (Layer.loop condition body turns)
  | 0 => hP.throw Bool.false_ne_true
  | turns + 1 => by
    refine hP.bind hc fun v => ?_
    split
    · refine hP.bind hb fun c => ?_
      cases c with
      | normal => exact loop hc hb turns
      | returned v => exact hP.pure _
    · exact hP.pure _

/-- A statement may bind what it declares, and its parts what they declare. -/
theorem executeNode (turns : Nat) (he : ∀ names n, P names (below.evaluate n))
    (hs : ∀ n, P {x | x ∈ n.declared} (below.execute n)) (n : Node) :
    P {x | x ∈ n.declared} (below.executeNode turns n) := by
  have own : ∀ name : String, ({name} : Set String) ⊆ {x | x ∈ [name]} := by
    rintro name x rfl
    exact List.mem_singleton_self _
  have bound : ∀ (name : String) (v : Value) (e : TraceEvent), P {x | x ∈ [name]}
      (Run.define name v >>= fun _ => Run.record e >>= fun _ => Pure.pure Completion.normal) :=
    fun name v e => hP.bind (hP.mono (own name) (hP.define name v)) fun _ =>
      hP.bind (hP.record e) fun _ => hP.pure _
  cases n with
  | exprStmt e => exact hP.bind (he _ e) fun _ => hP.pure _
  | printStmt e => exact hP.bind (he _ e) fun _ => hP.bind (hP.printLine _) fun _ => hP.pure _
  | varDecl t o =>
    rw [Node.declared]
    exact hP.bind (hP.evaluateOption (he _) o) fun v => bound _ v _
  | block ns =>
    have hall : ∀ n, P Set.univ (below.execute n) := fun n => hP.mono (Set.subset_univ _) (hs n)
    exact hP.pointwise fun m => ⟨_, hP.inside ⟨some m.scope, []⟩ (hP.executeAll hall ns), rfl⟩
  | ifStmt c s o =>
    refine hP.bind (he _ c) fun v => ?_
    cases o with
    | none =>
      rw [Node.declared]
      split
      · exact hs s
      · exact hP.pure _
    | some s' =>
      rw [Node.declared]
      split
      · exact hP.mono (fun x hx => List.mem_append_left _ hx) (hs s)
      · exact hP.mono (fun x hx => List.mem_append_right _ hx) (hs s')
  | whileStmt c s =>
    rw [Node.declared]
    exact hP.loop (he _ c) (hs s) turns
  | funDecl t ps ns =>
    rw [Node.declared]
    exact hP.bind (hP.mono (own _) (hP.makeFunction t ps ns)) fun v => bound _ v _
  | returnStmt t o => exact hP.bind (hP.evaluateOption (he _) o) fun _ => hP.pure _
  | _ => exact hP.throw Bool.false_ne_true

/-- An expression binds nothing in the scope in which it is evaluated, and a statement only what it
declares; apart from that every tree inherits the property. -/
theorem atop (turns : Nat) : ∀ nesting,
    (∀ names n, P names ((Layer.atop turns nesting).evaluate n)) ∧
      ∀ n, P {x | x ∈ n.declared} ((Layer.atop turns nesting).execute n)
  | 0 => ⟨fun _ _ => hP.throw Bool.false_ne_true, fun _ => hP.throw Bool.false_ne_true⟩
  | nesting + 1 => by
    obtain ⟨he, hs⟩ := atop turns nesting
    have hall : ∀ n, P Set.univ ((Layer.atop turns nesting).execute n) :=
      fun n => hP.mono (Set.subset_univ _) (hs n)
    exact ⟨fun names => hP.evaluateNode (he names) hall, hP.executeNode turns he hs⟩

end Inherited

end LoxLang
