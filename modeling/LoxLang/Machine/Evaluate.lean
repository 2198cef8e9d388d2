import LoxLang.Machine.Operators
/-!
# Evaluation

Expressions are evaluated to values and statements executed for their effect. Both are given one
layer of nesting at a time: a layer handles a node by means of the layer below it, and the lowest
layer gives up. A program that nests less deeply than there are layers cannot tell how many there
are. Evaluation does not say what kind of runs it puts together, only by which operations.
-/

namespace LoxLang

/-- How a statement ended. -/
inductive Completion where
  | normal
  | returned (value : Value)
  deriving DecidableEq

/-- What a call gives when its body ended in some way. -/
def Completion.value : Completion → Value
  | normal => .nil
  | returned value => value

/-- How deep a run may nest, and how often a loop may go round. -/
structure Limits where
  nesting : Nat
  turns : Nat

/-- The limits of an ordinary run. -/
def Limits.usual : Limits := ⟨nestingLimit, Nat.pow 2 60⟩

/-- A layer: what it makes of expressions and of statements. -/
structure Layer (M : Type → Type) where
  evaluate : Node → M Value
  execute : Node → M Completion

namespace Layer

open Operations

/-! ## What calls and operators come to -/

/-- The value of an operation, whose error is blamed on its operator. -/
def settle (operator : Token) : Except OperationError Value → Run Value
  | .ok value => return value
  | .error e => throw (e.fault operator)

/-- The value of a call of a native; what the native rejects is blamed on the call. -/
def settleCall (paren : Token) : Except NativeError Value → Run Value
  | .ok value => return value
  | .error (.rejected r) => Run.fail paren (.native r)
  | .error (.broken b) => throw (.broken b)

/-- The scope that a call runs in: its parameters, below the scope that the function was made in. -/
def callScope (c : Closure) (arguments : List Value) : Scope :=
  (c.params.zip arguments).foldl (fun s b => s.set b.1.lexeme b.2) ⟨some c.scope, []⟩

theorem callScope_parent (c : Closure) (arguments : List Value) :
    (callScope c arguments).parent = some c.scope := by
  have kept : ∀ (bs : List (Token × Value)) (s : Scope),
      (bs.foldl (fun s b => s.set b.1.lexeme b.2) s).parent = s.parent := by
    intro bs
    induction bs with
    | nil => exact fun _ => rfl
    | cons b bs ih => exact fun s => ih (s.set b.1.lexeme b.2)
  exact kept _ _

/-- How many arguments a value takes, if it can be called. -/
def arity? : Value → Option Nat
  | .native n => some n.arity
  | .function f => some f.arity
  | _ => none

variable {M : Type → Type} [Monad M] [Operations M]

/-- The layer that allows no nesting. -/
def floor : Layer M := ⟨fun _ => step (throw .overflow), fun _ => step (throw .overflow)⟩

/-! ## Lists of nodes -/

/-- The values of some expressions, from left to right. -/
def evaluateAll (below : Layer M) : List Node → M (List Value)
  | [] => return []
  | n :: ns => do
    let value ← below.evaluate n
    let values ← evaluateAll below ns
    return value :: values

/-- Executes statements until one returns. -/
def executeAll (below : Layer M) : List Node → M Completion
  | [] => return .normal
  | n :: ns => do
    match ← below.execute n with
    | .normal => executeAll below ns
    | .returned value => return .returned value

/-! ## Calls -/

/-- Calls a native. -/
def callNative (n : Native) (arguments : List Value) (paren : Token) : M Value := do
  let shown ← if n = .clock then step Run.readClock else pure 0
  step (settleCall paren (n.apply shown arguments))

/-- Calls a user function. -/
def callFunction (below : Layer M) (f : Callable) (arguments : List Value) : M Value :=
  reading fun m =>
    match m.store.closures[f.id]? with
    | none => return .nil
    | some c => do
      let completion ← inside (callScope c arguments) (below.executeAll c.body)
      return completion.value

/-- Runs what a call names; the arguments have been counted. -/
def enter (below : Layer M) (callee : Value) (arguments : List Value) (paren : Token) : M Value :=
  match callee with
  | .native n => callNative n arguments paren
  | .function f => below.callFunction f arguments
  | _ => step (Run.fail paren .notCallable)

/-- Shows a call and its result in the trace. -/
def traced (callee : Value) (arguments : List Value) (paren : Token) (body : M Value) :
    M Value := do
  step (Run.record (.call callee arguments))
  let value ← calling callee arguments paren body
  step (Run.record (.result value callee))
  return value

/-- Calls a value. -/
def call (below : Layer M) (callee : Value) (arguments : List Value) (paren : Token) : M Value :=
  match arity? callee with
  | none => step (Run.fail paren .notCallable)
  | some arity =>
    if arguments.length ≠ arity then step (Run.fail paren (.arity arity arguments.length))
    else traced callee arguments paren (below.enter callee arguments paren)

/-! ## Nodes -/

/-- Evaluates an expression whose parts the layer below evaluates. -/
def evaluateNode (below : Layer M) : Node → M Value
  | .literal value => return value
  | .grouping inner => below.evaluate inner
  | .ident name => step (Run.lookup name)
  | .assign name value => do
    let value ← below.evaluate value
    step (Run.assign name value)
    return value
  | .logical left operator right => do
    let value ← below.evaluate left
    let decided := if operator.kind = .keyword .orWord then value.truthy else !value.truthy
    if decided then return value else below.evaluate right
  | .unary operator right => do
    let value ← below.evaluate right
    step (settle operator (unaryOperation operator value))
  | .binary left operator right => do
    let x ← below.evaluate left
    let y ← below.evaluate right
    step (settle operator (binaryOperation operator x y))
  | .call callee paren arguments => do
    let callee ← below.evaluate callee
    let arguments ← below.evaluateAll arguments
    below.call callee arguments paren
  | other => step (throw (.misplaced ⟨.evaluate, other.className⟩))

/-- Goes round a loop for as long as its condition holds and its body does not return. -/
def loop (condition : M Value) (body : M Completion) : Nat → M Completion
  | 0 => step (throw .unfinished)
  | turns + 1 => do
    if (← condition).truthy then
      match ← body with
      | .normal => loop condition body turns
      | .returned value => return .returned value
    else return .normal

/-- The value of an optional expression. -/
def evaluateOption (below : Layer M) : Option Node → M Value
  | some n => below.evaluate n
  | none => return .nil

/-- Executes a statement whose parts the layer below handles. -/
def executeNode (turns : Nat) (below : Layer M) : Node → M Completion
  | .exprStmt value => do
    let _ ← below.evaluate value
    return .normal
  | .printStmt value => do
    let value ← below.evaluate value
    step (Run.printLine value.shown)
    return .normal
  | .varDecl name value => do
    let value ← below.evaluateOption value
    step (Run.define name.lexeme value)
    step (Run.record (.define name.lexeme value))
    return .normal
  | .block body => reading fun m => inside ⟨some m.scope, []⟩ (below.executeAll body)
  | .ifStmt condition thenBranch elseBranch => do
    if (← below.evaluate condition).truthy then below.execute thenBranch
    else
      match elseBranch with
      | some elseBranch => below.execute elseBranch
      | none => return .normal
  | .whileStmt condition body => loop (below.evaluate condition) (below.execute body) turns
  | .funDecl name params body => do
    let function ← step (Run.makeFunction name params body)
    step (Run.define name.lexeme function)
    step (Run.record (.defineFunction name.lexeme))
    return .normal
  | .returnStmt _ value => do
    let value ← below.evaluateOption value
    return .returned value
  | other => step (throw (.misplaced ⟨.execute, other.className⟩))

/-- The layer above a layer. -/
def above (turns : Nat) (below : Layer M) : Layer M := ⟨below.evaluateNode, below.executeNode turns⟩

/-- The layer that stands on `nesting` layers. -/
def atop (turns : Nat) : Nat → Layer M
  | 0 => floor
  | nesting + 1 => above turns (atop turns nesting)

end Layer

/-- The topmost layer of a run. -/
def Limits.layer (l : Limits) : Layer Run := Layer.atop l.turns l.nesting

end LoxLang
