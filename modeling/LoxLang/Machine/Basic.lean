import LoxLang.Store
import LoxLang.Native
/-!
# The machine

A running program reads and changes a machine: the store, the current scope, what has been printed
and what has been traced. A run ends with a value or with a fault, and in both cases with the
machine as it was left.
-/

namespace LoxLang

/-- What a program did wrong. -/
inductive Cause where
  | undefined (name : String)
  | operandNotNumber
  | operandsNotNumbers
  | notAddable
  | unsupportedUnary (lexeme : String)
  | unsupportedBinary (lexeme : String)
  | notCallable
  | arity (expected got : Nat)
  | native (r : Rejection)
  | stackOverflow
  deriving DecidableEq

/-- The wording of an error of the program. -/
def Cause.message : Cause → String
  | undefined name => "Undefined variable '" ++ name ++ "'."
  | operandNotNumber => "Operand must be a number."
  | operandsNotNumbers => "Operands must be numbers."
  | notAddable => "Operands must be two numbers or two strings."
  | unsupportedUnary lexeme => "Unsupported unary operator '" ++ lexeme ++ "'."
  | unsupportedBinary lexeme => "Unsupported binary operator '" ++ lexeme ++ "'."
  | notCallable => "Can only call functions and classes."
  | arity expected got =>
    "Expected " ++ toString expected ++ " arguments but got " ++ toString got ++ "."
  | native r => r.message
  | stackOverflow => "Stack overflow."

/-- Why a run ended without a value. -/
inductive Fault where
  /-- An error of the program, at a token. -/
  | runtime (token : Token) (cause : Cause)
  /-- A node of the wrong sort. -/
  | misplaced (node : Misplaced)
  /-- A failure that is not the program's own. -/
  | broken (b : Breakdown)
  /-- Nesting deeper than the machine allows, outside any call. -/
  | overflow
  /-- A loop that went on for longer than the machine allows. -/
  | unfinished
  deriving DecidableEq

/-- The events that a trace may show. -/
inductive TraceEvent where
  | execute (className : String)
  | define (name : String) (value : Value)
  | defineFunction (name : String)
  | call (callee : Value) (arguments : List Value)
  | result (value callee : Value)
  deriving DecidableEq

namespace TraceEvent

/-- The least level of detail at which an event is traced. -/
def level : TraceEvent → Nat
  | execute _ => 1
  | define .. | defineFunction _ => 2
  | call .. | result .. => 3

/-- The line of an event. -/
def text : TraceEvent → String
  | execute className => "execute " ++ className
  | define name value => "define " ++ name ++ " = " ++ value.shown
  | defineFunction name => "define function " ++ name
  | call callee arguments =>
    "call " ++ callee.shown ++ " with (" ++ ", ".intercalate (arguments.map Value.shown) ++ ")"
  | result value callee => "return " ++ value.shown ++ " from " ++ callee.shown

end TraceEvent

/-- The state of a running program. -/
structure Machine where
  store : Store
  /-- The current scope. -/
  scope : Nat
  /-- All that was printed. -/
  output : String
  /-- The level of detail of the trace; at zero nothing is traced. -/
  traceLevel : Nat
  trace : Array TraceEvent
  /-- What the clock shows at each reading. -/
  clock : Nat → Float
  /-- How often the clock was read. -/
  readings : Nat

/-- A run: it ends with a value or a fault, and leaves the machine behind. -/
abbrev Run := EStateM Fault Machine

namespace Run

/-- An error of the program at a token. -/
def fail {α : Type} (token : Token) (cause : Cause) : Run α := throw (.runtime token cause)

/-- Traces an event if the level of detail asks for it. -/
def record (e : TraceEvent) : Run Unit :=
  modify fun m => if e.level ≤ m.traceLevel then { m with trace := m.trace.push e } else m

/-- Prints a line. -/
def printLine (text : String) : Run Unit :=
  modify fun m => { m with output := m.output ++ text ++ "\n" }

/-- Reads the clock. -/
def readClock : Run Float :=
  modifyGet fun m => (m.clock m.readings, { m with readings := m.readings + 1 })

/-- The value of a variable. -/
def lookup (name : Token) : Run Value := do
  let m ← get
  match m.store.resolve name.lexeme m.store.room m.scope with
  | .found _ value => return value
  | .unbound => fail name (.undefined name.lexeme)
  | .tooDeep => throw .overflow

/-- Gives a variable that is already bound a new value. -/
def assign (name : Token) (value : Value) : Run Unit := do
  let m ← get
  match m.store.resolve name.lexeme m.store.room m.scope with
  | .found scope _ => modify fun m => { m with store := m.store.define scope name.lexeme value }
  | .unbound => fail name (.undefined name.lexeme)
  | .tooDeep => throw .overflow

/-- Binds a name in the current scope. -/
def define (name : String) (value : Value) : Run Unit :=
  modify fun m => { m with store := m.store.define m.scope name value }

/-- Makes a scope. -/
def openScope (scope : Scope) : Run Nat :=
  modifyGet fun m =>
    let (id, store) := m.store.openScope scope
    (id, { m with store := store })

/-- Makes a function in the current scope. -/
def makeFunction (name : Token) (params : List Token) (body : List Node) : Run Value :=
  modifyGet fun m =>
    let (callable, store) := m.store.makeFunction ⟨name, params, body, m.scope⟩
    (.function callable, { m with store := store })

/-- Runs in another scope and comes back, however the run ends. -/
def within {α : Type} (scope : Nat) (body : Run α) : Run α := fun m =>
  let outer := m.scope
  match body { m with scope := scope } with
  | .ok a m => .ok a { m with scope := outer }
  | .error e m => .error e { m with scope := outer }

/-- Runs in a new scope. -/
def inside {α : Type} (scope : Scope) (body : Run α) : Run α := do
  let id ← openScope scope
  within id body

/-- Blames nesting that is too deep on a call. -/
def catchOverflow {α : Type} (paren : Token) (body : Run α) : Run α := fun m =>
  match body m with
  | .ok a m => .ok a m
  | .error .overflow m => .error (.runtime paren .stackOverflow) m
  | .error e m => .error e m

end Run

/-- What evaluation asks of runs of some kind, besides that one may follow another. Evaluation is
written once for all kinds: runs as they are, and runs that keep a record of what they do. -/
class Operations (M : Type → Type) where
  /-- A single step of the machine. -/
  step {α : Type} (x : Run α) : M α
  /-- What is done depends on the machine. -/
  reading {α : Type} (f : Machine → M α) : M α
  /-- Runs in a new scope and comes back, however the run ends. -/
  inside {α : Type} (scope : Scope) (body : M α) : M α
  /-- Runs what a call names, and blames nesting that is too deep on the call. -/
  calling {α : Type} (callee : Value) (arguments : List Value) (paren : Token) (body : M α) : M α

instance : Operations Run where
  step x := x
  reading f := get >>= f
  inside := Run.inside
  calling _ _ paren body := Run.catchOverflow paren body

end LoxLang
