import LoxLang.Machine.Evaluate
import LoxLang.Grammar.Program
import LoxLang.Node.NearestToken
import LoxLang.Form.Expression
import LoxLang.Text.Quoted
/-!
# Sessions

A session is a machine that is given one piece of work after another, with the diagnostics of all
of them. Whatever a piece of work does, the session goes on in the global scope.
-/

namespace LoxLang

/-- The wording of a failure that is not the program's own. -/
def Breakdown.text : Breakdown → String
  | infiniteIndex => "OverflowError('cannot convert float infinity to integer')"
  | nanIndex => "ValueError('cannot convert float NaN to integer')"
  | missingArgument => "IndexError('list index out of range')"
  | zeroDivisor => "ZeroDivisionError('float division by zero')"

/-- The wording of a node of the wrong sort as an internal error. -/
def Misplaced.text (m : Misplaced) : String := "NotImplementedError(" ++ quoted m.message ++ ")"

/-- The token of a program that has none. -/
def Token.nowhere : Token := ⟨.eof, "", .nil, 0⟩

/-- Reports the fault of a statement that was running at top level. -/
def Diagnostics.addFault (d : Diagnostics) (running : Node) : Fault → Diagnostics
  | .runtime token cause => d.addFailure token cause.message
  | .overflow =>
    d.addFailure (running.nearestToken?.getD .nowhere) Cause.stackOverflow.message
  | .misplaced m => d.addInternal m.text
  | .broken b => d.addInternal b.text
  | .unfinished => d.addInternal "the program does not end"

/-- A machine at work, with what it reported. -/
structure Session where
  limits : Limits
  machine : Machine
  diagnostics : Diagnostics
  /-- Whether the trace has lost its file. -/
  closed : Bool

/-- What a session is asked to do. -/
inductive Step where
  /-- Run a source text, unless something was wrong with its syntax or with that of one before. -/
  | run (source : String)
  /-- Run what can be made of a source text, syntax errors or not. -/
  | interpret (source : String)
  | interpretNodes (statements : List Node)
  /-- Evaluate the expression that a source text starts with. -/
  | evaluate (source : String)
  | evaluateNode (expression : Node)
  /-- Evaluate an expression in prefix form. -/
  | evaluateText (text : String)
  | executeNode (statement : Node)
  | reset
  | close

/-- Why a step gives no result. -/
inductive StepError where
  | fault (f : Fault)
  | noStatement
  | noExpression
  | unreadable (e : ReadError)
  deriving DecidableEq

/-- What a step answers. -/
inductive Answer where
  | done
  | value (v : Value)
  | completion (c : Completion)
  | failed (e : StepError)
  deriving DecidableEq

namespace Session

/-- The global scope. -/
def globals : Nat := 0

/-- A session that knows the natives only. -/
def new (limits : Limits) (traceLevel : Nat) (clock : Nat → Float) : Session where
  limits := limits
  machine :=
    { store := (Store.empty.openScope ⟨none, []⟩).2.defineNatives globals
      scope := globals
      output := ""
      traceLevel := traceLevel
      trace := #[]
      clock := clock
      readings := 0 }
  diagnostics := .none
  closed := false

/-- Whether the current scope is the global one. -/
def atGlobals (s : Session) : Bool := s.machine.scope == globals

/-- Forgets what was printed and traced so far. -/
def forgetOutput (s : Session) : Session :=
  { s with machine := { s.machine with output := "", trace := #[] } }

/-- The lines traced so far. -/
def traceText (s : Session) : String :=
  s.machine.trace.foldl (fun text e => text ++ e.text ++ "\n") ""

/-- Executes a statement at top level. -/
def topLevel {M : Type → Type} [Monad M] [Operations M] (layer : Layer M) (statement : Node) :
    M Completion := do
  Operations.step (Run.record (.execute statement.className))
  layer.execute statement

/-- Executes statements until one returns or fails, and reports the failure. -/
def interpretWith (layer : Layer Run) (machine : Machine) (d : Diagnostics) :
    List Node → Machine × Diagnostics
  | [] => (machine, d)
  | n :: ns =>
    match topLevel layer n machine with
    | .ok .normal machine => interpretWith layer machine d ns
    | .ok (.returned _) machine => (machine, d)
    | .error fault machine => (machine, d.addFault n fault)

/-- Executes statements. -/
def interpret (s : Session) (statements : List Node) : Session :=
  let (machine, diagnostics) :=
    interpretWith s.limits.layer s.machine s.diagnostics statements
  { s with machine := machine, diagnostics := diagnostics }

/-- Reads a source text and reports what is wrong with it. -/
def read (s : Session) (source : String) (nesting : Nat := nestingLimit) : Session × List Node :=
  let scan := Scan.ofText source
  let program := Program.ofScan scan nesting
  ({ s with
      diagnostics := (s.diagnostics.addScan scan.errors).addComplaints program.complaints },
    program.statements)

/-- Runs a source text, unless a syntax error has been reported. -/
def run (s : Session) (source : String) (nesting : Nat := nestingLimit) : Session :=
  let (s, statements) := s.read source nesting
  if s.diagnostics.syntaxErrors then s else s.interpret statements

/-- Does a run of its own and answers what comes out of it. -/
def answering {α : Type} (s : Session) (body : Run α) (answer : α → Answer) : Session × Answer :=
  match body s.machine with
  | .ok a machine => ({ s with machine := machine }, answer a)
  | .error fault machine => ({ s with machine := machine }, .failed (.fault fault))

/-- Evaluates an expression. -/
def evaluate (s : Session) (expression : Node) : Session × Answer :=
  s.answering (s.limits.layer.evaluate expression) .value

/-- Does one step. -/
def step (s : Session) : Step → Session × Answer
  | .run source => (s.run source, .done)
  | .interpret source =>
    let (s, statements) := s.read source
    (s.interpret statements, .done)
  | .interpretNodes statements => (s.interpret statements, .done)
  | .evaluate source =>
    let (s, statements) := s.read source
    match statements with
    | [] => (s, .failed .noStatement)
    | first :: _ =>
      match first.soleExpression? with
      | some expression => s.evaluate expression
      | none => (s, .failed .noExpression)
  | .evaluateNode expression => s.evaluate expression
  | .evaluateText text =>
    match Node.ofText text with
    | .ok expression => s.evaluate expression
    | .error e => (s, .failed (.unreadable e))
  | .executeNode statement => s.answering (s.limits.layer.execute statement) .completion
  | .reset => ({ s with diagnostics := .none }, .done)
  | .close => ({ s with closed := true }, .done)

/-- A session after some steps. -/
def after (s : Session) (steps : List Step) : Session := steps.foldl (fun s step => (s.step step).1) s

end Session

end LoxLang
