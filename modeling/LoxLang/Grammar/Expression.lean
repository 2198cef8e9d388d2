import LoxLang.Grammar.Cursor
/-!
# Expressions

From loosest to tightest: assignment, six levels of operators that fold to the left, operators in
front of a value, calls, and what needs no operator. What stands to the left of an equals sign is
read as an expression first and then has to turn out to be a name.
-/

namespace LoxLang.Rules

open Parse

/-- A level of operators that fold to the left. -/
structure Level where
  operators : List Kind
  build : Node → Token → Node → Node

/-- The levels, loosest first. -/
def levels : List Level :=
  [⟨[.keyword .orWord], .logical⟩,
   ⟨[.keyword .andWord], .logical⟩,
   ⟨[.bangEqual, .equalEqual], .binary⟩,
   ⟨[.greater, .greaterEqual, .less, .lessEqual], .binary⟩,
   ⟨[.minus, .plus], .binary⟩,
   ⟨[.slash, .star], .binary⟩]

/-- Adds operators of a level and their right operands to a left operand. -/
def chain (level : Level) (operand : Parse Node) : Nat → Node → Parse Node
  | 0, _ => throw .offEnd
  | rounds + 1, left => do
    match ← accept? level.operators with
    | some operator => chain level operand rounds (level.build left operator (← operand))
    | none => return left

/-- An operation of one of the given levels, with innermost operands of the given form. -/
def operation (rounds : Nat) (innermost : Parse Node) : List Level → Parse Node
  | [] => innermost
  | level :: tighter => do
    let first ← operation rounds innermost tighter
    chain level (operation rounds innermost tighter) rounds first

/-- The tokens that a primary expression starts with. -/
def primaryStarts : List Kind :=
  [.keyword .falseWord, .keyword .trueWord, .keyword .nilWord, .number, .string, .identifier,
   .leftParen]

/-- A primary expression whose first token has been taken. -/
def primaryFrom (below : Rules) (t : Token) : Parse Node :=
  match t.kind with
  | .keyword .falseWord => return .literal (.bool false)
  | .keyword .trueWord => return .literal (.bool true)
  | .keyword .nilWord => return .literal .nil
  | .identifier => return .ident t
  | .leftParen => do
    let inner ← below.expression
    let _ ← expect .rightParen "')' after expression"
    return .grouping inner
  | _ => return .literal t.literal

/-- A literal, a name, or an expression in parentheses. -/
def primary (below : Rules) : Parse Node := do
  match ← accept? primaryStarts with
  | none => reject (.expected "expression")
  | some t => primaryFrom below t

/-- The arguments of a call and its closing parenthesis; the opening one has been taken. -/
def callRest (below : Rules) (callee : Node) : Parse Node := do
  let arguments ←
    if ← nextIs .rightParen then pure []
    else separated "arguments" below.expression below.rounds 0
  let paren ← expect .rightParen "')' after arguments"
  return .call callee paren arguments

/-- Adds the calls that follow a callee. -/
def calls (below : Rules) : Nat → Node → Parse Node
  | 0, _ => throw .offEnd
  | rounds + 1, callee => do
    match ← accept? [.leftParen] with
    | some _ => calls below rounds (← callRest below callee)
    | none => return callee

/-- A primary expression and the calls that follow it. -/
def callChain (below : Rules) : Parse Node := do
  let callee ← primary below
  calls below below.rounds callee

/-- Operators in front of a value. -/
def unaryRule (below : Rules) : Parse Node := do
  match ← accept? [.bang, .minus] with
  | some operator => return .unary operator (← below.unary)
  | none => callChain below

/-- Assigns a value to what stands on the left, which can only be a name; a complaint about
anything else is about the equals sign. -/
def assignTo (left : Node) (taken : Nat) (equals : Token) (value : Node) : Parse Node :=
  match left with
  | .ident name => return .assign name value
  | _ => do
    complain (taken - 1) equals .invalidTarget
    return left

/-- An assignment, or an operation without one. -/
def expressionRule (below : Rules) : Parse Node := do
  let left ← operation below.rounds (unaryRule below) levels
  match ← accept? [.equal] with
  | none => return left
  | some equals => do
    let taken ← position
    assignTo left taken equals (← below.expression)

end LoxLang.Rules
