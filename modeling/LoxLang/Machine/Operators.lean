import LoxLang.Machine.Basic
/-!
# Operators

What the operators do with values that are already known. The operation is chosen by the kind of
the operator's token.
-/

namespace LoxLang

/-- Why an operation gives no value. -/
inductive OperationError where
  | wrong (c : Cause)
  | broken (b : Breakdown)
  deriving DecidableEq

/-- The fault of an operation at its operator. -/
def OperationError.fault (operator : Token) : OperationError → Fault
  | wrong c => .runtime operator c
  | broken b => .broken b

/-- What an operator in front of a value gives. -/
def unaryOperation (operator : Token) (right : Value) : Except OperationError Value :=
  match operator.kind with
  | .bang => .ok (.bool !right.truthy)
  | .minus =>
    match right with
    | .number x => .ok (.number (-x))
    | _ => .error (.wrong .operandNotNumber)
  | _ => .error (.wrong (.unsupportedUnary operator.lexeme))

/-- The sum of two numbers, or the joined texts of two values of which one is a string. -/
def addition (left right : Value) : Except OperationError Value :=
  match left, right with
  | .number x, .number y => .ok (.number (x + y))
  | .string _, _ | _, .string _ => .ok (.string (left.shown ++ right.shown))
  | _, _ => .error (.wrong .notAddable)

/-- A quotient. The machine cannot divide by zero. -/
def quotient (x y : Float) : Except OperationError Value :=
  if y == 0 then .error (.broken .zeroDivisor) else .ok (.number (x / y))

/-- What an operator on two numbers gives. Division by zero gives `nil`. -/
def arithmetic (operator : Token) (x y : Float) : Except OperationError Value :=
  match operator.kind with
  | .minus => .ok (.number (x - y))
  | .star => .ok (.number (x * y))
  | .slash => if y == 0 then .ok .nil else quotient x y
  | .greater => .ok (.bool (x > y))
  | .greaterEqual => .ok (.bool (x ≥ y))
  | .less => .ok (.bool (x < y))
  | .lessEqual => .ok (.bool (x ≤ y))
  | _ => .error (.wrong (.unsupportedBinary operator.lexeme))

/-- What an operator between two values gives. -/
def binaryOperation (operator : Token) (left right : Value) : Except OperationError Value :=
  match operator.kind with
  | .equalEqual => .ok (.bool (left.equals right))
  | .bangEqual => .ok (.bool !(left.equals right))
  | .plus => addition left right
  | _ =>
    match left, right with
    | .number x, .number y => arithmetic operator x y
    | _, _ => .error (.wrong .operandsNotNumbers)

end LoxLang
