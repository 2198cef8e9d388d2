import LoxLang.Form.Terminal
/-!
# Forms

A form is an atom, or a parenthesised head with at least one operand. Forms are read from terminals
one by one: what has been read so far is either nothing, a list of open forms, or one whole form,
and the first terminal that does not fit is the one to blame.
-/

namespace LoxLang

/-- A form: prefix notation before its heads are given a meaning. -/
inductive Form where
  | number (value : Decimal)
  | string (body : String)
  | name (text : String)
  | list (head : String) (operands : List Form)

/-- A form whose closing parenthesis is still to come; its operands, the last one first. -/
structure OpenForm where
  head : String
  operands : List Form

/-- What has been read so far. -/
inductive Reading where
  | start
  /-- An opening parenthesis, inside of the given open forms. -/
  | opened (outer : List OpenForm)
  /-- A form with its head, inside of the given open forms. -/
  | inside (current : OpenForm) (outer : List OpenForm)
  | whole (form : Form)

namespace Reading

/-- Takes in a form that is finished. -/
def finish (form : Form) : List OpenForm → Reading
  | [] => whole form
  | current :: outer => inside { current with operands := form :: current.operands } outer

/-- The form that a terminal is all by itself. -/
def atom? : Terminal → Option Form
  | .number _ value => some (.number value)
  | .string body => some (.string body)
  | .name text => some (.name text)
  | _ => none

/-- The head that a terminal can be. -/
def head? : Terminal → Option String
  | .operator text => some text
  | .name text => some text
  | _ => none

/-- Reads one more terminal, if it fits. -/
def step? : Reading → Terminal → Option Reading
  | start, .openParen => some (opened [])
  | start, t => (atom? t).map whole
  | opened outer, t => (head? t).map fun head => inside ⟨head, []⟩ outer
  | inside current outer, .openParen => some (opened (current :: outer))
  | inside current outer, .closeParen =>
    if current.operands.isEmpty then none
    else some (finish (.list current.head current.operands.reverse) outer)
  | inside current outer, t => (atom? t).map fun form => finish form (current :: outer)
  | whole _, _ => none

end Reading

/-- Why a text is not in prefix form. -/
inductive ReadError where
  | unexpectedTerminal (t : PlacedTerminal)
  /-- The end comes too early; it is placed at the start of the last terminal. -/
  | unexpectedEnd (place : Place)
  | unexpectedCharacter (place : Place)
  | malformed (head : String) (operands : Nat)
  | tooDeep
  deriving DecidableEq

namespace Form

/-- Reads terminals until one does not fit or they end. -/
def ofTerminals (r : Reading) (last : Place) :
    List PlacedTerminal → Ending → Except ReadError Form
  | [], .badCharacter place => .error (.unexpectedCharacter place)
  | [], .finished =>
    match r with
    | .whole form => .ok form
    | _ => .error (.unexpectedEnd last)
  | t :: ts, ending =>
    match r.step? t.terminal with
    | some r => ofTerminals r t.place ts ending
    | none => .error (.unexpectedTerminal t)

/-- Reads a text as one form. -/
def ofText (text : String) : Except ReadError Form :=
  let (ts, ending) := terminals .start text.toList
  ofTerminals .start .start ts ending

end Form

end LoxLang
