import LoxLang.Node
import LoxLang.Form.Tree
/-!
# From forms to expressions

The head of a form says what kind of expression it is, and each head asks for its own number of
operands. Forms are given their meaning from the inside out and from left to right. All tokens of
the resulting tree stand on line one.
-/

namespace LoxLang

/-- A token that was never in a source text. -/
def Token.plain (kind : Kind) (lexeme : String) : Token := ⟨kind, lexeme, .nil, 1⟩

namespace Form

/-- The heads with one operand. -/
def unaryHeads : List (String × Kind) := [("!", .bang), ("-", .minus)]

/-- The heads with two operands that are both evaluated. -/
def binaryHeads : List (String × Kind) :=
  [("+", .plus), ("-", .minus), ("*", .star), ("/", .slash), ("==", .equalEqual),
   ("!=", .bangEqual), ("<", .less), ("<=", .lessEqual), (">", .greater), (">=", .greaterEqual)]

/-- The heads with two operands of which the second may not be evaluated. -/
def logicalHeads : List (String × Kind) :=
  [("and", .keyword .andWord), ("or", .keyword .orWord)]

/-- An expression with one operand. -/
def unary? (head : String) (right : Node) : Option Node :=
  if head = "group" then some (.grouping right)
  else (unaryHeads.lookup head).map fun kind => .unary (.plain kind head) right

/-- An expression with two operands. Only a name can be assigned to. -/
def binary? (head : String) (left right : Node) : Option Node :=
  match logicalHeads.lookup head, binaryHeads.lookup head with
  | some kind, _ => some (.logical left (.plain kind head) right)
  | none, some kind => some (.binary left (.plain kind head) right)
  | none, none =>
    match left with
    | .ident target => if head = "=" then some (.assign target right) else none
    | _ => none

/-- The expression that a head makes of its operands. -/
def compose? (head : String) (operands : List Node) : Option Node :=
  match operands with
  | [] => none
  | callee :: arguments =>
    if head = "call" then some (.call callee (.plain .rightParen ")") arguments)
    else
      match arguments with
      | [] => unary? head callee
      | [right] => binary? head callee right
      | _ => none

/-- The expression of a name: a literal, or a variable. -/
def nameNode (text : String) : Node :=
  if text = "true" then .literal (.bool true)
  else if text = "false" then .literal (.bool false)
  else if text = "nil" then .literal .nil
  else .ident ⟨.identifier, text, .string text, 1⟩

mutual

/-- The expression of a form that nests at most `room` forms deep. -/
def toNode (room : Nat) : Form → Except ReadError Node
  | number value => .ok (.literal (.number value.toFloat))
  | string body => .ok (.literal (.string body))
  | name text => .ok (nameNode text)
  | list head operands =>
    match room with
    | 0 => .error .tooDeep
    | room + 1 => do
      let nodes ← toNodes room operands
      match compose? head nodes with
      | some n => return n
      | none => throw (.malformed head nodes.length)

/-- The expressions of some forms, from left to right. -/
def toNodes (room : Nat) : List Form → Except ReadError (List Node)
  | [] => .ok []
  | form :: forms => do
    let n ← form.toNode room
    let ns ← toNodes room forms
    return n :: ns

end

end Form

/-- Reads an expression in prefix form, whose forms nest at most `limit` deep. Errors in the text come
before errors in its forms. -/
def Node.ofText (text : String) (limit : Nat := nestingLimit) : Except ReadError Node := do
  let form ← Form.ofText text
  form.toNode limit

/-- The wording of a form with the wrong operands. -/
def ReadError.malformedText (head : String) (operands : Nat) : String :=
  "malformed form (" ++ head ++ " ...) with " ++ toString operands ++ " operand(s)"

end LoxLang
