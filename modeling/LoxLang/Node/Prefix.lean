import LoxLang.Node
/-!
# Prefix form

A tree is written with every operator in front of its operands and every compound in parentheses.
Expressions and statements are written by two functions, each of which refuses the nodes of the
other.
-/

namespace LoxLang.Node

/-- A parenthesised form. -/
def form (parts : List String) : String := "(" ++ " ".intercalate parts ++ ")"

mutual

/-- The prefix form of an expression. -/
def expressionText : Node → Except Misplaced String
  | literal value => .ok value.literalText
  | ident name => .ok name.lexeme
  | assign name value => do
    let value ← value.expressionText
    return form ["=", name.lexeme, value]
  | unary operator right => do
    let right ← right.expressionText
    return form [operator.lexeme, right]
  | binary left operator right | logical left operator right => do
    let left ← left.expressionText
    let right ← right.expressionText
    return form [operator.lexeme, left, right]
  | grouping inner => do
    let inner ← inner.expressionText
    return form ["group", inner]
  | call callee _ arguments => do
    let callee ← callee.expressionText
    let arguments ← expressionTexts arguments
    return form ("call" :: callee :: arguments)
  | other => .error ⟨.print, other.className⟩

/-- The prefix forms of some expressions, from left to right. -/
def expressionTexts : List Node → Except Misplaced (List String)
  | [] => .ok []
  | n :: ns => do
    let text ← n.expressionText
    let texts ← expressionTexts ns
    return text :: texts

end

mutual

/-- The prefix form of a statement. -/
def statementText : Node → Except Misplaced String
  | exprStmt value => value.expressionText
  | printStmt value => do
    let value ← value.expressionText
    return form ["print", value]
  | varDecl name none => .ok (form ["var", name.lexeme])
  | varDecl name (some value) => do
    let value ← value.expressionText
    return form ["var", name.lexeme, value]
  | block body => do
    let body ← statementTexts body
    return form ("block" :: body)
  | ifStmt condition thenBranch none => do
    let condition ← condition.expressionText
    let thenBranch ← thenBranch.statementText
    return form ["if", condition, thenBranch]
  | ifStmt condition thenBranch (some elseBranch) => do
    let condition ← condition.expressionText
    let thenBranch ← thenBranch.statementText
    let elseBranch ← elseBranch.statementText
    return form ["if", condition, thenBranch, elseBranch]
  | whileStmt condition body => do
    let condition ← condition.expressionText
    let body ← body.statementText
    return form ["while", condition, body]
  | funDecl name params body => do
    let params := "(" ++ " ".intercalate (params.map Token.lexeme) ++ ")"
    let body ← statementTexts body
    return form ("fun" :: name.lexeme :: params :: body)
  | returnStmt _ none => .ok (form ["return"])
  | returnStmt _ (some value) => do
    let value ← value.expressionText
    return form ["return", value]
  | other => .error ⟨.printStatement, other.className⟩

/-- The prefix forms of some statements, from first to last. -/
def statementTexts : List Node → Except Misplaced (List String)
  | [] => .ok []
  | n :: ns => do
    let text ← n.statementText
    let texts ← statementTexts ns
    return text :: texts

end

end LoxLang.Node

namespace LoxLang

/-- Why a tree has no prefix form. -/
inductive PrintError where
  | misplaced (node : Misplaced)
  | tooDeep
  deriving DecidableEq

/-- Writes a tree that is at most `limit` nodes high. -/
def printWithin (limit : Nat) (text : Node → Except Misplaced String) (n : Node) :
    Except PrintError String :=
  if limit < n.height then .error .tooDeep else (text n).mapError .misplaced

end LoxLang
