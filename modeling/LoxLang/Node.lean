import LoxLang.Token
/-!
# Syntax trees

Expressions and statements are nodes of one type, so a tree may also hold a node of the wrong sort
in any place. The grammar never builds such a tree, but one can be given, and what uses it must
refuse it.
-/

namespace LoxLang

/-- The sorts that a node may have without being anything in particular. -/
inductive BareSort where
  | node
  | expression
  | statement
  deriving DecidableEq

/-- The nodes of a syntax tree. -/
inductive Node where
  | literal (value : Value)
  | ident (name : Token)
  | assign (name : Token) (value : Node)
  | unary (operator : Token) (right : Node)
  | binary (left : Node) (operator : Token) (right : Node)
  | logical (left : Node) (operator : Token) (right : Node)
  | grouping (inner : Node)
  | call (callee : Node) (paren : Token) (arguments : List Node)
  | exprStmt (value : Node)
  | printStmt (value : Node)
  | varDecl (name : Token) (value : Option Node)
  | block (body : List Node)
  | ifStmt (condition thenBranch : Node) (elseBranch : Option Node)
  | whileStmt (condition body : Node)
  | funDecl (name : Token) (params : List Token) (body : List Node)
  | returnStmt (keyword : Token) (value : Option Node)
  | bare (sort : BareSort)

instance : Inhabited Node := ⟨.bare .node⟩

/-- How deeply a program, a tree that is written or read, a run or a chain of scopes may nest, unless
something else is said: each of them has a limit of its own, and this is what all are by default. -/
def nestingLimit : Nat := 500

namespace Node

/-- The name of a node's class, as traces and messages give it. -/
def className : Node → String
  | literal _ => "Literal"
  | ident _ => "Variable"
  | assign .. => "Assign"
  | unary .. => "Unary"
  | binary .. => "Binary"
  | logical .. => "Logical"
  | grouping _ => "Grouping"
  | call .. => "Call"
  | exprStmt _ => "ExprStmt"
  | printStmt _ => "PrintStmt"
  | varDecl .. => "VarDecl"
  | block _ => "Block"
  | ifStmt .. => "IfStmt"
  | whileStmt .. => "WhileStmt"
  | funDecl .. => "FuncDecl"
  | returnStmt .. => "ReturnStmt"
  | bare .node => "Node"
  | bare .expression => "Expr"
  | bare .statement => "Stmt"

/-- Whether a node is a statement. -/
def isStatement : Node → Bool
  | exprStmt _ | printStmt _ | varDecl .. | block _ | ifStmt .. | whileStmt .. | funDecl ..
  | returnStmt .. | bare .statement => true
  | _ => false

/-- The expression of an expression statement or a print statement. -/
def soleExpression? : Node → Option Node
  | exprStmt value | printStmt value => some value
  | _ => none

mutual

/-- How many nodes lie on the longest way down from a node, itself included. -/
def height : Node → Nat
  | literal _ | ident _ | bare _ | varDecl _ none | returnStmt _ none => 1
  | assign _ value | unary _ value | grouping value | exprStmt value | printStmt value
  | varDecl _ (some value) | returnStmt _ (some value) => value.height + 1
  | binary left _ right | logical left _ right | whileStmt left right
  | ifStmt left right none => max left.height right.height + 1
  | ifStmt condition thenBranch (some elseBranch) =>
    max condition.height (max thenBranch.height elseBranch.height) + 1
  | call callee _ arguments => max callee.height (heights arguments) + 1
  | block body | funDecl _ _ body => heights body + 1

/-- The greatest height among some nodes. -/
def heights : List Node → Nat
  | [] => 0
  | n :: ns => max n.height (heights ns)

end

end Node

/-- The uses of a node that not every class of node allows. -/
inductive Usage where
  | print
  | printStatement
  | evaluate
  | execute
  deriving DecidableEq

/-- A node that cannot be used as it was. -/
structure Misplaced where
  usage : Usage
  className : String
  deriving DecidableEq

namespace Misplaced

/-- The word for a use. -/
def usageText : Usage → String
  | .print => "print"
  | .printStatement => "print_stmt"
  | .evaluate => "evaluate"
  | .execute => "execute"

/-- The wording of the refusal. -/
def message (m : Misplaced) : String :=
  usageText m.usage ++ ": unexpected node type <class 'lox.ast." ++ m.className ++ "'>"

end Misplaced

end LoxLang
