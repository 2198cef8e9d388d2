import LoxLang.Grammar.Expression
/-!
# Statements and declarations

A declaration that breaks the grammar is given up, and reading goes on where the next statement
seems to begin. A `for` loop is read as the `while` loop that it stands for.
-/

namespace LoxLang

/-- The parts of a `for` statement. All of its clauses may be left out. -/
structure ForClauses where
  start : Option Node
  condition : Option Node
  increment : Option Node
  body : Node

namespace ForClauses

/-- What is done in each turn: the increment follows the body. -/
def turn (c : ForClauses) : Node :=
  match c.increment with
  | some increment => .block [c.body, .exprStmt increment]
  | none => c.body

/-- The turns, for as long as the condition holds. It is true if there is none. -/
def loop (c : ForClauses) : Node := .whileStmt (c.condition.getD (.literal (.bool true))) c.turn

/-- What a `for` statement stands for: the initializer comes before the loop in a scope of its
own. -/
def desugared (c : ForClauses) : Node :=
  match c.start with
  | some start => .block [start, c.loop]
  | none => c.loop

end ForClauses

namespace Rules

open Parse

/-- An expression and its semicolon. -/
def endedBy (below : Rules) (what : String) : Parse Node := do
  let value ← expressionRule below
  let _ ← expect .semicolon what
  return value

/-- An expression statement. -/
def expressionStatement (below : Rules) : Parse Node :=
  return .exprStmt (← endedBy below "';' after expression")

/-- What follows `var`. A variable has to be given a value. -/
def variableRule (below : Rules) : Parse Node := do
  let name ← expect .identifier "variable name"
  let _ ← expect .equal "'=' after variable name"
  let value ← endedBy below "';' after variable declaration"
  return .varDecl name (some value)

/-- Declarations up to a closing brace or the end. -/
def declarations (below : Rules) : Nat → Parse (List Node)
  | 0 => throw .offEnd
  | rounds + 1 => do
    if (← nextIs .rightBrace) || (← atEnd) then return []
    let first ← below.declaration
    return first.toList ++ (← declarations below rounds)

/-- What follows an opening brace. -/
def blockRule (below : Rules) : Parse (List Node) := do
  let body ← declarations below below.rounds
  let _ ← expect .rightBrace "'\x7d' after block"
  return body

/-- What follows `fun`. -/
def functionRule (below : Rules) : Parse Node := do
  let name ← expect .identifier "function name"
  let _ ← expect .leftParen "'(' after function name"
  let params ←
    if ← nextIs .rightParen then pure []
    else separated "parameters" (expect .identifier "parameter name") below.rounds 0
  let _ ← expect .rightParen "')' after parameters"
  let _ ← expect .leftBrace "'\x7b' before function body"
  let body ← blockRule below
  return .funDecl name params body

/-- The first clause of a `for` statement, with its semicolon. -/
def forStart (below : Rules) : Parse (Option Node) := do
  match ← accept? [.semicolon, .keyword .varWord] with
  | none => return some (← expressionStatement below)
  | some t => if t.kind = .semicolon then return none else return some (← variableRule below)

/-- A clause that may be left out before the given token. -/
def optionalClause (below : Rules) (before : Kind) (what : String) : Parse (Option Node) := do
  let clause ← if ← nextIs before then pure none else some <$> expressionRule below
  let _ ← expect before what
  return clause

/-- The clauses and the body of a `for` statement. -/
def forClauses (below : Rules) : Parse ForClauses := do
  let _ ← expect .leftParen "'(' after 'for'"
  let start ← forStart below
  let condition ← optionalClause below .semicolon "';' after loop condition"
  let increment ← optionalClause below .rightParen "')' after for clauses"
  let body ← below.statement
  return ⟨start, condition, increment, body⟩

/-- What follows `for`. -/
def forRule (below : Rules) : Parse Node := ForClauses.desugared <$> forClauses below

/-- What follows `if`; an `else` belongs to the nearest `if`. -/
def ifRule (below : Rules) : Parse Node := do
  let _ ← expect .leftParen "'(' after 'if'"
  let condition ← expressionRule below
  let _ ← expect .rightParen "')' after if condition"
  let thenBranch ← below.statement
  match ← accept? [.keyword .elseWord] with
  | some _ => return .ifStmt condition thenBranch (some (← below.statement))
  | none => return .ifStmt condition thenBranch none

/-- What follows `while`. -/
def whileRule (below : Rules) : Parse Node := do
  let _ ← expect .leftParen "'(' after 'while'"
  let condition ← expressionRule below
  let _ ← expect .rightParen "')' after condition"
  return .whileStmt condition (← below.statement)

/-- What follows `return`. -/
def returnRule (below : Rules) (keyword : Token) : Parse Node :=
  return .returnStmt keyword (← optionalClause below .semicolon "';' after return value")

/-- The tokens that a statement starts with, unless it is an expression statement. -/
def statementStarts : List Kind :=
  [.keyword .forWord, .keyword .ifWord, .keyword .printWord, .keyword .returnWord,
   .keyword .whileWord, .leftBrace]

/-- A statement whose first token has been taken. -/
def statementFrom (below : Rules) (t : Token) : Parse Node :=
  match t.kind with
  | .keyword .forWord => forRule below
  | .keyword .ifWord => ifRule below
  | .keyword .printWord => return .printStmt (← endedBy below "';' after value")
  | .keyword .returnWord => returnRule below t
  | .keyword .whileWord => whileRule below
  | _ => return .block (← blockRule below)

/-- A statement. -/
def statementRule (below : Rules) : Parse Node := do
  match ← accept? statementStarts with
  | none => expressionStatement below
  | some t => statementFrom below t

/-- A declaration that keeps to the grammar. -/
def soundDeclaration (below : Rules) : Parse Node := do
  match ← accept? [.keyword .funWord, .keyword .varWord] with
  | none => statementRule below
  | some t => if t.kind = .keyword .funWord then functionRule below else variableRule below

/-- The tokens at which reading goes on after a syntax error. -/
def resumptions : List Kind :=
  [.keyword .classWord, .keyword .funWord, .keyword .varWord, .keyword .forWord, .keyword .ifWord,
   .keyword .whileWord, .keyword .printWord, .keyword .returnWord]

/-- Skips tokens until one after a semicolon or one that starts a statement. -/
def skip : Nat → Parse Unit
  | 0 => throw .offEnd
  | rounds + 1 => do
    if ← atEnd then return
    if (← latest).kind = .semicolon then return
    if resumptions.contains (← ahead).kind then return
    let _ ← take
    skip rounds

/-- Goes on after a syntax error: at least one token is skipped, unless the end is reached. -/
def resume (rounds : Nat) : Parse Unit := do
  let _ ← take
  skip rounds

/-- A declaration; one with a syntax error yields nothing. -/
def declarationRule (below : Rules) : Parse (Option Node) :=
  tryCatch (some <$> soundDeclaration below) fun
    | .syntaxError => do
      resume below.rounds
      return none
    | halt => throw halt

/-- The rules for constructs one layer above the given ones. -/
def above (below : Rules) : Rules :=
  ⟨below.rounds, expressionRule below, unaryRule below, statementRule below, declarationRule below⟩

/-- The rules that stand on `nesting` layers. -/
def atop (rounds : Nat) : Nat → Rules
  | 0 => floor rounds
  | nesting + 1 => above (atop rounds nesting)

end Rules

end LoxLang
