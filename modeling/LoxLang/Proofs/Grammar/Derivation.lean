import LoxLang.Node
/-!
# The grammar

Which tokens make up which phrase, and the trees that a phrase stands for. The rules are those of
the language alone: nothing here says how a text is read. A rule asks for the kinds of its tokens
only, so tokens that are skipped or looked at ahead of time do not occur.
-/

namespace LoxLang

/-- The levels of operators that fold to the left, loosest first. -/
inductive Precedence where
  | disjunction
  | conjunction
  | equality
  | comparison
  | sum
  | product
  deriving DecidableEq

/-- What a run of tokens can be. -/
inductive Phrase where
  | expression
  | level (p : Precedence)
  | unary
  | call
  | primary
  /-- One expression or more, with commas between them. -/
  | arguments
  /-- An expression that may be left out. -/
  | clause
  | expressionStatement
  | variable
  /-- The first clause of a `for` statement, with its semicolon. -/
  | start
  /-- A statement. One that is `dangling` ends in an `if` without `else`, so that an `else` after it
  would belong to that `if`. -/
  | statement (dangling : Bool)
  | declaration
  | declarations
  deriving DecidableEq

namespace Precedence

/-- The operators of a level. -/
def operators : Precedence → List Kind
  | disjunction => [.keyword .orWord]
  | conjunction => [.keyword .andWord]
  | equality => [.bangEqual, .equalEqual]
  | comparison => [.greater, .greaterEqual, .less, .lessEqual]
  | sum => [.minus, .plus]
  | product => [.slash, .star]

/-- What stands between the operators of a level. -/
def operand : Precedence → Phrase
  | disjunction => .level .conjunction
  | conjunction => .level .equality
  | equality => .level .comparison
  | comparison => .level .sum
  | sum => .level .product
  | product => .unary

/-- The tree of an operation. The right operand of the two loosest levels may not be evaluated. -/
def build : Precedence → Node → Token → Node → Node
  | disjunction | conjunction => .logical
  | _ => .binary

end Precedence

/-- Items with commas between them. -/
inductive Separated {α : Type} (item : List Token → α → Prop) : List Token → List α → Prop
  | last {ts a} : item ts a → Separated item ts [a]
  | next {ts a comma us as} : item ts a → comma.kind = .comma → Separated item us as →
      Separated item (ts ++ comma :: us) (a :: as)

/-- The parameters of a function: none, or names with commas between them. -/
def Parameters (ts params : List Token) : Prop :=
  (ts = [] ∧ params = []) ∨ Separated (fun us t => us = [t] ∧ t.kind = .identifier) ts params

/-- The `while` statement that a `for` statement stands for. The increment follows the body, a
condition that is left out is true, and what comes first is done in a block around the loop. -/
def whileForm (start condition increment : List Node) (body : Node) : Node :=
  let body := if increment = [] then body else .block (body :: increment.map .exprStmt)
  let loop := .whileStmt (condition.headD (.literal (.bool true))) body
  if start = [] then loop else .block (start ++ [loop])

/-- The tokens make up the phrase, and the phrase stands for the trees. A phrase that is not a list
and cannot be left out stands for one tree. -/
inductive Derives : Phrase → List Token → List Node → Prop
  | assignment {name equals ts n} : name.kind = .identifier → equals.kind = .equal →
      Derives .expression ts [n] → Derives .expression (name :: equals :: ts) [.assign name n]
  | operation {ts n} : Derives (.level .disjunction) ts [n] → Derives .expression ts [n]
  | operand {p ts n} : Derives p.operand ts [n] → Derives (.level p) ts [n]
  | fold {p ts a operator us b} : Derives (.level p) ts [a] → operator.kind ∈ p.operators →
      Derives p.operand us [b] → Derives (.level p) (ts ++ operator :: us) [p.build a operator b]
  | unary {operator ts n} : operator.kind = .bang ∨ operator.kind = .minus →
      Derives .unary ts [n] → Derives .unary (operator :: ts) [.unary operator n]
  | callee {ts n} : Derives .call ts [n] → Derives .unary ts [n]
  | primary {ts n} : Derives .primary ts [n] → Derives .call ts [n]
  | emptyCall {ts f l r} : Derives .call ts [f] → l.kind = .leftParen → r.kind = .rightParen →
      Derives .call (ts ++ [l, r]) [.call f r []]
  | call {ts f l us as r} : Derives .call ts [f] → l.kind = .leftParen → Derives .arguments us as →
      as.length ≤ 255 → r.kind = .rightParen → Derives .call (ts ++ l :: (us ++ [r])) [.call f r as]
  | lastArgument {ts n} : Derives .expression ts [n] → Derives .arguments ts [n]
  | nextArgument {ts n comma us ns} : Derives .expression ts [n] → comma.kind = .comma →
      Derives .arguments us ns → Derives .arguments (ts ++ comma :: us) (n :: ns)
  | falseWord {t} : t.kind = .keyword .falseWord → Derives .primary [t] [.literal (.bool false)]
  | trueWord {t} : t.kind = .keyword .trueWord → Derives .primary [t] [.literal (.bool true)]
  | nilWord {t} : t.kind = .keyword .nilWord → Derives .primary [t] [.literal .nil]
  | literal {t} : t.kind = .number ∨ t.kind = .string → Derives .primary [t] [.literal t.literal]
  | name {t} : t.kind = .identifier → Derives .primary [t] [.ident t]
  | grouping {l ts n r} : l.kind = .leftParen → Derives .expression ts [n] → r.kind = .rightParen →
      Derives .primary (l :: (ts ++ [r])) [.grouping n]
  | noClause : Derives .clause [] []
  | clause {ts n} : Derives .expression ts [n] → Derives .clause ts [n]
  | expressionStatement {ts n s} : Derives .expression ts [n] → s.kind = .semicolon →
      Derives .expressionStatement (ts ++ [s]) [.exprStmt n]
  | variable {v name equals ts n s} : v.kind = .keyword .varWord → name.kind = .identifier →
      equals.kind = .equal → Derives .expression ts [n] → s.kind = .semicolon →
      Derives .variable (v :: name :: equals :: (ts ++ [s])) [.varDecl name (some n)]
  | noStart {s} : s.kind = .semicolon → Derives .start [s] []
  | startVariable {ts n} : Derives .variable ts [n] → Derives .start ts [n]
  | startExpression {ts n} : Derives .expressionStatement ts [n] → Derives .start ts [n]
  | evaluation {ts n} : Derives .expressionStatement ts [n] → Derives (.statement false) ts [n]
  | printing {p ts n s} : p.kind = .keyword .printWord → Derives .expression ts [n] →
      s.kind = .semicolon → Derives (.statement false) (p :: (ts ++ [s])) [.printStmt n]
  | returning {r ts ns s} : r.kind = .keyword .returnWord → Derives .clause ts ns →
      s.kind = .semicolon → Derives (.statement false) (r :: (ts ++ [s])) [.returnStmt r ns.head?]
  | block {l ts ns r} : l.kind = .leftBrace → Derives .declarations ts ns → r.kind = .rightBrace →
      Derives (.statement false) (l :: (ts ++ [r])) [.block ns]
  | whileLoop {w l ts c r us d n} : w.kind = .keyword .whileWord → l.kind = .leftParen →
      Derives .expression ts [c] → r.kind = .rightParen → Derives (.statement d) us [n] →
      Derives (.statement d) (w :: l :: (ts ++ r :: us)) [.whileStmt c n]
  | forLoop {f l ts start us condition s vs increment r ws d n} : f.kind = .keyword .forWord →
      l.kind = .leftParen → Derives .start ts start → Derives .clause us condition →
      s.kind = .semicolon → Derives .clause vs increment → r.kind = .rightParen →
      Derives (.statement d) ws [n] →
      Derives (.statement d) (f :: l :: (ts ++ (us ++ s :: (vs ++ r :: ws))))
        [whileForm start condition increment n]
  | ifThen {i l ts c r us d n} : i.kind = .keyword .ifWord → l.kind = .leftParen →
      Derives .expression ts [c] → r.kind = .rightParen → Derives (.statement d) us [n] →
      Derives (.statement true) (i :: l :: (ts ++ r :: us)) [.ifStmt c n none]
  | ifElse {i l ts c r us n e vs d m} : i.kind = .keyword .ifWord → l.kind = .leftParen →
      Derives .expression ts [c] → r.kind = .rightParen → Derives (.statement false) us [n] →
      e.kind = .keyword .elseWord → Derives (.statement d) vs [m] →
      Derives (.statement d) (i :: l :: (ts ++ r :: (us ++ e :: vs))) [.ifStmt c n (some m)]
  | declareVariable {ts n} : Derives .variable ts [n] → Derives .declaration ts [n]
  | declareFunction {f name l ts params r b us body e} : f.kind = .keyword .funWord →
      name.kind = .identifier → l.kind = .leftParen → Parameters ts params →
      params.length ≤ 255 → r.kind = .rightParen → b.kind = .leftBrace →
      Derives .declarations us body → e.kind = .rightBrace →
      Derives .declaration (f :: name :: l :: (ts ++ r :: b :: (us ++ [e])))
        [.funDecl name params body]
  | statement {d ts n} : Derives (.statement d) ts [n] → Derives .declaration ts [n]
  | noDeclarations : Derives .declarations [] []
  | nextDeclaration {ts n us ns} : Derives .declaration ts [n] → Derives .declarations us ns →
      Derives .declarations (ts ++ us) (n :: ns)

namespace Derives

theorem of_separated {ts : List Token} {ns : List Node}
    (h : Separated (fun ts n => Derives .expression ts [n]) ts ns) : Derives .arguments ts ns := by
  induction h with
  | last h => exact .lastArgument h
  | next h hk _ ih => exact .nextArgument h hk ih

/-- Declarations are none, or one and more declarations. -/
@[elab_as_elim]
theorem declarations_induction {motive : List Token → List Node → Prop} (nil : motive [] [])
    (cons : ∀ ts n us ns, Derives .declaration ts [n] → Derives .declarations us ns →
      motive us ns → motive (ts ++ us) (n :: ns))
    {ts : List Token} {ns : List Node} (h : Derives .declarations ts ns) : motive ts ns := by
  generalize hph : Phrase.declarations = ph at h
  induction h with
  | noDeclarations => exact nil
  | nextDeclaration h h' _ ih => exact cons _ _ _ _ h h' (ih rfl)
  | _ => cases hph

end Derives

end LoxLang
