import LoxLang.Grammar.Program
/-!
# Relations that the rules keep

Two parsers may be compared in several ways: one may go on where the other stops, run out of layers
where the other does not, or stand amid more tokens. If single steps are related to themselves and
parsers that are put together are related when their parts are, the rules above related rules are
related. How they go on after a syntax error is left open, since this is where such relations differ.
-/

namespace LoxLang

open Parse Rules

/-- What is done behind a left operand: if an equals sign is next, a value is assigned to it. -/
def Rules.assignment (value : Parse Node) (left : Node) : Parse Node := do
  match ← accept? [.equal] with
  | none => return left
  | some equals => do
    let taken ← position
    assignTo left taken equals (← value)

theorem Rules.expressionRule_eq (below : Rules) :
    expressionRule below =
      operation below.rounds (unaryRule below) levels >>= assignment below.expression := rfl

/-- A relation between parsers that the steps along the tokens have to themselves and that is kept
where one parser follows another. -/
structure Stepwise (R : ∀ {α : Type}, Parse α → Parse α → Prop) : Prop where
  pure : ∀ {α} (a : α), R (pure a : Parse α) (pure a)
  bind : ∀ {α β} {p q : Parse α} {f g : α → Parse β}, R p q → (∀ a, R (f a) (g a)) →
    R (p >>= f) (q >>= g)
  ahead : R ahead ahead
  latest : R latest latest
  step : R step step

/-- Such a relation that complaints have to themselves as well and that loops keep, which may differ
in their rounds as `Rounds` says. -/
structure Congruent (R : ∀ {α : Type}, Parse α → Parse α → Prop) (Rounds : Nat → Nat → Prop) : Prop
    extends Stepwise R where
  /-- No rule complains about nesting. -/
  complainAhead : ∀ {objection : Objection}, objection ≠ .tooDeep →
    R (complainAhead objection) (complainAhead objection)
  reject : ∀ {α} {objection : Objection}, objection ≠ .tooDeep →
    R (reject objection : Parse α) (reject objection)
  assigned : ∀ {p q : Parse Node} left, R p q → R (assignment p left) (assignment q left)
  offEnd : ∀ {α}, R (throw .offEnd : Parse α) (throw .offEnd)
  /-- A loop without a round left may go on in the other parser only if that is not compared. -/
  zero : ∀ {rounds}, Rounds 0 rounds → rounds = 0 ∨ ∀ {α} (q : Parse α), R (throw .offEnd) q
  succ : ∀ {rounds rounds'}, Rounds (rounds + 1) rounds' →
    ∃ left, rounds' = left + 1 ∧ Rounds rounds left

/-- Related rules. -/
structure Rules.Related (R : ∀ {α : Type}, Parse α → Parse α → Prop) (Rounds : Nat → Nat → Prop)
    (below below' : Rules) : Prop where
  rounds : Rounds below.rounds below'.rounds
  expression : R below.expression below'.expression
  unary : R below.unary below'.unary
  statement : R below.statement below'.statement
  declaration : R below.declaration below'.declaration

namespace Stepwise

variable {R : ∀ {α : Type}, Parse α → Parse α → Prop} (hR : Stepwise R)

include hR

theorem map {α β : Type} {p q : Parse α} (h : R p q) (g : α → β) : R (g <$> p) (g <$> q) :=
  hR.bind h fun a => hR.pure (g a)

theorem atEnd : R atEnd atEnd := hR.bind hR.ahead fun _ => hR.pure _

theorem take : R take take := by
  refine hR.bind hR.atEnd fun ended => ?_
  cases ended with
  | true => exact hR.latest
  | false => exact hR.bind hR.step fun _ => hR.latest

theorem nextIs (kind : Kind) : R (nextIs kind) (nextIs kind) := hR.bind hR.ahead fun _ => hR.pure _

theorem accept? (kinds : List Kind) : R (accept? kinds) (accept? kinds) := by
  refine hR.bind hR.ahead fun t => ?_
  split
  · exact hR.bind hR.take fun _ => hR.pure _
  · exact hR.pure _

/-- Whatever is done by whether there is a token of certain kinds. -/
theorem accept {β : Type} {kinds : List Kind} {f g : Option Token → Parse β}
    (some : ∀ t, R (f (some t)) (g (some t))) (none : R (f none) (g none)) :
    R (Parse.accept? kinds >>= f) (Parse.accept? kinds >>= g) := by
  refine hR.bind (hR.accept? kinds) fun o => ?_
  cases o with
  | none => exact none
  | some t => exact some t

/-- Assignments are related if complaints about their targets are, which name a place. -/
theorem assignment (hposition : R position position)
    (hcomplain : ∀ place t, R (complain place t .invalidTarget) (complain place t .invalidTarget))
    {p q : Parse Node} (left : Node) (h : R p q) :
    R (Rules.assignment p left) (Rules.assignment q left) := by
  refine hR.accept (fun equals => ?_) (hR.pure left)
  refine hR.bind hposition fun taken => hR.bind h fun value => ?_
  unfold assignTo
  split
  · exact hR.pure _
  · exact hR.bind (hcomplain _ _) fun _ => hR.pure _

end Stepwise

namespace Congruent

variable {R : ∀ {α : Type}, Parse α → Parse α → Prop} {Rounds : Nat → Nat → Prop}
  (hR : Congruent R Rounds)

include hR

/-- Loops that give up without a round left, and of which a round is related to a round. -/
theorem loop {ι α : Type} {f g : Nat → ι → Parse α} (hf : ∀ i, f 0 i = throw .offEnd)
    (hg : ∀ i, g 0 i = throw .offEnd)
    (round : ∀ r r', (∀ i, R (f r i) (g r' i)) → ∀ i, R (f (r + 1) i) (g (r' + 1) i))
    {rounds rounds' : Nat} (hr : Rounds rounds rounds') (i : ι) : R (f rounds i) (g rounds' i) := by
  induction rounds generalizing rounds' i with
  | zero =>
    rw [hf]
    rcases hR.zero hr with rfl | hall
    · rw [hg]
      exact hR.offEnd
    · exact hall _
  | succ rounds ih =>
    obtain ⟨left, rfl, hleft⟩ := hR.succ hr
    exact round _ _ (fun i => ih hleft i) i

theorem expect (kind : Kind) (what : String) : R (expect kind what) (expect kind what) :=
  hR.accept (fun t => hR.pure t) (hR.reject (by simp))

theorem separated {α : Type} {what : String} {p q : Parse α} (h : R p q) {rounds rounds' : Nat}
    (hr : Rounds rounds rounds') (count : Nat) :
    R (separated what p rounds count) (separated what q rounds' count) := by
  refine hR.loop (f := Parse.separated what p) (g := Parse.separated what q) (fun _ => rfl)
    (fun _ => rfl) (fun r r' ih count => ?_) hr count
  unfold Parse.separated
  split
  · refine hR.bind (hR.complainAhead (by simp)) fun _ => hR.bind h fun x => ?_
    exact hR.accept (fun _ => hR.bind (ih _) fun _ => hR.pure _) (hR.pure _)
  · refine hR.bind h fun x => ?_
    exact hR.accept (fun _ => hR.bind (ih _) fun _ => hR.pure _) (hR.pure _)

/-! ## Expressions -/

section

variable {below below' : Rules}

theorem chain (level : Level) {p q : Parse Node} (h : R p q) {rounds rounds' : Nat}
    (hr : Rounds rounds rounds') (left : Node) :
    R (chain level p rounds left) (chain level q rounds' left) :=
  hR.loop (f := Rules.chain level p) (g := Rules.chain level q) (fun _ => rfl) (fun _ => rfl)
    (fun _ _ ih _ => hR.accept (fun _ => hR.bind h fun _ => ih _) (hR.pure _)) hr left

theorem operation {p q : Parse Node} (h : R p q) {rounds rounds' : Nat}
    (hr : Rounds rounds rounds') : ∀ levels, R (operation rounds p levels) (operation rounds' q levels)
  | [] => h
  | level :: levels =>
    hR.bind (operation h hr levels) fun _ => hR.chain level (operation h hr levels) hr _

variable (h : Rules.Related R Rounds below below')

include h

theorem primary : R (primary below) (primary below') := by
  refine hR.accept (fun t => ?_) (hR.reject (by simp))
  change R (primaryFrom below t) (primaryFrom below' t)
  unfold primaryFrom
  split
  case h_5 => exact hR.bind h.expression fun _ => hR.bind (hR.expect _ _) fun _ => hR.pure _
  all_goals exact hR.pure _

theorem callRest (callee : Node) : R (callRest below callee) (callRest below' callee) := by
  refine hR.bind (hR.nextIs _) fun closed => ?_
  have rest : ∀ arguments, R
      (Parse.expect .rightParen "')' after arguments" >>= fun paren =>
        Pure.pure (Node.call callee paren arguments))
      (Parse.expect .rightParen "')' after arguments" >>= fun paren =>
        Pure.pure (Node.call callee paren arguments)) :=
    fun _ => hR.bind (hR.expect _ _) fun _ => hR.pure _
  cases closed with
  | true => exact hR.bind (hR.pure []) rest
  | false => exact hR.bind (hR.separated h.expression h.rounds 0) rest

theorem calls {rounds rounds' : Nat} (hr : Rounds rounds rounds') (callee : Node) :
    R (calls below rounds callee) (calls below' rounds' callee) :=
  hR.loop (f := Rules.calls below) (g := Rules.calls below') (fun _ => rfl) (fun _ => rfl)
    (fun _ _ ih callee => hR.accept (fun _ => hR.bind (hR.callRest h callee) fun _ => ih _)
      (hR.pure _)) hr callee

theorem unaryRule : R (unaryRule below) (unaryRule below') :=
  hR.accept (fun _ => hR.bind h.unary fun _ => hR.pure _)
    (hR.bind (hR.primary h) fun _ => hR.calls h h.rounds _)

theorem expressionRule : R (expressionRule below) (expressionRule below') := by
  rw [Rules.expressionRule_eq, Rules.expressionRule_eq]
  exact hR.bind (hR.operation (hR.unaryRule h) h.rounds levels) fun left =>
    hR.assigned left h.expression

/-! ## Statements -/

theorem endedBy (what : String) : R (endedBy below what) (endedBy below' what) :=
  hR.bind (hR.expressionRule h) fun _ => hR.bind (hR.expect _ _) fun _ => hR.pure _

theorem expressionStatement : R (expressionStatement below) (expressionStatement below') :=
  hR.bind (hR.endedBy h _) fun _ => hR.pure _

theorem variableRule : R (variableRule below) (variableRule below') :=
  hR.bind (hR.expect _ _) fun _ => hR.bind (hR.expect _ _) fun _ =>
    hR.bind (hR.endedBy h _) fun _ => hR.pure _

theorem declarations {rounds rounds' : Nat} (hr : Rounds rounds rounds') :
    R (Rules.declarations below rounds) (Rules.declarations below' rounds') := by
  refine hR.loop (f := fun r (_ : Unit) => Rules.declarations below r)
    (g := fun r _ => Rules.declarations below' r) (fun _ => rfl) (fun _ => rfl)
    (fun r r' ih _ => ?_) hr ()
  refine hR.bind (hR.nextIs _) fun closed => hR.bind hR.atEnd fun ended => ?_
  cases (closed || ended) with
  | true => exact hR.pure _
  | false => exact hR.bind h.declaration fun _ => hR.bind (ih ()) fun _ => hR.pure _

theorem blockRule : R (blockRule below) (blockRule below') :=
  hR.bind (hR.declarations h h.rounds) fun _ => hR.bind (hR.expect _ _) fun _ => hR.pure _

theorem functionRule : R (functionRule below) (functionRule below') := by
  refine hR.bind (hR.expect _ _) fun name => hR.bind (hR.expect _ _) fun _ =>
    hR.bind (hR.nextIs _) fun closed => ?_
  have rest : ∀ params, R
      (Parse.expect .rightParen "')' after parameters" >>= fun _ =>
        Parse.expect .leftBrace "'\x7b' before function body" >>= fun _ =>
          Rules.blockRule below >>= fun body => Pure.pure (Node.funDecl name params body))
      (Parse.expect .rightParen "')' after parameters" >>= fun _ =>
        Parse.expect .leftBrace "'\x7b' before function body" >>= fun _ =>
          Rules.blockRule below' >>= fun body => Pure.pure (Node.funDecl name params body)) :=
    fun _ => hR.bind (hR.expect _ _) fun _ => hR.bind (hR.expect _ _) fun _ =>
      hR.bind (hR.blockRule h) fun _ => hR.pure _
  cases closed with
  | true => exact hR.bind (hR.pure []) rest
  | false => exact hR.bind (hR.separated (hR.expect _ _) h.rounds 0) rest

theorem optionalClause (before : Kind) (what : String) :
    R (optionalClause below before what) (optionalClause below' before what) := by
  refine hR.bind (hR.nextIs _) fun absent => ?_
  have rest : ∀ clause : Option Node, R
      (Parse.expect before what >>= fun _ => Pure.pure clause)
      (Parse.expect before what >>= fun _ => Pure.pure clause) :=
    fun _ => hR.bind (hR.expect _ _) fun _ => hR.pure _
  cases absent with
  | true => exact hR.bind (hR.pure none) rest
  | false => exact hR.bind (hR.map (hR.expressionRule h) some) rest

theorem forStart : R (forStart below) (forStart below') := by
  refine hR.accept (fun t => ?_) (hR.bind (hR.expressionStatement h) fun _ => hR.pure _)
  dsimp only
  split
  · exact hR.pure _
  · exact hR.bind (hR.variableRule h) fun _ => hR.pure _

theorem forRule : R (forRule below) (forRule below') :=
  hR.map (hR.bind (hR.expect _ _) fun _ => hR.bind (hR.forStart h) fun _ =>
    hR.bind (hR.optionalClause h _ _) fun _ => hR.bind (hR.optionalClause h _ _) fun _ =>
      hR.bind h.statement fun _ => hR.pure _) _

theorem ifRule : R (ifRule below) (ifRule below') :=
  hR.bind (hR.expect _ _) fun _ => hR.bind (hR.expressionRule h) fun _ =>
    hR.bind (hR.expect _ _) fun _ => hR.bind h.statement fun _ =>
      hR.accept (fun _ => hR.bind h.statement fun _ => hR.pure _) (hR.pure _)

theorem whileRule : R (whileRule below) (whileRule below') :=
  hR.bind (hR.expect _ _) fun _ => hR.bind (hR.expressionRule h) fun _ =>
    hR.bind (hR.expect _ _) fun _ => hR.bind h.statement fun _ => hR.pure _

theorem statementRule : R (statementRule below) (statementRule below') := by
  refine hR.accept (fun t => ?_) (hR.expressionStatement h)
  change R (statementFrom below t) (statementFrom below' t)
  unfold statementFrom
  split
  · exact hR.forRule h
  · exact hR.ifRule h
  · exact hR.bind (hR.endedBy h _) fun _ => hR.pure _
  · exact hR.bind (hR.optionalClause h _ _) fun _ => hR.pure _
  · exact hR.whileRule h
  · exact hR.bind (hR.blockRule h) fun _ => hR.pure _

theorem soundDeclaration : R (soundDeclaration below) (soundDeclaration below') := by
  refine hR.accept (fun t => ?_) (hR.statementRule h)
  dsimp only
  split
  · exact hR.functionRule h
  · exact hR.variableRule h

end

/-! ## Going on after an error -/

theorem skip {rounds rounds' : Nat} (hr : Rounds rounds rounds') : R (skip rounds) (skip rounds') := by
  refine hR.loop (f := fun r (_ : Unit) => Rules.skip r) (g := fun r _ => Rules.skip r)
    (fun _ => rfl) (fun _ => rfl) (fun r r' ih _ => ?_) hr ()
  refine hR.bind hR.atEnd fun ended => ?_
  split
  · exact hR.pure ()
  refine hR.bind hR.latest fun t => ?_
  split
  · exact hR.pure ()
  refine hR.bind hR.ahead fun t => ?_
  split
  · exact hR.pure ()
  · exact hR.bind hR.take fun _ => ih ()

theorem resume {rounds rounds' : Nat} (hr : Rounds rounds rounds') :
    R (resume rounds) (resume rounds') :=
  hR.bind hR.take fun _ => hR.skip hr

/-- The rules above related rules are related, whatever a declaration does about errors, if both sides
do related things there. -/
theorem above {below below' : Rules} (h : Rules.Related R Rounds below below')
    {declaration declaration' : Parse (Option Node)} (hd : R declaration declaration') :
    Rules.Related R Rounds { Rules.above below with declaration := declaration }
      { Rules.above below' with declaration := declaration' } :=
  ⟨h.rounds, hR.expressionRule h, hR.unaryRule h, hR.statementRule h, hd⟩

end Congruent

end LoxLang
