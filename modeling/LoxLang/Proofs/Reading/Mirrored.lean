import LoxLang.Proofs.Reading.Text
/-!
# Reading tokens of the same kinds

A parser looks at nothing of a token but its kind. So two lists of tokens of the same kinds are read
in the same way: the trees have the same shape, with the one list's tokens where the other's are,
and the complaints are the same, each about the token in the same place.
-/

namespace LoxLang

open Parse Rules

/-- Which tokens may stand for which; they have to be of the same kind. -/
structure Mirror where
  token : Token → Token → Prop
  kind : ∀ {t t'}, token t t' → t.kind = t'.kind

variable {R : Mirror}

/-- Two trees of the same shape, with tokens that stand for one another. The value of a number or of
a string is that of its token. -/
inductive Node.Mirrors (R : Mirror) : Node → Node → Prop
  | word {v} : v = .nil ∨ (∃ b, v = .bool b) → Mirrors R (.literal v) (.literal v)
  | value {t t'} : R.token t t' → Mirrors R (.literal t.literal) (.literal t'.literal)
  | ident {t t'} : R.token t t' → Mirrors R (.ident t) (.ident t')
  | assign {t t' e e'} : R.token t t' → Mirrors R e e' → Mirrors R (.assign t e) (.assign t' e')
  | unary {t t' e e'} : R.token t t' → Mirrors R e e' → Mirrors R (.unary t e) (.unary t' e')
  | binary {a a' t t' b b'} : Mirrors R a a' → R.token t t' → Mirrors R b b' →
      Mirrors R (.binary a t b) (.binary a' t' b')
  | logical {a a' t t' b b'} : Mirrors R a a' → R.token t t' → Mirrors R b b' →
      Mirrors R (.logical a t b) (.logical a' t' b')
  | grouping {e e'} : Mirrors R e e' → Mirrors R (.grouping e) (.grouping e')
  | call {f f' t t' as as'} : Mirrors R f f' → R.token t t' → List.Forall₂ (Mirrors R) as as' →
      Mirrors R (.call f t as) (.call f' t' as')
  | exprStmt {e e'} : Mirrors R e e' → Mirrors R (.exprStmt e) (.exprStmt e')
  | printStmt {e e'} : Mirrors R e e' → Mirrors R (.printStmt e) (.printStmt e')
  | varDecl {t t' e e'} : R.token t t' → Mirrors R e e' →
      Mirrors R (.varDecl t (some e)) (.varDecl t' (some e'))
  | block {ns ns'} : List.Forall₂ (Mirrors R) ns ns' → Mirrors R (.block ns) (.block ns')
  | ifThen {c c' s s'} : Mirrors R c c' → Mirrors R s s' →
      Mirrors R (.ifStmt c s none) (.ifStmt c' s' none)
  | ifElse {c c' s s' e e'} : Mirrors R c c' → Mirrors R s s' → Mirrors R e e' →
      Mirrors R (.ifStmt c s (some e)) (.ifStmt c' s' (some e'))
  | whileStmt {c c' s s'} : Mirrors R c c' → Mirrors R s s' →
      Mirrors R (.whileStmt c s) (.whileStmt c' s')
  | funDecl {t t' ps ps' ns ns'} : R.token t t' → List.Forall₂ R.token ps ps' →
      List.Forall₂ (Mirrors R) ns ns' → Mirrors R (.funDecl t ps ns) (.funDecl t' ps' ns')
  | returnNil {t t'} : R.token t t' → Mirrors R (.returnStmt t none) (.returnStmt t' none)
  | returnValue {t t' e e'} : R.token t t' → Mirrors R e e' →
      Mirrors R (.returnStmt t (some e)) (.returnStmt t' (some e'))

/-- The same complaint about the tokens in the same place. -/
structure Complaint.Mirrors (R : Mirror) (x x' : Complaint) : Prop where
  position : x.position = x'.position
  token : R.token x.token x'.token
  objection : x.objection = x'.objection

/-- Two cursors in the same place. -/
structure Cursor.Mirrors (R : Mirror) (c c' : Cursor) : Prop where
  before : List.Forall₂ R.token c.before c'.before
  after : List.Forall₂ R.token c.after c'.after
  complaints : List.Forall₂ (Complaint.Mirrors R) c.complaints c'.complaints

/-- Two parsers end in the same way, and in the same place. -/
def MirroredEnds {α : Type} (R : Mirror) (Q : α → α → Prop) :
    EStateM.Result Halt Cursor α → EStateM.Result Halt Cursor α → Prop
  | .ok a c, .ok a' c' => Q a a' ∧ c.Mirrors R c'
  | .error halt c, .error halt' c' => halt = halt' ∧ c.Mirrors R c'
  | _, _ => False

/-- From the same place, two parsers end in the same way and in the same place. -/
def Mirrored {α : Type} (R : Mirror) (Q : α → α → Prop) (p p' : Parse α) : Prop :=
  ∀ c c', c.Mirrors R c' → MirroredEnds R Q (p c) (p' c')

namespace Mirrored

variable {α β : Type} {Q : α → α → Prop} {S : β → β → Prop} {p p' q q' : Parse α}
  {f f' : α → Parse β}

protected theorem pure {a a' : α} (h : Q a a') : Mirrored R Q (pure a) (pure a') :=
  fun _ _ hc => ⟨h, hc⟩

protected theorem throw (halt : Halt) : Mirrored R Q (throw halt) (throw halt) :=
  fun _ _ hc => ⟨rfl, hc⟩

protected theorem bind (h : Mirrored R Q p p')
    (hf : ∀ a a', Q a a' → Mirrored R S (f a) (f' a')) : Mirrored R S (p >>= f) (p' >>= f') := by
  intro c c' hc
  have hp := h c c' hc
  change MirroredEnds R S (EStateM.bind p f c) (EStateM.bind p' f' c')
  unfold EStateM.bind
  cases e : p c with
  | ok a c₁ =>
    cases e' : p' c' with
    | ok a' c₁' =>
      rw [e, e'] at hp
      exact hf a a' hp.1 c₁ c₁' hp.2
    | error =>
      rw [e, e'] at hp
      exact hp.elim
  | error halt c₁ =>
    cases e' : p' c' with
    | ok =>
      rw [e, e'] at hp
      exact hp.elim
    | error =>
      rw [e, e'] at hp
      exact hp

protected theorem map (h : Mirrored R Q p p') {g : α → β} (hg : ∀ a a', Q a a' → S (g a) (g a')) :
    Mirrored R S (g <$> p) (g <$> p') :=
  h.bind fun a a' ha => .pure (hg a a' ha)

/-- A choice that both make in the same way. -/
protected theorem ite {b b' : Prop} [Decidable b] [Decidable b'] (hb : b ↔ b')
    (h : Mirrored R Q p p') (h' : Mirrored R Q q q') :
    Mirrored R Q (if b then p else q) (if b' then p' else q') := by
  by_cases hb' : b'
  · rw [if_pos (hb.2 hb'), if_pos hb']
    exact h
  · rw [if_neg (mt hb.1 hb'), if_neg hb']
    exact h'

protected theorem tryCatch {handler handler' : Halt → Parse α} (h : Mirrored R Q p p')
    (handled : ∀ halt, Mirrored R Q (handler halt) (handler' halt)) :
    Mirrored R Q (tryCatch p handler) (tryCatch p' handler') := by
  intro c c' hc
  have hp := h c c' hc
  change MirroredEnds R Q (EStateM.tryCatch p handler c) (EStateM.tryCatch p' handler' c')
  unfold EStateM.tryCatch
  dsimp only [EStateM.Backtrackable.save, EStateM.Backtrackable.restore]
  cases e : p c with
  | ok =>
    cases e' : p' c' with
    | ok =>
      rw [e, e'] at hp
      exact hp
    | error =>
      rw [e, e'] at hp
      exact hp.elim
  | error halt c₁ =>
    cases e' : p' c' with
    | ok =>
      rw [e, e'] at hp
      exact hp.elim
    | error halt' c₁' =>
      rw [e, e'] at hp
      obtain ⟨rfl, hc₁⟩ := hp
      exact handled halt c₁ c₁' hc₁

/-! ## Single tokens -/

protected theorem ahead : Mirrored R R.token ahead ahead := by
  rintro ⟨before, after, complaints⟩ ⟨before', after', complaints'⟩ hc
  cases hc.after with
  | nil => exact ⟨rfl, hc⟩
  | cons ht => exact ⟨ht, hc⟩

protected theorem latest : Mirrored R R.token latest latest := by
  rintro ⟨before, after, complaints⟩ ⟨before', after', complaints'⟩ hc
  cases hc.before with
  | nil => exact ⟨rfl, hc⟩
  | cons ht => exact ⟨ht, hc⟩

protected theorem step : Mirrored R (· = ·) step step := by
  rintro ⟨before, after, complaints⟩ ⟨before', after', complaints'⟩ hc
  cases hc.after with
  | nil => exact ⟨rfl, hc⟩
  | cons ht h => exact ⟨rfl, .cons ht hc.before, h, hc.complaints⟩

protected theorem atEnd : Mirrored R (· = ·) atEnd atEnd :=
  Mirrored.ahead.bind fun t t' ht => .pure (by rw [R.kind ht])

protected theorem take : Mirrored R R.token take take :=
  Mirrored.atEnd.bind fun _ _ h => .ite (by rw [h]) .latest (Mirrored.step.bind fun _ _ _ => .latest)

protected theorem nextIs (kind : Kind) : Mirrored R (· = ·) (nextIs kind) (nextIs kind) :=
  Mirrored.ahead.bind fun t t' ht => .pure (by rw [R.kind ht])

protected theorem accept? (kinds : List Kind) :
    Mirrored R (Option.Rel R.token) (accept? kinds) (accept? kinds) :=
  Mirrored.ahead.bind fun t t' ht =>
    .ite (by rw [R.kind ht]) (Mirrored.take.bind fun _ _ h => .pure (.some h)) (.pure .none)

/-- Whatever is done by whether there is a token of certain kinds. -/
protected theorem accept {kinds : List Kind} {f f' : Option Token → Parse β}
    (some : ∀ t t', R.token t t' → Mirrored R S (f (some t)) (f' (some t')))
    (none : Mirrored R S (f none) (f' none)) :
    Mirrored R S (accept? kinds >>= f) (accept? kinds >>= f') := by
  refine (Mirrored.accept? kinds).bind fun o o' ho => ?_
  cases ho with
  | none => exact none
  | some ht => exact some _ _ ht

protected theorem position : Mirrored R (· = ·) position position :=
  fun _ _ hc => ⟨hc.before.length_eq, hc⟩

protected theorem complain (position : Nat) {t t' : Token} (ht : R.token t t')
    (objection : Objection) :
    Mirrored R (· = ·) (complain position t objection) (complain position t' objection) :=
  fun _ _ hc => ⟨rfl, hc.before, hc.after,
    List.rel_append hc.complaints (.cons ⟨rfl, ht, rfl⟩ .nil)⟩

protected theorem complainAhead (objection : Objection) :
    Mirrored R (· = ·) (complainAhead objection) (complainAhead objection) := by
  refine Mirrored.position.bind fun k k' hk => Mirrored.ahead.bind fun t t' ht => ?_
  rw [hk]
  exact .complain _ ht _

protected theorem reject (objection : Objection) :
    Mirrored R Q (reject objection) (reject objection) :=
  (Mirrored.complainAhead objection).bind fun _ _ _ => .throw _

protected theorem expect (kind : Kind) (what : String) :
    Mirrored R R.token (expect kind what) (expect kind what) :=
  .accept (fun _ _ ht => .pure ht) (.reject _)

protected theorem separated {what : String} (h : Mirrored R Q p p') :
    ∀ rounds count, Mirrored R (List.Forall₂ Q) (separated what p rounds count)
      (separated what p' rounds count)
  | 0, _ => .throw _
  | rounds + 1, count => by
    refine .ite Iff.rfl ((Mirrored.complainAhead _).bind fun _ _ _ => ?_) ?_
    all_goals
      refine h.bind fun x x' hx => .accept (fun _ _ _ => ?_) (.pure (.cons hx .nil))
      exact (Mirrored.separated h rounds (count + 1)).bind fun _ _ hxs => .pure (.cons hx hxs)

end Mirrored

/-- Rules that end in the same way on tokens of the same kinds. -/
structure Rules.Mirrors (R : Mirror) (below below' : Rules) : Prop where
  rounds : below.rounds = below'.rounds
  expression : Mirrored R (Node.Mirrors R) below.expression below'.expression
  unary : Mirrored R (Node.Mirrors R) below.unary below'.unary
  statement : Mirrored R (Node.Mirrors R) below.statement below'.statement
  declaration : Mirrored R (Option.Rel (Node.Mirrors R)) below.declaration below'.declaration

namespace Mirrored

variable {below below' : Rules} {p p' : Parse Node}

/-! ## Expressions -/

/-- A level puts its operands together in the same way. -/
def Builds (R : Mirror) (level : Level) : Prop :=
  ∀ {a a' t t' b b'}, Node.Mirrors R a a' → R.token t t' → Node.Mirrors R b b' →
    Node.Mirrors R (level.build a t b) (level.build a' t' b')

protected theorem chain {level : Level} (hl : Builds R level) (h : Mirrored R (Node.Mirrors R) p p') :
    ∀ rounds {left left'}, Node.Mirrors R left left' →
      Mirrored R (Node.Mirrors R) (chain level p rounds left) (chain level p' rounds left')
  | 0, _, _, _ => .throw _
  | rounds + 1, _, _, hleft =>
    .accept (fun _ _ ht => h.bind fun _ _ hright => Mirrored.chain hl h rounds (hl hleft ht hright))
      (.pure hleft)

protected theorem operation (rounds : Nat) (h : Mirrored R (Node.Mirrors R) p p') :
    ∀ levels, (∀ level ∈ levels, Builds R level) →
      Mirrored R (Node.Mirrors R) (operation rounds p levels) (operation rounds p' levels)
  | [], _ => h
  | level :: levels, hl => by
    have hoperand := Mirrored.operation rounds h levels fun l hm => hl l (by simp [hm])
    exact hoperand.bind fun _ _ hleft => .chain (hl level (by simp)) hoperand rounds hleft

theorem builds_levels : ∀ level ∈ levels, Builds R level := by
  intro level hl
  simp only [levels, List.mem_cons, List.not_mem_nil, or_false] at hl
  rcases hl with rfl | rfl | rfl | rfl | rfl | rfl
  · exact .logical
  · exact .logical
  all_goals exact .binary

protected theorem primary (h : Rules.Mirrors R below below') :
    Mirrored R (Node.Mirrors R) (primary below) (primary below') := by
  refine .accept (fun t t' ht => ?_) (.reject _)
  change Mirrored R (Node.Mirrors R) (primaryFrom below t) (primaryFrom below' t')
  unfold primaryFrom
  rw [R.kind ht]
  split
  case h_5 =>
    exact h.expression.bind fun _ _ he => (Mirrored.expect _ _).bind fun _ _ _ => .pure (.grouping he)
  case h_4 => exact .pure (.ident ht)
  case h_6 => exact .pure (.value ht)
  all_goals exact .pure (.word (by simp))

protected theorem callRest (h : Rules.Mirrors R below below') {callee callee' : Node}
    (hcallee : Node.Mirrors R callee callee') :
    Mirrored R (Node.Mirrors R) (callRest below callee) (callRest below' callee') := by
  have rest : ∀ as as', List.Forall₂ (Node.Mirrors R) as as' → Mirrored R (Node.Mirrors R)
      (expect .rightParen "')' after arguments" >>= fun paren => pure (Node.call callee paren as))
      (expect .rightParen "')' after arguments" >>= fun paren => pure (Node.call callee' paren as')) :=
    fun _ _ has => (Mirrored.expect _ _).bind fun _ _ ht => .pure (.call hcallee ht has)
  refine (Mirrored.nextIs _).bind fun b b' hb => .ite (by rw [hb]) ((Mirrored.pure .nil).bind rest) ?_
  rw [h.rounds]
  exact (Mirrored.separated h.expression below'.rounds 0).bind rest

protected theorem calls (h : Rules.Mirrors R below below') :
    ∀ rounds {callee callee'}, Node.Mirrors R callee callee' →
      Mirrored R (Node.Mirrors R) (calls below rounds callee) (calls below' rounds callee')
  | 0, _, _, _ => .throw _
  | rounds + 1, _, _, hcallee =>
    .accept (fun _ _ _ => (Mirrored.callRest h hcallee).bind fun _ _ => Mirrored.calls h rounds)
      (.pure hcallee)

protected theorem unaryRule (h : Rules.Mirrors R below below') :
    Mirrored R (Node.Mirrors R) (unaryRule below) (unaryRule below') := by
  refine .accept (fun _ _ ht => h.unary.bind fun _ _ he => .pure (.unary ht he)) ?_
  refine (Mirrored.primary h).bind fun _ _ hcallee => ?_
  rw [h.rounds]
  exact .calls h below'.rounds hcallee

protected theorem assignTo {left left' : Node} (hleft : Node.Mirrors R left left') (taken : Nat)
    {equals equals' : Token} (ht : R.token equals equals') {value value' : Node}
    (hvalue : Node.Mirrors R value value') :
    Mirrored R (Node.Mirrors R) (assignTo left taken equals value)
      (assignTo left' taken equals' value') := by
  have refused : Mirrored R (Node.Mirrors R)
      (complain (taken - 1) equals .invalidTarget >>= fun _ => pure left)
      (complain (taken - 1) equals' .invalidTarget >>= fun _ => pure left') :=
    (Mirrored.complain _ ht _).bind fun _ _ _ => .pure hleft
  cases hleft with
  | ident hname => exact .pure (.assign hname hvalue)
  | _ => exact refused

protected theorem expressionRule (h : Rules.Mirrors R below below') :
    Mirrored R (Node.Mirrors R) (expressionRule below) (expressionRule below') := by
  unfold expressionRule
  rw [h.rounds]
  refine (Mirrored.operation below'.rounds (.unaryRule h) levels builds_levels).bind
    fun left left' hleft => .accept (fun equals equals' ht => ?_) (.pure hleft)
  refine Mirrored.position.bind fun k k' hk => ?_
  rw [hk]
  exact h.expression.bind fun value value' hvalue => .assignTo hleft k' ht hvalue

/-! ## Statements -/

protected theorem endedBy (h : Rules.Mirrors R below below') (what : String) :
    Mirrored R (Node.Mirrors R) (endedBy below what) (endedBy below' what) :=
  (Mirrored.expressionRule h).bind fun _ _ he => (Mirrored.expect _ _).bind fun _ _ _ => .pure he

protected theorem expressionStatement (h : Rules.Mirrors R below below') :
    Mirrored R (Node.Mirrors R) (expressionStatement below) (expressionStatement below') :=
  (Mirrored.endedBy h _).bind fun _ _ he => .pure (.exprStmt he)

protected theorem variableRule (h : Rules.Mirrors R below below') :
    Mirrored R (Node.Mirrors R) (variableRule below) (variableRule below') :=
  (Mirrored.expect _ _).bind fun _ _ ht => (Mirrored.expect _ _).bind fun _ _ _ =>
    (Mirrored.endedBy h _).bind fun _ _ he => .pure (.varDecl ht he)

/-- What is left of optional trees. -/
theorem forall₂_toList {o o' : Option Node} (h : Option.Rel (Node.Mirrors R) o o') :
    List.Forall₂ (Node.Mirrors R) o.toList o'.toList := by
  cases h with
  | none => exact .nil
  | some hn => exact .cons hn .nil

protected theorem declarations (h : Rules.Mirrors R below below') :
    ∀ rounds, Mirrored R (List.Forall₂ (Node.Mirrors R)) (Rules.declarations below rounds)
      (Rules.declarations below' rounds)
  | 0 => .throw _
  | rounds + 1 =>
    (Mirrored.nextIs _).bind fun b b' hb => Mirrored.atEnd.bind fun e e' he =>
      .ite (by rw [hb, he]) (.pure .nil) (h.declaration.bind fun _ _ ho =>
        (Mirrored.declarations h rounds).bind fun _ _ hns =>
          .pure (List.rel_append (forall₂_toList ho) hns))

protected theorem blockRule (h : Rules.Mirrors R below below') :
    Mirrored R (List.Forall₂ (Node.Mirrors R)) (blockRule below) (blockRule below') := by
  unfold blockRule
  rw [h.rounds]
  exact (Mirrored.declarations h below'.rounds).bind fun _ _ hns =>
    (Mirrored.expect _ _).bind fun _ _ _ => .pure hns

protected theorem functionRule (h : Rules.Mirrors R below below') :
    Mirrored R (Node.Mirrors R) (functionRule below) (functionRule below') := by
  refine (Mirrored.expect _ _).bind fun name name' hname => (Mirrored.expect _ _).bind fun _ _ _ => ?_
  have rest : ∀ ps ps', List.Forall₂ R.token ps ps' → Mirrored R (Node.Mirrors R)
      (expect .rightParen "')' after parameters" >>= fun _ =>
        expect .leftBrace "'\x7b' before function body" >>= fun _ =>
          blockRule below >>= fun body => pure (Node.funDecl name ps body))
      (expect .rightParen "')' after parameters" >>= fun _ =>
        expect .leftBrace "'\x7b' before function body" >>= fun _ =>
          blockRule below' >>= fun body => pure (Node.funDecl name' ps' body)) :=
    fun _ _ hps => (Mirrored.expect _ _).bind fun _ _ _ => (Mirrored.expect _ _).bind fun _ _ _ =>
      (Mirrored.blockRule h).bind fun _ _ hns => .pure (.funDecl hname hps hns)
  refine (Mirrored.nextIs _).bind fun b b' hb => .ite (by rw [hb]) ((Mirrored.pure .nil).bind rest) ?_
  rw [h.rounds]
  exact (Mirrored.separated (.expect _ _) below'.rounds 0).bind rest

protected theorem optionalClause (h : Rules.Mirrors R below below') (before : Kind) (what : String) :
    Mirrored R (Option.Rel (Node.Mirrors R)) (optionalClause below before what)
      (optionalClause below' before what) := by
  have rest : ∀ o o' : Option Node, Option.Rel (Node.Mirrors R) o o' →
      Mirrored R (Option.Rel (Node.Mirrors R)) (expect before what >>= fun _ => pure o)
        (expect before what >>= fun _ => pure o') :=
    fun _ _ ho => (Mirrored.expect _ _).bind fun _ _ _ => .pure ho
  refine (Mirrored.nextIs _).bind fun b b' hb => .ite (by rw [hb]) ((Mirrored.pure .none).bind rest) ?_
  exact ((Mirrored.expressionRule h).map fun _ _ => .some).bind rest

protected theorem forStart (h : Rules.Mirrors R below below') :
    Mirrored R (Option.Rel (Node.Mirrors R)) (forStart below) (forStart below') :=
  .accept (fun t t' ht => .ite (by rw [R.kind ht]) (.pure .none)
      ((Mirrored.variableRule h).bind fun _ _ he => .pure (.some he)))
    ((Mirrored.expressionStatement h).bind fun _ _ he => .pure (.some he))

theorem desugared {start start' condition condition' increment increment' : Option Node}
    {body body' : Node} (hs : Option.Rel (Node.Mirrors R) start start')
    (hc : Option.Rel (Node.Mirrors R) condition condition')
    (hi : Option.Rel (Node.Mirrors R) increment increment') (hb : Node.Mirrors R body body') :
    Node.Mirrors R (ForClauses.desugared ⟨start, condition, increment, body⟩)
      (ForClauses.desugared ⟨start', condition', increment', body'⟩) := by
  have hturn : Node.Mirrors R (ForClauses.turn ⟨start, condition, increment, body⟩)
      (ForClauses.turn ⟨start', condition', increment', body'⟩) := by
    cases hi with
    | none => exact hb
    | some hi => exact .block (.cons hb (.cons (.exprStmt hi) .nil))
  have hloop : Node.Mirrors R (ForClauses.loop ⟨start, condition, increment, body⟩)
      (ForClauses.loop ⟨start', condition', increment', body'⟩) := by
    cases hc with
    | none => exact .whileStmt (.word (by simp)) hturn
    | some hc => exact .whileStmt hc hturn
  cases hs with
  | none => exact hloop
  | some hs => exact .block (.cons hs (.cons hloop .nil))

protected theorem forRule (h : Rules.Mirrors R below below') :
    Mirrored R (Node.Mirrors R) (forRule below) (forRule below') := by
  refine Mirrored.map (Q := fun x x' => Node.Mirrors R x.desugared x'.desugared) ?_ fun _ _ hx => hx
  exact (Mirrored.expect _ _).bind fun _ _ _ => (Mirrored.forStart h).bind fun _ _ hs =>
    (Mirrored.optionalClause h _ _).bind fun _ _ hc =>
      (Mirrored.optionalClause h _ _).bind fun _ _ hi => h.statement.bind fun _ _ hb =>
        .pure (desugared hs hc hi hb)

protected theorem ifRule (h : Rules.Mirrors R below below') :
    Mirrored R (Node.Mirrors R) (ifRule below) (ifRule below') :=
  (Mirrored.expect _ _).bind fun _ _ _ => (Mirrored.expressionRule h).bind fun _ _ hc =>
    (Mirrored.expect _ _).bind fun _ _ _ => h.statement.bind fun _ _ hs =>
      .accept (fun _ _ _ => h.statement.bind fun _ _ he => .pure (.ifElse hc hs he))
        (.pure (.ifThen hc hs))

protected theorem whileRule (h : Rules.Mirrors R below below') :
    Mirrored R (Node.Mirrors R) (whileRule below) (whileRule below') :=
  (Mirrored.expect _ _).bind fun _ _ _ => (Mirrored.expressionRule h).bind fun _ _ hc =>
    (Mirrored.expect _ _).bind fun _ _ _ => h.statement.bind fun _ _ hs => .pure (.whileStmt hc hs)

protected theorem returnRule (h : Rules.Mirrors R below below') {t t' : Token}
    (ht : R.token t t') : Mirrored R (Node.Mirrors R) (returnRule below t) (returnRule below' t') := by
  refine (Mirrored.optionalClause h _ _).bind fun o o' ho => ?_
  cases ho with
  | none => exact .pure (.returnNil ht)
  | some he => exact .pure (.returnValue ht he)

protected theorem statementRule (h : Rules.Mirrors R below below') :
    Mirrored R (Node.Mirrors R) (statementRule below) (statementRule below') := by
  refine .accept (fun t t' ht => ?_) (.expressionStatement h)
  change Mirrored R (Node.Mirrors R) (statementFrom below t) (statementFrom below' t')
  unfold statementFrom
  rw [R.kind ht]
  split
  · exact .forRule h
  · exact .ifRule h
  · exact (Mirrored.endedBy h _).bind fun _ _ he => .pure (.printStmt he)
  · exact .returnRule h ht
  · exact .whileRule h
  · exact (Mirrored.blockRule h).bind fun _ _ hns => .pure (.block hns)

protected theorem soundDeclaration (h : Rules.Mirrors R below below') :
    Mirrored R (Node.Mirrors R) (soundDeclaration below) (soundDeclaration below') :=
  .accept (fun _ _ ht => .ite (by rw [R.kind ht]) (.functionRule h) (.variableRule h))
    (.statementRule h)

/-! ## Going on after an error -/

protected theorem skip : ∀ rounds, Mirrored R (· = ·) (skip rounds) (skip rounds)
  | 0 => .throw _
  | rounds + 1 =>
    Mirrored.atEnd.bind fun _ _ he => .ite (by rw [he]) (.pure rfl) <|
      Mirrored.latest.bind fun _ _ ht => .ite (by rw [R.kind ht]) (.pure rfl) <|
        Mirrored.ahead.bind fun _ _ ht => .ite (by rw [R.kind ht]) (.pure rfl) <|
          Mirrored.take.bind fun _ _ _ => Mirrored.skip rounds

protected theorem declarationRule (h : Rules.Mirrors R below below') :
    Mirrored R (Option.Rel (Node.Mirrors R)) (declarationRule below) (declarationRule below') := by
  refine .tryCatch ((Mirrored.soundDeclaration h).map fun _ _ => .some) fun halt => ?_
  cases halt with
  | syntaxError =>
    refine Mirrored.bind (Q := (· = ·)) ?_ fun _ _ _ => .pure .none
    rw [h.rounds]
    exact Mirrored.take.bind fun _ _ _ => .skip below'.rounds
  | tooDeep | offEnd => exact .throw _

end Mirrored

/-! ## Programs -/

namespace Rules.Mirrors

variable {below below' : Rules}

theorem above (h : Rules.Mirrors R below below') :
    Rules.Mirrors R (Rules.above below) (Rules.above below') :=
  ⟨h.rounds, .expressionRule h, .unaryRule h, .statementRule h, .declarationRule h⟩

theorem atop (R : Mirror) (rounds : Nat) :
    ∀ nesting, Rules.Mirrors R (Rules.atop rounds nesting) (Rules.atop rounds nesting)
  | 0 => ⟨rfl, .throw _, .throw _, .throw _, .throw _⟩
  | nesting + 1 => (Rules.Mirrors.atop R rounds nesting).above

end Rules.Mirrors

namespace Program

variable {below below' : Rules}

theorem nextDeclaration_mirrored (h : Rules.Mirrors R below below') :
    Mirrored R (Option.Rel (Option.Rel (Node.Mirrors R))) (nextDeclaration below)
      (nextDeclaration below') := by
  refine .tryCatch (h.declaration.map fun _ _ => .some) fun halt => ?_
  cases halt with
  | tooDeep => exact (Mirrored.complainAhead .tooDeep).bind fun _ _ _ => .pure .none
  | syntaxError | offEnd => exact .throw _

theorem declarations_mirrored (h : Rules.Mirrors R below below') :
    ∀ rounds, Mirrored R (List.Forall₂ (Node.Mirrors R)) (declarations below rounds)
      (declarations below' rounds)
  | 0 => .throw _
  | rounds + 1 => Mirrored.atEnd.bind fun _ _ he => .ite (by rw [he]) (.pure .nil) <| by
    refine (nextDeclaration_mirrored h).bind fun o o' ho => ?_
    cases ho with
    | none => exact .pure .nil
    | some hfirst =>
      exact (declarations_mirrored h rounds).bind fun _ _ hns =>
        .pure (List.rel_append (Mirrored.forall₂_toList hfirst) hns)

/-- Lists of tokens that stand for one another make programs that do. -/
theorem within?_mirrored (nesting : Nat) {ts ts' : List Token} (h : List.Forall₂ R.token ts ts') :
    Option.Rel (fun p p' => List.Forall₂ (Node.Mirrors R) p.statements p'.statements ∧
      List.Forall₂ (Complaint.Mirrors R) p.complaints p'.complaints)
      (within? nesting ts) (within? nesting ts') := by
  have hread := declarations_mirrored (Rules.Mirrors.atop R (ts.length + 1) nesting) (ts.length + 1)
    ⟨[], ts, []⟩ ⟨[], ts', []⟩ ⟨.nil, h, .nil⟩
  unfold within?
  dsimp only
  rw [← h.length_eq]
  cases e : declarations (Rules.atop (ts.length + 1) nesting) (ts.length + 1) ⟨[], ts, []⟩ with
  | ok ns c =>
    cases e' : declarations (Rules.atop (ts.length + 1) nesting) (ts.length + 1) ⟨[], ts', []⟩ with
    | ok ns' c' =>
      rw [e, e'] at hread
      exact .some ⟨hread.1, hread.2.complaints⟩
    | error =>
      rw [e, e'] at hread
      exact hread.elim
  | error =>
    cases e' : declarations (Rules.atop (ts.length + 1) nesting) (ts.length + 1) ⟨[], ts', []⟩ with
    | ok =>
      rw [e, e'] at hread
      exact hread.elim
    | error => exact .none

/-- The token of every complaint about a text is one of its own. -/
theorem complaint_known {source : String} {nesting : Nat} {x : Complaint}
    (hx : x ∈ (ofText source nesting).complaints) : x.token ∈ (Scan.ofText source).tokens := by
  let own : Mirror :=
    { token := fun t t' => t = t' ∧ t ∈ (Scan.ofText source).tokens
      kind := fun h => by rw [h.1] }
  have hread := within?_mirrored (R := own) nesting
    (List.forall₂_same.2 fun t (ht : t ∈ (Scan.ofText source).tokens) => ⟨rfl, ht⟩)
  rw [within?_ofText] at hread
  cases hread with
  | some h => exact (List.forall₂_same.1 h.2 x hx).token.2

end Program

end LoxLang
