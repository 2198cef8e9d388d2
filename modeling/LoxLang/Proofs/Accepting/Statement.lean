import LoxLang.Grammar.Statement
import LoxLang.Proofs.Accepting.Expression
import LoxLang.Proofs.Reading.Program
/-!
# Accepting statements and declarations

Each rule for statements accepts what the loosened grammar derives. A statement that ends in an `if`
without `else` is accepted only where no `else` follows, and in the grammar none ever does.
-/

namespace LoxLang

open Parse Rules

variable {below : Rules} {k : Nat} {ts us : List Token} {n : Node} {xs ys : List Complaint} {d : Bool}

/-- The rules accept what the grammar says of everything that is nested. -/
structure RulesAccepted (rules : Rules) : Prop extends ExpressionsAccepted rules where
  statement : ∀ k d ts n xs, Loose k (.statement d) ts [n] xs → ts.length < rules.rounds →
    Accepts k rules.statement ts xs (Phrase.Ends (.statement d)) n
  declaration : ∀ k ts n xs, Loose k .declaration ts [n] xs → ts.length < rules.rounds →
    Accepts k rules.declaration ts xs (Phrase.Ends .declaration) (some n)

namespace Accepts

theorem endedBy (h : ExpressionsAccepted below) {what : String} {s : Token}
    (hd : Loose k .expression ts [n] xs) (hs : s.kind = .semicolon) (hl : ts.length < below.rounds) :
    Accepts k (endedBy below what) (ts ++ [s]) xs (fun _ => True) n :=
  Accepts.bindQuiet (expressionRule h hd hl) (Comes.cons (Comes.expect hs (by simp)) .refl)
    fun _ _ => Phrase.ends_expression (by simp [hs])

theorem expressionStatement (h : ExpressionsAccepted below)
    (hd : Loose k .expressionStatement ts [n] xs) (hl : ts.length ≤ below.rounds) :
    Accepts k (expressionStatement below) ts xs (fun _ => True) n := by
  cases hd with
  | expressionStatement hn hs =>
    simp only [List.length_append, List.length_cons, List.length_nil] at hl
    exact bindNil (endedBy h hn hs (by omega)) .refl fun _ hk => hk

theorem variableRule (h : ExpressionsAccepted below) {v : Token}
    (hd : Loose k .variable (v :: ts) [n] xs) (hl : ts.length < below.rounds) :
    Accepts (k + 1) (variableRule below) ts xs (fun _ => True) n := by
  cases hd with
  | «variable» hv hname hequals hn hs =>
    simp only [List.length_cons, List.length_append, List.length_nil] at hl
    refine Comes.cons (Comes.expect hname (by simp)) (Comes.cons (Comes.expect hequals (by simp)) ?_)
    exact bindNil (endedBy h hn hs (by omega)) .refl fun _ hk => hk

/-! ## Blocks and functions -/

theorem declarations (h : RulesAccepted below) {ns : List Node}
    (hd : Loose k .declarations ts ns xs) : ∀ rounds, ts.length < rounds →
      ts.length < below.rounds →
      Accepts k (declarations below rounds) ts xs (· = .rightBrace) ns := by
  refine Loose.declarations_induction ?nil ?cons hd
  case nil =>
    intro k rounds hr _
    obtain ⟨rounds, rfl⟩ : ∃ r, rounds = r + 1 := ⟨rounds - 1, by simp at hr; omega⟩
    rw [Rules.declarations]
    refine Comes.nil (Comes.next (by simp)) ?_ fun _ hk => hk
    exact Comes.nil Comes.notAtEnd .refl (by simp)
  case cons =>
    intro k ts n xs us ns ys hn hns ih rounds hr hl
    rw [List.length_append] at hr hl
    obtain ⟨rounds, rfl⟩ : ∃ r, rounds = r + 1 := ⟨rounds - 1, by omega⟩
    have hne := hn.ne_nil (by simp) (by simp)
    have hpos : 0 < ts.length := List.length_pos_iff.2 hne
    have hhead : ∀ k, headKind (ts ++ us) k ∈ Phrase.starts .declaration := by
      intro k
      rw [headKind_append]
      exact hn.headKind_mem (by simp) (by simp) _
    rw [Rules.declarations]
    refine Comes.nil Comes.notNext (Comes.nil Comes.notAtEnd ?_ fun k _ he => ?_) fun k _ he => ?_
    · refine Accepts.bind (h.declaration k ts n xs hn (by omega))
        (bindNil (ih rounds (by omega) (by omega)) .refl fun _ hk => hk) fun k hk he => ?_
      have := hns.headKind_declarations k
      rw [he, hk] at this
      simp [Phrase.starts, Phrase.wordStarts, Phrase.operandStarts] at this
    · have := hhead k
      rw [he] at this
      simp [Phrase.starts, Phrase.wordStarts, Phrase.operandStarts] at this
    · have := hhead k
      rw [he] at this
      simp [Phrase.starts, Phrase.wordStarts, Phrase.operandStarts] at this

theorem blockRule (h : RulesAccepted below) {ns : List Node} {r : Token}
    (hd : Loose k .declarations ts ns xs) (hr : r.kind = .rightBrace)
    (hl : ts.length < below.rounds) :
    Accepts k (blockRule below) (ts ++ [r]) xs (fun _ => True) ns :=
  Accepts.bindQuiet (declarations h hd below.rounds hl hl)
    (Comes.cons (Comes.expect hr (by simp)) .refl) fun _ _ => hr

theorem functionRule (h : RulesAccepted below) {name l r b e : Token} {params : List Token}
    {body : List Node} (hname : name.kind = .identifier) (hl : l.kind = .leftParen)
    (hps : LooseParameters (k + 2) ts params xs) (hr : r.kind = .rightParen)
    (hb : b.kind = .leftBrace) (hbody : Loose (k + 2 + ts.length + 2) .declarations us body ys)
    (he : e.kind = .rightBrace) (hlt : ts.length + us.length < below.rounds) :
    Accepts k (functionRule below) (name :: l :: (ts ++ r :: b :: (us ++ [e]))) (xs ++ ys)
      (fun _ => True) (Node.funDecl name params body) := by
  have rest : Accepts (k + 2 + ts.length) (expect .rightParen "')' after parameters" >>= fun _ =>
      expect .leftBrace "'\x7b' before function body" >>= fun _ => Rules.blockRule below >>= fun body =>
        pure (Node.funDecl name params body)) (r :: b :: (us ++ [e])) ys (fun _ => True)
      (Node.funDecl name params body) :=
    Comes.cons (Comes.expect hr (by simp)) (Comes.cons (Comes.expect hb (by simp))
      (bindNil (blockRule h hbody he (by omega)) .refl fun _ hk => hk))
  refine Comes.cons (Comes.expect hname (by simp)) (Comes.cons (Comes.expect hl (by simp)) ?_)
  rcases hps with ⟨rfl, rfl, rfl⟩ | hps
  · exact Accepts.leftOut (by simp) rest fun _ _ => hr
  · have hlist : Accepts (k + 2) (separated "parameters" (expect .identifier "parameter name")
        below.rounds 0) ts xs (· = .rightParen) params := by
      refine Accepts.separated ?_ hps (by omega)
      rintro k us t ys ⟨rfl, ht, rfl⟩ -
      refine ⟨by simp, ?_⟩
      rw [← bind_pure (expect _ _)]
      exact (Comes.expect ht (by simp)).imp fun _ _ => trivial
    refine Accepts.given hlist (fun k hk => ?_) rest fun _ _ => hr
    have := Loose.headKind_parameters hps k
    simp [hk] at this

/-! ## Loops -/

theorem optionalClause (h : ExpressionsAccepted below) {before : Kind} {what : String} {s : Token}
    {o : Option Node} (hd : Loose k .clause ts o.toList xs) (hs : s.kind = before)
    (hb : before = .semicolon ∨ before = .rightParen) (hl : ts.length < below.rounds) :
    Accepts k (optionalClause below before what) (ts ++ [s]) xs (fun _ => True) o := by
  have heof : before ≠ .eof := by rcases hb with rfl | rfl <;> simp
  have closed : ∀ k, Accepts k (expect before what >>= fun _ => pure o) [s] [] (fun _ => True) o :=
    fun _ => Comes.cons (Comes.expect hs heof) .refl
  cases o with
  | none =>
    obtain ⟨rfl, rfl⟩ : ts = [] ∧ xs = [] := by
      cases hd with
      | noClause => exact ⟨rfl, rfl⟩
    exact Accepts.leftOut heof (closed k) fun _ _ => hs
  | some n =>
    cases hd with
    | clause hn =>
      rw [← List.append_nil xs]
      refine Accepts.given (bindNil (expressionRule h hn hl) .refl fun _ hk => hk) (fun k hk => ?_)
        (closed _) fun _ _ => Phrase.ends_expression ?_
      · have := hk ▸ hn.headKind_mem (by simp) (by simp) k
        rcases hb with rfl | rfl <;> simp [Phrase.starts, Phrase.operandStarts] at this
      · rcases hb with rfl | rfl <;> simp [hs]

theorem forStart (h : ExpressionsAccepted below) {o : Option Node}
    (hd : Loose k .start ts o.toList xs) (hl : ts.length ≤ below.rounds) :
    Accepts k (forStart below) ts xs (fun _ => True) o := by
  rw [Rules.forStart]
  cases o with
  | none =>
    cases hd with
    | noStart hs =>
      refine Comes.cons (Comes.accept (by simp [hs]) (by decide)) ?_
      simp only [hs]
      exact .refl
  | some n =>
    cases hd with
    | startVariable hn =>
      rcases hn.starts with ⟨v, us, rfl, hv⟩ | ⟨-, h⟩
      · have hv : v.kind = .keyword .varWord := by simpa [Phrase.starts] using hv
        refine Comes.cons (Comes.accept (by simp [hv]) (by decide)) ?_
        simp only [hv, reduceCtorEq, ↓reduceIte]
        exact bindNil (variableRule h hn (Nat.lt_of_succ_le hl)) .refl fun _ hk => hk
      · simp at h
    | startExpression hn =>
      refine Comes.nil Comes.pass (bindNil (expressionStatement h hn hl) .refl fun _ hk => hk)
        fun k _ hk => ?_
      have := hn.headKind_mem (by simp) (by simp) k
      simp only [List.mem_cons, List.not_mem_nil, or_false] at hk
      rcases hk with hk | hk <;> simp [hk, Phrase.starts, Phrase.operandStarts] at this

/-! ## Statements -/

theorem forClauses (h : RulesAccepted below) {l s r : Token} {us vs ws : List Token}
    {start condition increment : Option Node} {zs ws' : List Complaint} (hlp : l.kind = .leftParen)
    (hstart : Loose (k + 1) .start ts start.toList xs)
    (hcondition : Loose (k + 1 + ts.length) .clause us condition.toList ys)
    (hs : s.kind = .semicolon)
    (hincrement : Loose (k + 1 + ts.length + us.length + 1) .clause vs increment.toList zs)
    (hr : r.kind = .rightParen)
    (hn : Loose (k + 1 + ts.length + us.length + 1 + vs.length + 1) (.statement d) ws [n] ws')
    (hl : ts.length + us.length + vs.length + ws.length < below.rounds) :
    Accepts k (forClauses below) (l :: (ts ++ ((us ++ [s]) ++ ((vs ++ [r]) ++ ws))))
      (xs ++ (ys ++ (zs ++ ws'))) (Phrase.Ends (.statement d)) ⟨start, condition, increment, n⟩ := by
  have he : ExpressionsAccepted below := h.toExpressionsAccepted
  refine Comes.cons (Comes.expect hlp (by simp)) (Accepts.bind (forStart he hstart (by omega))
    (Accepts.bind (optionalClause he hcondition hs (.inl rfl) (by omega))
      (Accepts.bind (optionalClause he (k := k + 1 + ts.length + (us ++ [s]).length) ?_ hr (.inr rfl)
        (by omega)) (bindNil (h.statement _ d ws n ws' ?_ (by omega)) .refl fun _ hk => hk)
        fun _ _ => trivial) fun _ _ => trivial) fun _ _ => trivial)
  · simpa [Nat.add_assoc] using hincrement
  · simpa [Nat.add_assoc] using hn

theorem statementRule (h : RulesAccepted below) (hd : Loose k (.statement d) ts [n] xs)
    (hl : ts.length ≤ below.rounds) :
    Accepts k (statementRule below) ts xs (Phrase.Ends (.statement d)) n := by
  have he : ExpressionsAccepted below := h.toExpressionsAccepted
  rw [Rules.statementRule]
  cases hd with
  | evaluation hn =>
    refine Comes.nil Comes.pass ((expressionStatement he hn hl).imp fun _ _ => trivial)
      fun k _ hk => ?_
    have := hn.headKind_mem (by simp) (by simp) k
    revert this hk
    generalize headKind ts k = k
    simp only [statementStarts, Phrase.starts, Phrase.operandStarts, List.mem_cons,
      List.not_mem_nil, or_false]
    rintro (rfl | rfl | rfl | rfl | rfl | rfl) <;> simp
  | printing hp hn hs =>
    simp only [List.length_cons, List.length_append, List.length_nil] at hl
    refine Comes.cons (Comes.accept (by simp [hp, statementStarts]) (by decide)) ?_
    simp only [statementFrom, hp]
    exact bindNil (endedBy he hn hs (by omega)) .refl fun _ _ => trivial
  | @returning _ r ts ns _ s hr hn hs =>
    simp only [List.length_cons, List.length_append, List.length_nil] at hl
    refine Comes.cons (Comes.accept (by simp [hr, statementStarts]) (by decide)) ?_
    simp only [statementFrom, hr]
    have hclause : ns.head?.toList = ns := by cases hn <;> rfl
    refine bindNil (optionalClause he (o := ns.head?) (hclause.symm ▸ hn) hs (.inl rfl) (by omega))
      .refl fun _ _ => trivial
  | block hb hns hr =>
    simp only [List.length_cons, List.length_append, List.length_nil] at hl
    refine Comes.cons (Comes.accept (by simp [hb, statementStarts]) (by decide)) ?_
    simp only [statementFrom, hb]
    exact bindNil (blockRule h hns hr (by omega)) .refl fun _ _ => trivial
  | @whileLoop _ w l ts c xs r us _ n ys hw hlp hc hr hn =>
    simp only [List.length_cons, List.length_append] at hl
    refine Comes.cons (Comes.accept (by simp [hw, statementStarts]) (by decide)) ?_
    simp only [statementFrom, hw]
    refine Comes.cons (Comes.expect hlp (by simp)) (Accepts.bind (expressionRule he hc (by omega))
      (Comes.cons (Comes.expect hr (by simp)) ?_) fun _ _ => Phrase.ends_expression (by simp [hr]))
    exact bindNil (h.statement _ d us n ys hn (by omega)) .refl fun _ hk => hk
  | @forLoop _ f l ts start xs us condition ys s vs increment zs r ws _ n ws' hf hlp hstart
      hcondition hs hincrement hr hn =>
    simp only [List.length_cons, List.length_append] at hl
    obtain ⟨start, rfl⟩ : ∃ o : Option Node, start = o.toList := hstart.toOption (.inl rfl)
    obtain ⟨condition, rfl⟩ : ∃ o : Option Node, condition = o.toList :=
      hcondition.toOption (.inr rfl)
    obtain ⟨increment, rfl⟩ : ∃ o : Option Node, increment = o.toList :=
      hincrement.toOption (.inr rfl)
    refine Comes.cons (Comes.accept (by simp [hf, statementStarts]) (by decide)) ?_
    simp only [statementFrom, hf]
    have built := Accepts.map (g := ForClauses.desugared)
      (forClauses h hlp hstart hcondition hs hincrement hr hn (by omega))
    rw [← whileForm_toList] at built
    simpa [Rules.forRule] using built
  | @ifThen _ i l ts c xs r us d' n ys hi hlp hc hr hn =>
    simp only [List.length_cons, List.length_append] at hl
    refine Comes.cons (Comes.accept (by simp [hi, statementStarts]) (by decide)) ?_
    simp only [statementFrom, hi]
    refine Comes.cons (Comes.expect hlp (by simp)) (Accepts.bind (expressionRule he hc (by omega))
      (Comes.cons (Comes.expect hr (by simp)) ?_) fun _ _ => Phrase.ends_expression (by simp [hr]))
    exact bindNil (h.statement _ d' us n ys hn (by omega))
      (Comes.pass.imp fun k hk => by simpa using hk rfl) fun k hk _ => hk rfl
  | @ifElse _ i l ts c xs r us n ys e vs _ m zs hi hlp hc hr hn helse hm =>
    simp only [List.length_cons, List.length_append] at hl
    refine Comes.cons (Comes.accept (by simp [hi, statementStarts]) (by decide)) ?_
    simp only [statementFrom, hi]
    refine Comes.cons (Comes.expect hlp (by simp)) (Accepts.bind (expressionRule he hc (by omega))
      (Comes.cons (Comes.expect hr (by simp)) ?_) fun _ _ => Phrase.ends_expression (by simp [hr]))
    refine Accepts.bind (h.statement _ false us n ys hn (by omega))
      (Comes.cons (Comes.accept (by simp [helse]) (by decide)) ?_) fun _ _ => by simp [Phrase.Ends]
    exact bindNil (h.statement _ d vs m zs hm (by omega)) .refl fun _ hk => hk

theorem soundDeclaration (h : RulesAccepted below) (hd : Loose k .declaration ts [n] xs)
    (hl : ts.length ≤ below.rounds) :
    Accepts k (soundDeclaration below) ts xs (Phrase.Ends .declaration) n := by
  rw [Rules.soundDeclaration]
  cases hd with
  | declareVariable hn =>
    rcases hn.starts with ⟨v, us, rfl, hv⟩ | ⟨-, h⟩
    · have hv : v.kind = .keyword .varWord := by simpa [Phrase.starts] using hv
      refine Comes.cons (Comes.accept (by simp [hv]) (by decide)) ?_
      simp only [hv, Kind.keyword.injEq, reduceCtorEq, ↓reduceIte]
      exact (variableRule h.toExpressionsAccepted hn (Nat.lt_of_succ_le hl)).imp fun _ _ => trivial
    · simp at h
  | declareFunction hf hname hlp hps hr hb hbody he =>
    simp only [List.length_cons, List.length_append, List.length_nil] at hl
    refine Comes.cons (Comes.accept (by simp [hf]) (by decide)) ?_
    simp only [hf, ↓reduceIte]
    exact (functionRule h hname hlp hps hr hb hbody he (by omega)).imp fun _ _ => trivial
  | statement hn =>
    refine Comes.nil Comes.pass ((statementRule h hn hl).imp fun k hk _ => hk) fun k _ hk => ?_
    have := hn.headKind_mem (by simp) (by simp) k
    simp only [List.mem_cons, List.not_mem_nil, or_false] at hk
    rcases hk with hk | hk <;>
      simp [hk, Phrase.starts, Phrase.wordStarts, Phrase.operandStarts] at this

/-- There is nothing to go on after where no declaration was given up. -/
theorem declarationRule (h : RulesAccepted below) (hd : Loose k .declaration ts [n] xs)
    (hl : ts.length ≤ below.rounds) :
    Accepts k (declarationRule below) ts xs (Phrase.Ends .declaration) (some n) := by
  refine Or.imp (fun h c t rest hk hc ht => ?_) (fun h c t rest hk hc ht => ?_)
    (Accepts.map (g := some) (soundDeclaration h hd hl))
  · rw [declarationRule_eq, h c t rest hk hc ht]
    rfl
  · obtain ⟨c', e⟩ := h c t rest hk hc ht
    rw [declarationRule_eq, e]
    exact ⟨c', rfl⟩

end Accepts

/-! ## Layers -/

theorem RulesAccepted.above (h : RulesAccepted below) : RulesAccepted (Rules.above below) :=
  ⟨⟨fun _ _ _ _ => Accepts.expressionRule h.toExpressionsAccepted,
      fun _ _ _ _ => Accepts.unaryRule h.toExpressionsAccepted⟩,
    fun _ _ _ _ _ hd hl => Accepts.statementRule h hd (Nat.le_of_lt hl),
    fun _ _ _ _ hd hl => Accepts.declarationRule h hd (Nat.le_of_lt hl)⟩

/-- Every layer accepts what the grammar derives, or runs out of layers below. -/
theorem RulesAccepted.atop (rounds : Nat) : ∀ nesting, RulesAccepted (Rules.atop rounds nesting)
  | 0 => ⟨⟨fun _ _ _ _ _ _ => .tooDeep, fun _ _ _ _ _ _ => .tooDeep⟩,
      fun _ _ _ _ _ _ _ => .tooDeep, fun _ _ _ _ _ _ => .tooDeep⟩
  | nesting + 1 => (RulesAccepted.atop rounds nesting).above

end LoxLang
