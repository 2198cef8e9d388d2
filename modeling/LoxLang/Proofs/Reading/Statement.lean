import LoxLang.Grammar.Statement
import LoxLang.Proofs.Reading.Expression
/-!
# Reading statements and declarations

What each rule for statements comes to, over rules for what is nested in them. A declaration that
breaks the grammar has complained, so going on after it only has to keep its place.
-/

namespace LoxLang

open Parse Rules

variable {origin : Token → Prop} {room deep : Nat} {below : Rules}

/-- The tokens make up a statement, and an `else` after it does not belong to it. -/
def DerivesStatement (ts rest : List Token) (n : Node) : Prop :=
  ∃ d, Derives (.statement d) ts [n] ∧
    (d = true → ∀ t, rest.head? = some t → t.kind ≠ .keyword .elseWord)

/-- The parts of a `for` statement that are well formed. -/
structure ForClauses.Proper (origin : Token → Prop) (c : ForClauses) : Prop where
  start : ∀ n ∈ c.start, n.Proper origin (.statement true)
  condition : ∀ n ∈ c.condition, n.Proper origin .expression
  increment : ∀ n ∈ c.increment, n.Proper origin .expression
  body : c.body.Proper origin (.statement false)

/-- What the rules come to at a layer that `deep` tokens do not exhaust. -/
structure RulesRead (origin : Token → Prop) (deep : Nat) (rules : Rules) : Prop extends
    ExpressionsRead origin deep rules where
  statement : Reads (Cursor.Ready origin rules.rounds) deep 1 rules.statement
    (Node.Proper origin (.statement false)) DerivesStatement
  declaration : Reads (Cursor.Inside origin rules.rounds) deep 1 rules.declaration
    (fun o => ∀ n ∈ o, Node.Proper origin (.statement true) n)
    (fun ts _ o => ∃ n, o = some n ∧ Derives .declaration ts [n])
  recovers : ∀ c c', c.Inside origin rules.rounds → rules.declaration c ≠ .error .syntaxError c'

/-- The loop that takes the place of a `for` statement is well formed, and it can be the body of
another loop. -/
theorem ForClauses.Proper.desugared {c : ForClauses} (h : c.Proper origin) :
    c.desugared.Proper origin (.statement false) := by
  obtain ⟨start, condition, increment, body⟩ := c
  have hturn : (ForClauses.turn ⟨start, condition, increment, body⟩).Proper origin
      (.statement false) := by
    cases increment with
    | none => exact h.body
    | some n => exact .block (.cons h.body.toBind (.cons (.exprStmt (h.increment n rfl)) .nil))
  have hcondition : (condition.getD (.literal (.bool true))).Proper origin .expression := by
    cases condition with
    | none => exact .literal (.inr (.inl ⟨true, rfl⟩))
    | some n => exact h.condition n rfl
  have hloop : (ForClauses.loop ⟨start, condition, increment, body⟩).Proper origin
      (.statement false) := .whileStmt hcondition hturn
  cases start with
  | none => exact hloop
  | some n => exact .block (.cons (h.start n rfl) (.cons hloop.toBind .nil))

/-- The loop that is built is the one that the grammar asks for. -/
theorem whileForm_toList (c : ForClauses) :
    whileForm c.start.toList c.condition.toList c.increment.toList c.body = c.desugared := by
  obtain ⟨start, condition, increment, body⟩ := c
  cases start <;> cases condition <;> cases increment <;> rfl

namespace Reads

theorem endedBy (h : ExpressionsRead origin deep below) (what : String) :
    Reads (Cursor.Ready origin below.rounds) (deep + 1) 1 (endedBy below what)
      (Node.Proper origin .expression)
      (fun ts _ n => ∃ us s, ts = us ++ [s] ∧ Derives .expression us [n] ∧ s.kind = .semicolon) := by
  rw [Rules.endedBy]
  refine Reads.imp (Reads.andThen (Reads.expressionRule h) (fun n hn => Reads.andThen (Reads.expect _ _)
    (fun _ _ => Reads.pure hn))) (Nat.le_add_right _ _) ?_
  rintro ts rest n - ⟨us, _, m, rfl, hm, _, _, s, rfl, ⟨rfl, hs⟩, rfl, rfl⟩
  exact ⟨us, s, by simp, hm, hs⟩

theorem expressionStatement (h : ExpressionsRead origin deep below) :
    Reads (Cursor.Ready origin below.rounds) (deep + 1) 1 (expressionStatement below)
      (Node.Proper origin (.statement false))
      (fun ts _ n => Derives .expressionStatement ts [n]) := by
  rw [Rules.expressionStatement]
  refine Reads.imp (Reads.andThen (Reads.endedBy h _) (fun n hn => Reads.pure (.exprStmt hn)))
    (Nat.le_refl _) ?_
  rintro ts rest n - ⟨_, _, m, rfl, ⟨us, s, rfl, hm, hs⟩, rfl, rfl⟩
  simpa using Derives.expressionStatement hm hs

theorem variableRule (h : ExpressionsRead origin deep below) :
    Reads (Cursor.Ready origin below.rounds) (deep + 1) 1 (variableRule below)
      (Node.Proper origin (.statement true))
      (fun ts _ n => ∀ v, v.kind = .keyword .varWord → Derives .variable (v :: ts) [n]) := by
  rw [Rules.variableRule]
  refine Reads.imp (Reads.andThen (Reads.expect _ _) (fun name hname => Reads.andThen (Reads.expect _ _)
    (fun _ _ => Reads.andThen (Reads.endedBy h _)
      (fun n hn => Reads.pure (.varValue ⟨rfl, hname.1, by simp [hname.2, Role.kinds]⟩ hn)))))
    (Nat.le_add_right _ _) ?_
  rintro ts rest n - ⟨_, _, name, rfl, ⟨rfl, hname⟩, _, _, equals, rfl, ⟨rfl, hequals⟩, _, _, m,
    rfl, ⟨us, s, rfl, hm, hs⟩, rfl, rfl⟩
  intro v hv
  simpa using Derives.variable hv hname hequals hm hs

/-! ## Blocks and functions -/

/-- Each declaration takes a token, so there are rounds enough if there are more than tokens. -/
theorem declarations (h : RulesRead origin deep below) :
    ∀ rounds r, r ≤ rounds → r ≤ below.rounds →
      Reads (Cursor.Ready origin r) deep 0 (declarations below rounds)
        (fun ns => ∀ n ∈ ns, Node.Proper origin (.statement true) n)
        (fun ts _ ns => Derives .declarations ts ns) := by
  intro rounds
  induction rounds with
  | zero =>
    intro r hr _
    refine ⟨fun hc => ?_, fun hc => ?_⟩ <;> exact absurd hc.short (by omega)
  | succ rounds ih =>
    intro r hr hr'
    rw [Rules.declarations]
    have more : Reads (Cursor.Inside origin r) deep 0
        (below.declaration >>= fun first => Rules.declarations below rounds >>= fun rest =>
          pure (first.toList ++ rest))
        (fun ns => ∀ n ∈ ns, Node.Proper origin (.statement true) n)
        (fun ts _ ns => Derives .declarations ts ns) := by
      refine Reads.imp (Reads.bindFrom (r := r - 1) (d := deep) (fun _ hc => hc.toReady)
        (h.declaration.mono_inside hr') (fun first hfirst => Reads.andThen (ih (r - 1) (by omega)
          (by omega)) (fun rest hrest => Reads.pure ?_)) (by omega) (Nat.le_add_right _ _))
        (Nat.zero_le _) ?_
      · intro n hn
        rcases List.mem_append.1 hn with hn | hn
        · exact hfirst n (by simpa using hn)
        · exact hrest n hn
      · rintro ts rest ns - ⟨us, _, _, rfl, ⟨n, rfl, hn⟩, vs, _, ms, rfl, hms, rfl, rfl⟩
        simpa using Derives.nextDeclaration hn hms
    refine Reads.imp (Reads.andThen (Reads.nextIs _) (fun b _ => Reads.unlessEnd b (Reads.pure
      (by simp)) more)) (Nat.le_refl _) ?_
    rintro ts rest ns - ⟨_, us, _, rfl, ⟨rfl, -⟩, ⟨-, rfl, rfl⟩ | hns⟩
    · exact .noDeclarations
    · simpa using hns

theorem blockRule (h : RulesRead origin deep below) :
    Reads (Cursor.Ready origin below.rounds) deep 1 (blockRule below)
      (fun ns => ∀ n ∈ ns, Node.Proper origin (.statement true) n)
      (fun ts _ ns => ∃ us r, ts = us ++ [r] ∧ Derives .declarations us ns ∧
        r.kind = .rightBrace) := by
  rw [Rules.blockRule]
  refine Reads.imp (Reads.andThen (Reads.declarations h below.rounds below.rounds (Nat.le_refl _)
    (Nat.le_refl _)) (fun ns hns => Reads.andThen (Reads.expect _ _) (fun _ _ => Reads.pure hns)))
    (Nat.le_refl _) ?_
  rintro ts rest ns - ⟨us, _, ms, rfl, hms, _, _, r, rfl, ⟨rfl, hr⟩, rfl, rfl⟩
  exact ⟨us, r, by simp, hms, hr⟩

theorem functionRule (h : RulesRead origin deep below) :
    Reads (Cursor.Ready origin below.rounds) (deep + 1) 1 (functionRule below)
      (Node.Proper origin (.statement true))
      (fun ts _ n => ∀ f, f.kind = .keyword .funWord → Derives .declaration (f :: ts) [n]) := by
  have parameter : ∀ room, room ≤ below.rounds → Reads (Cursor.Ready origin room) (deep + 1) 1
      (expect .identifier "parameter name") (fun t => origin t ∧ t.kind = .identifier)
      (fun ts _ t => ts = [t] ∧ t.kind = .identifier) := fun _ _ => Reads.expect _ _
  rw [Rules.functionRule]
  refine Reads.imp (Reads.andThen (Reads.expect _ _) (fun name hname => Reads.andThen (Reads.expect _ _)
    (fun _ _ => Reads.option _ (fun ps => ∀ t ∈ ps, origin t ∧ t.kind = .identifier) (by simp)
      (Reads.separated parameter below.rounds 0 below.rounds (Nat.le_refl _) (Nat.le_refl _))
      (fun params hparams => Reads.andThen (Reads.expect _ _) (fun _ _ => Reads.bind
        (Reads.expect _ _) (fun _ _ => Reads.andThen ((Reads.blockRule h).mono (Nat.le_refl _)
          (Nat.le_refl _)) (fun body hbody => Reads.pure (.funDecl
            ⟨rfl, hname.1, by simp [hname.2, Role.kinds]⟩ (List.forall₂_same.2 fun t ht =>
              ⟨rfl, (hparams t ht).1, by simp [(hparams t ht).2, Role.kinds]⟩)
            (List.forall₂_same.2 hbody)))) (Nat.le_add_right _ _) (Nat.le_refl _))))))
    (Nat.le_add_right _ _) ?_
  rintro ts rest n - ⟨_, _, name, rfl, ⟨rfl, hname⟩, _, _, l, rfl, ⟨rfl, hl⟩, ps, _, params, rfl,
    hparams, _, _, r, rfl, ⟨rfl, hr⟩, _, _, b, rfl, ⟨rfl, hb⟩, _, _, body, rfl,
    ⟨us, e, rfl, hbody, he⟩, rfl, rfl⟩
  intro f hf
  have hps : Parameters ps params ∧ params.length ≤ 255 := by
    rcases hparams with ⟨rfl, rfl⟩ | ⟨hparams, hlen⟩
    · exact ⟨.inl ⟨rfl, rfl⟩, by simp⟩
    · exact ⟨.inr hparams, by simpa [maxArity] using hlen⟩
  simpa using Derives.declareFunction hf hname hl hps.1 hps.2 hr hb hbody he

/-! ## Loops -/

theorem optionalClause (h : ExpressionsRead origin deep below) (before : Kind) (what : String) :
    Reads (Cursor.Ready origin below.rounds) (deep + 1) 1 (optionalClause below before what)
      (fun o => ∀ n ∈ o, Node.Proper origin .expression n)
      (fun ts _ o => ∃ us s, ts = us ++ [s] ∧ Derives .clause us o.toList ∧ s.kind = before) := by
  rw [Rules.optionalClause]
  refine Reads.imp (Reads.option _ (fun o => ∀ n ∈ o, Node.Proper origin .expression n) (by simp)
    (Reads.map (Reads.expressionRule h) (by simp))
    (fun o ho => Reads.andThen (Reads.expect _ _) (fun _ _ => Reads.pure ho))) (Nat.le_refl _) ?_
  rintro ts rest o - ⟨us, _, clause, rfl, hclause, _, _, s, rfl, ⟨rfl, hs⟩, rfl, rfl⟩
  refine ⟨us, s, by simp, ?_, hs⟩
  rcases hclause with ⟨rfl, rfl⟩ | ⟨n, rfl, hn⟩
  · exact .noClause
  · exact .clause hn

theorem forStart (h : ExpressionsRead origin deep below) :
    Reads (Cursor.Ready origin below.rounds) (deep + 1) 1 (forStart below)
      (fun o => ∀ n ∈ o, Node.Proper origin (.statement true) n)
      (fun ts _ o => Derives .start ts o.toList) := by
  have started : ∀ t, origin t → t.kind ∈ [.semicolon, .keyword .varWord] →
      Reads (Cursor.Ready origin below.rounds) (deep + 1) 0
        (if t.kind = .semicolon then pure none else Rules.variableRule below >>= fun n =>
          pure (some n))
        (fun o => ∀ n ∈ o, Node.Proper origin (.statement true) n)
        (fun ts _ o => Derives .start (t :: ts) o.toList) := by
    intro t _ hk
    split
    · next hs =>
      refine Reads.imp (Reads.pure (by simp)) (Nat.le_refl _) ?_
      rintro ts rest o - ⟨rfl, rfl⟩
      exact .noStart hs
    · next hs =>
      refine Reads.imp (Reads.andThen (Reads.variableRule h)
        (fun n hn => Reads.pure (by simpa using hn))) (Nat.zero_le _) ?_
      rintro ts rest o - ⟨us, _, n, rfl, hn, rfl, rfl⟩
      have hv : t.kind = .keyword .varWord := by simpa [hs] using hk
      exact .startVariable (by simpa using hn t hv)
  rw [Rules.forStart]
  refine Reads.imp (Reads.accept (fun t ht hk => started t ht hk)
    (Reads.andThen (Reads.expressionStatement h)
      (fun n hn => Reads.pure (by simpa using hn.toBind)))
    (Nat.le_add_right _ _) (Nat.le_add_right _ _) (Nat.le_refl _)) (Nat.le_refl _) ?_
  rintro ts rest o - (⟨t, us, rfl, -, ho⟩ | ⟨⟨us, _, n, rfl, hn, rfl, rfl⟩, -⟩)
  · exact ho
  · exact .startExpression (by simpa using hn)

theorem forClauses (h : RulesRead origin deep below) :
    Reads (Cursor.Ready origin below.rounds) deep 1 (forClauses below) (ForClauses.Proper origin)
      (fun ts rest c => ∀ f, f.kind = .keyword .forWord →
        DerivesStatement (f :: ts) rest c.desugared) := by
  have he : ExpressionsRead origin deep below := h.toExpressionsRead
  rw [Rules.forClauses]
  refine Reads.imp (Reads.andThen (Reads.expect _ _) (fun _ _ =>
    Reads.andThen (Reads.shallower (Reads.forStart he)) (fun start hstart =>
      Reads.andThen (Reads.shallower (Reads.optionalClause he _ _)) (fun condition hcondition =>
        Reads.andThen (Reads.shallower (Reads.optionalClause he _ _)) (fun increment hincrement =>
          Reads.andThen h.statement (fun body hbody =>
            Reads.pure ⟨hstart, hcondition, hincrement, hbody⟩)))))) (Nat.le_add_right _ _) ?_
  rintro ts rest c - ⟨_, _, l, rfl, ⟨rfl, hl⟩, ss, _, start, rfl, hstart, _, _, condition, rfl,
    ⟨us, s, rfl, hcondition, hs⟩, _, _, increment, rfl, ⟨vs, r, rfl, hincrement, hr⟩, ws, _, body,
    rfl, ⟨d, hbody, hd⟩, rfl, rfl⟩
  intro f hf
  refine ⟨d, ?_, by simpa using hd⟩
  rw [← whileForm_toList]
  simpa using Derives.forLoop hf hl hstart hcondition hs hincrement hr hbody

theorem forRule (h : RulesRead origin deep below) :
    Reads (Cursor.Ready origin below.rounds) deep 1 (forRule below)
      (Node.Proper origin (.statement false))
      (fun ts rest n => ∀ f, f.kind = .keyword .forWord → DerivesStatement (f :: ts) rest n) := by
  rw [Rules.forRule]
  refine Reads.imp (Reads.map (Reads.forClauses h) (fun _ hc => hc.desugared)) (Nat.le_refl _) ?_
  rintro ts rest n - ⟨c, rfl, hc⟩
  exact hc

theorem whileRule (h : RulesRead origin deep below) :
    Reads (Cursor.Ready origin below.rounds) deep 1 (whileRule below)
      (Node.Proper origin (.statement false))
      (fun ts rest n => ∀ w, w.kind = .keyword .whileWord → DerivesStatement (w :: ts) rest n) := by
  rw [Rules.whileRule]
  refine Reads.imp (Reads.andThen (Reads.expect _ _) (fun _ _ =>
    Reads.andThen (Reads.shallower (Reads.expressionRule h.toExpressionsRead)) (fun c hc =>
      Reads.andThen (Reads.expect _ _) (fun _ _ => Reads.andThen h.statement
        (fun body hbody => Reads.pure (.whileStmt hc hbody)))))) (Nat.le_add_right _ _) ?_
  rintro ts rest n - ⟨_, _, l, rfl, ⟨rfl, hl⟩, us, _, c, rfl, hc, _, _, r, rfl, ⟨rfl, hr⟩, vs, _,
    body, rfl, ⟨d, hbody, hd⟩, rfl, rfl⟩
  intro w hw
  refine ⟨d, ?_, by simpa using hd⟩
  simpa using Derives.whileLoop hw hl hc hr hbody

/-! ## Other statements -/

theorem ifRule (h : RulesRead origin deep below) :
    Reads (Cursor.Ready origin below.rounds) deep 1 (ifRule below)
      (Node.Proper origin (.statement false))
      (fun ts rest n => ∀ i, i.kind = .keyword .ifWord → DerivesStatement (i :: ts) rest n) := by
  rw [Rules.ifRule]
  refine Reads.imp (Reads.andThen (Reads.expect _ _) (fun _ _ =>
    Reads.andThen (Reads.shallower (Reads.expressionRule h.toExpressionsRead)) (fun c hc =>
      Reads.andThen (Reads.expect _ _) (fun _ _ => Reads.andThen h.statement (fun s hs => Reads.accept
        (fun _ _ _ => Reads.andThen h.statement (fun e he => Reads.pure (.ifElse hc hs he)))
        (Reads.pure (.ifThen hc hs)) (Nat.le_add_right _ _) (Nat.le_add_right _ _)
        (Nat.zero_le _)))))) (Nat.le_add_right _ _) ?_
  rintro ts rest n - ⟨_, _, l, rfl, ⟨rfl, hl⟩, us, _, c, rfl, hc, _, _, r, rfl, ⟨rfl, hr⟩, vs, _,
    s, rfl, ⟨d, hs, hd⟩, hbranch⟩
  intro i hi
  rcases hbranch with ⟨e, _, rfl, he, ws, _, m, rfl, ⟨d', hm, hd'⟩, rfl, rfl⟩ | ⟨⟨rfl, rfl⟩, t, ht, hk⟩
  · -- The `else` was ahead when the first branch ended, so that branch could not have taken it.
    have he : e.kind = .keyword .elseWord := by simpa using he
    obtain rfl : d = false := by
      cases d with
      | false => rfl
      | true => exact absurd he (hd rfl e rfl)
    refine ⟨d', ?_, by simpa using hd'⟩
    simpa using Derives.ifElse hi hl hc hr hs he hm
  · refine ⟨true, by simpa using Derives.ifThen hi hl hc hr hs, fun _ t' ht' he => ?_⟩
    obtain rfl : t = t' := by simpa [ht'] using ht.symm
    have := hk (by simpa using he)
    rw [he] at this
    cases this

theorem returnRule (h : ExpressionsRead origin deep below) {keyword : Token}
    (hk : origin keyword) (hw : keyword.kind = .keyword .returnWord) :
    Reads (Cursor.Ready origin below.rounds) (deep + 1) 1 (returnRule below keyword)
      (Node.Proper origin (.statement false))
      (fun ts _ n => Derives (.statement false) (keyword :: ts) [n]) := by
  have hkeyword : (Likeness.proper origin).token .keyword keyword keyword :=
    ⟨rfl, hk, by simp [hw, Role.kinds]⟩
  rw [Rules.returnRule]
  refine Reads.imp (Reads.andThen (Reads.optionalClause h _ _) (fun o ho => Reads.pure ?_))
    (Nat.le_refl _) ?_
  · cases o with
    | none => exact .returnNil hkeyword
    | some n => exact .returnValue hkeyword (ho n rfl)
  · rintro ts rest n - ⟨_, _, o, rfl, ⟨us, s, rfl, ho, hs⟩, rfl, rfl⟩
    simpa using Derives.returning hw ho hs

theorem statementFrom (h : RulesRead origin deep below) {t : Token} (ht : origin t)
    (hk : t.kind ∈ statementStarts) :
    Reads (Cursor.Ready origin below.rounds) deep 0 (statementFrom below t)
      (Node.Proper origin (.statement false)) (fun us rest n => DerivesStatement (t :: us) rest n) := by
  have he : ExpressionsRead origin deep below := h.toExpressionsRead
  unfold Rules.statementFrom
  split
  · next hf => exact Reads.imp (Reads.forRule h) (Nat.zero_le _) fun _ _ _ _ hn => hn t hf
  · next hi => exact Reads.imp (Reads.ifRule h) (Nat.zero_le _) fun _ _ _ _ hn => hn t hi
  · next hp =>
    refine Reads.imp (Reads.andThen (Reads.shallower (Reads.endedBy he _))
      (fun n hn => Reads.pure (.printStmt hn)))
      (Nat.zero_le _) ?_
    rintro us rest n - ⟨_, _, m, rfl, ⟨vs, s, rfl, hm, hs⟩, rfl, rfl⟩
    exact ⟨false, by simpa using Derives.printing hp hm hs, by simp⟩
  · next hr =>
    refine Reads.imp (Reads.shallower (Reads.returnRule he ht hr))
      (Nat.zero_le _) ?_
    exact fun us rest n _ hn => ⟨false, hn, by simp⟩
  · next hw => exact Reads.imp (Reads.whileRule h) (Nat.zero_le _) fun _ _ _ _ hn => hn t hw
  · next h₁ h₂ h₃ h₄ h₅ =>
    have hb : t.kind = .leftBrace := by
      simp only [statementStarts, List.mem_cons, List.not_mem_nil, or_false] at hk
      tauto
    refine Reads.imp (Reads.andThen (Reads.blockRule h)
      (fun ns hns => Reads.pure (.block (List.forall₂_same.2 hns)))) (Nat.zero_le _) ?_
    rintro us rest n - ⟨_, _, ns, rfl, ⟨vs, r, rfl, hns, hr⟩, rfl, rfl⟩
    exact ⟨false, by simpa using Derives.block hb hns hr, by simp⟩

theorem statementRule (h : RulesRead origin deep below) :
    Reads (Cursor.Ready origin below.rounds) (deep + 1) 1 (statementRule below)
      (Node.Proper origin (.statement false)) DerivesStatement := by
  rw [Rules.statementRule]
  refine Reads.imp (Reads.accept (fun t ht hk => Reads.statementFrom h ht hk)
    (Reads.expressionStatement h.toExpressionsRead) (Nat.le_add_right _ _) (Nat.le_refl _)
    (Nat.le_refl _)) (Nat.le_refl _) ?_
  rintro ts rest n - (⟨t, us, rfl, -, hn⟩ | ⟨hn, -⟩)
  · exact hn
  · exact ⟨false, .evaluation hn, by simp⟩

theorem soundDeclaration (h : RulesRead origin deep below) :
    Reads (Cursor.Ready origin below.rounds) (deep + 1) 1 (soundDeclaration below)
      (Node.Proper origin (.statement true)) (fun ts _ n => Derives .declaration ts [n]) := by
  have starts : ∀ t, origin t → t.kind ∈ [.keyword .funWord, .keyword .varWord] →
      Reads (Cursor.Ready origin below.rounds) (deep + 1) 0
        (if t.kind = .keyword .funWord then Rules.functionRule below else Rules.variableRule below)
        (Node.Proper origin (.statement true))
        (fun us _ n => Derives .declaration (t :: us) [n]) := by
    intro t _ hk
    split
    · next hf => exact Reads.imp (Reads.functionRule h) (Nat.zero_le _) fun _ _ _ _ hn => hn t hf
    · next hf =>
      have hv : t.kind = .keyword .varWord := by simpa [hf] using hk
      exact Reads.imp (Reads.variableRule h.toExpressionsRead) (Nat.zero_le _)
        fun _ _ _ _ hn => .declareVariable (hn t hv)
  rw [Rules.soundDeclaration]
  refine Reads.imp (Reads.accept (fun t ht hk => starts t ht hk)
    ((Reads.statementRule h).weaken fun _ hn => hn.toBind) (Nat.le_add_right _ _)
    (Nat.le_add_right _ _) (Nat.le_refl _)) (Nat.le_refl _) ?_
  rintro ts rest n - (⟨t, us, rfl, -, hn⟩ | ⟨⟨d, hn, -⟩, -⟩)
  · exact hn
  · exact .statement hn

end Reads

end LoxLang
