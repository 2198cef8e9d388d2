import LoxLang.Proofs.Blame.Expression
import LoxLang.Proofs.Blame.Strict
import LoxLang.Proofs.Reading.Statement
/-!
# Statements and declarations that can be completed

Wherever a rule for statements gives up, the tokens that it has taken can be completed to what the
loosened grammar derives. A statement that ends in an `if` without `else` fits only where no `else` is
next; nothing else depends on what is ahead.
-/

namespace LoxLang

open Parse Rules

/-- The tokens make up a statement, and an `else` after it does not belong to it. -/
def LooselyStatement (ts rest : List Token) (n : Node) : Prop :=
  ∃ d, Loosely (.statement d) ts [n] ∧ (d = true → ¬ ElseAhead rest)

/-- Where the rules for what is nested give up, the tokens taken can be completed. -/
structure RulesTracked (rules : Rules) : Prop extends ExpressionsTracked rules where
  statement : Tracks rules.statement LooselyStatement
  declaration : Tracks rules.declaration
    (fun ts _ o => ∃ n, o = some n ∧ Loosely .declaration ts [n])

/-- A declaration and more declarations. -/
theorem Loosely.nextDeclaration {ts us : List Token} {n : Node} {ns : List Node}
    (h : Loosely .declaration ts [n]) (h' : Loosely .declarations us ns) :
    Loosely .declarations (ts ++ us) (n :: ns) := by
  intro k
  obtain ⟨xs, hxs⟩ := h k
  obtain ⟨ys, hys⟩ := h' (k + ts.length)
  exact ⟨_, .nextDeclaration hxs hys⟩

variable {below : Rules}

namespace Tracks

theorem endedBy (h : ExpressionsTracked below) (what : String) : Tracks (endedBy below what)
    (fun ts _ n => ∃ us s, ts = us ++ [s] ∧ Loosely .expression us [n] ∧ s.kind = .semicolon) := by
  rw [Rules.endedBy]
  refine ((Tracks.expressionRule h).bind fun n => (Tracks.expect (by simp) _).bind fun _ =>
    .pure n).imp ?_
  rintro ts rest n ⟨us, _, m, rfl, hm, _, _, s, rfl, ⟨rfl, hs⟩, rfl, rfl⟩
  exact ⟨us, s, by simp, hm, hs⟩

theorem expressionStatement (h : ExpressionsTracked below) : Tracks (expressionStatement below)
    (fun ts _ n => Loosely .expressionStatement ts [n]) := by
  rw [Rules.expressionStatement]
  refine ((Tracks.endedBy h _).bind fun n => Tracks.pure (Node.exprStmt n)).imp ?_
  rintro ts rest n ⟨_, _, m, rfl, ⟨us, s, rfl, hm, hs⟩, rfl, rfl⟩ k
  obtain ⟨xs, hxs⟩ := hm k
  exact ⟨xs, by simpa using Loose.expressionStatement hxs hs⟩

theorem variableRule (h : ExpressionsTracked below) : Tracks (variableRule below)
    (fun ts _ n => ∀ v, v.kind = .keyword .varWord → Loosely .variable (v :: ts) [n]) := by
  rw [Rules.variableRule]
  refine ((Tracks.expect (by simp) _).bind fun name => (Tracks.expect (by simp) _).bind fun _ =>
    (Tracks.endedBy h _).bind fun n => Tracks.pure (Node.varDecl name (some n))).imp ?_
  rintro ts rest n ⟨_, _, name, rfl, ⟨rfl, hname⟩, _, _, equals, rfl, ⟨rfl, hequals⟩, _, _, m,
    rfl, ⟨us, s, rfl, hm, hs⟩, rfl, rfl⟩ v hv k
  obtain ⟨xs, hxs⟩ := hm (k + 3)
  exact ⟨xs, by simpa using Loose.variable hv hname hequals hxs hs⟩

/-! ## Blocks and functions -/

/-- No more declarations. -/
theorem noMore : Tracks (pure []) (fun ts _ ns => Loosely .declarations ts ns) := by
  refine (Tracks.pure []).imp ?_
  rintro ts rest ns ⟨rfl, rfl⟩
  exact fun _ => ⟨[], .noDeclarations⟩

/-- One declaration and more of them. -/
theorem oneMore (h : RulesTracked below) {p : Parse (List Node)}
    (hp : Tracks p (fun ts _ ns => Loosely .declarations ts ns)) :
    Tracks (below.declaration >>= fun first => p >>= fun rest => pure (first.toList ++ rest))
      (fun ts _ ns => Loosely .declarations ts ns) := by
  refine (h.declaration.bind fun first => hp.bind fun rest => .pure (first.toList ++ rest)).imp ?_
  rintro ts rest ns ⟨us, _, _, rfl, ⟨n, rfl, hn⟩, vs, _, ms, rfl, hms, rfl, rfl⟩
  simpa using hn.nextDeclaration hms

theorem declarations (h : RulesTracked below) : ∀ rounds,
    Tracks (declarations below rounds) (fun ts _ ns => Loosely .declarations ts ns) := by
  intro rounds
  induction rounds with
  | zero => exact .throw (by simp) noMore.fills
  | succ rounds ih =>
    rw [Rules.declarations]
    refine ((Tracks.nextIs _).bind fun _ => Tracks.atEnd.bind fun _ => noMore.ite (oneMore h ih)).imp ?_
    rintro ts rest ns ⟨_, _, _, rfl, rfl, _, us, _, rfl, rfl, hns⟩
    exact hns

theorem blockRule (h : RulesTracked below) : Tracks (blockRule below)
    (fun ts _ ns => ∃ us r, ts = us ++ [r] ∧ Loosely .declarations us ns ∧ r.kind = .rightBrace) := by
  rw [Rules.blockRule]
  refine ((Tracks.declarations h _).bind fun ns => (Tracks.expect (by simp) _).bind fun _ =>
    .pure ns).imp ?_
  rintro ts rest ns ⟨us, _, ms, rfl, hms, _, _, r, rfl, ⟨rfl, hr⟩, rfl, rfl⟩
  exact ⟨us, r, by simp, hms, hr⟩

theorem functionRule (h : RulesTracked below) : Tracks (functionRule below)
    (fun ts _ n => ∀ f, f.kind = .keyword .funWord → Loosely .declaration (f :: ts) [n]) := by
  rw [Rules.functionRule]
  refine ((Tracks.expect (by simp) _).bind fun name => (Tracks.expect (by simp) _).bind fun _ =>
    Tracks.option _ (Tracks.separated (Tracks.expect (by simp) _) below.rounds 0) fun params =>
      (Tracks.expect (by simp) _).bind fun _ => (Tracks.expect (by simp) _).bind fun _ =>
        (Tracks.blockRule h).bind fun body => .pure (Node.funDecl name params body)).imp ?_
  rintro ts rest n ⟨_, _, name, rfl, ⟨rfl, hname⟩, _, _, l, rfl, ⟨rfl, hl⟩, ps, _, params, rfl,
    hparams, _, _, r, rfl, ⟨rfl, hr⟩, _, _, b, rfl, ⟨rfl, hb⟩, _, _, body, rfl,
    ⟨us, e, rfl, hbody, he⟩, rfl, rfl⟩ f hf k
  obtain ⟨xs, hxs⟩ := Parameters.loosely hparams (k + 3)
  obtain ⟨ys, hys⟩ := hbody (k + 3 + ps.length + 2)
  exact ⟨_, by simpa using Loose.declareFunction hf hname hl hxs hr hb hys he⟩

/-! ## Loops -/

theorem optionalClause (h : ExpressionsTracked below) {before : Kind}
    (hb : before ≠ .keyword .elseWord) (what : String) : Tracks (optionalClause below before what)
      (fun ts _ o => ∃ us s, ts = us ++ [s] ∧ Loosely .clause us o.toList ∧ s.kind = before) := by
  rw [Rules.optionalClause]
  refine (Tracks.option _ ((Tracks.expressionRule h).map some)
    fun o => (Tracks.expect hb _).bind fun _ => .pure o).imp ?_
  rintro ts rest o ⟨us, _, clause, rfl, hclause, _, _, s, rfl, ⟨rfl, hs⟩, rfl, rfl⟩
  refine ⟨us, s, by simp, ?_, hs⟩
  rcases hclause with ⟨rfl, rfl⟩ | ⟨n, rfl, hn⟩
  · exact fun _ => ⟨[], .noClause⟩
  · exact hn.lift fun _ _ h => .clause h

theorem forStart (h : ExpressionsTracked below) :
    Tracks (forStart below) (fun ts _ o => Loosely .start ts o.toList) := by
  have started : ∀ t, t.kind ∈ [.semicolon, .keyword .varWord] →
      Tracks (if t.kind = .semicolon then pure none else Rules.variableRule below >>= fun n =>
        pure (some n)) (fun ts _ o => Loosely .start (t :: ts) o.toList) := by
    intro t hk
    split
    · next hs =>
      refine (Tracks.pure none).imp ?_
      rintro ts rest _ ⟨rfl, rfl⟩ k
      exact ⟨[], .noStart hs⟩
    · next hs =>
      refine ((Tracks.variableRule h).bind fun n => .pure (some n)).imp ?_
      rintro ts rest _ ⟨us, _, n, rfl, hn, rfl, rfl⟩
      have hv : t.kind = .keyword .varWord := by simpa [hs] using hk
      rw [List.append_nil]
      exact (hn t hv).lift fun _ _ h => .startVariable h
  rw [Rules.forStart]
  refine (Tracks.accept started ((Tracks.expressionStatement h).bind fun n =>
    .pure (some n))).imp ?_
  rintro ts rest o (⟨t, us, rfl, -, ho⟩ | ⟨us, _, n, rfl, hn, rfl, rfl⟩)
  · exact ho
  · rw [List.append_nil]
    exact hn.lift fun _ _ h => .startExpression h

theorem forClauses (h : RulesTracked below) : Tracks (forClauses below) (fun ts rest c =>
    ∀ f, f.kind = .keyword .forWord → LooselyStatement (f :: ts) rest c.desugared) := by
  have he : ExpressionsTracked below := h.toExpressionsTracked
  rw [Rules.forClauses]
  refine ((Tracks.expect (by simp) _).bind fun _ => (Tracks.forStart he).bind fun start =>
    (Tracks.optionalClause he (by simp) _).bind fun condition =>
      (Tracks.optionalClause he (by simp) _).bind fun increment => h.statement.bind fun body =>
        .pure (ForClauses.mk start condition increment body)).imp ?_
  rintro ts rest c ⟨_, _, l, rfl, ⟨rfl, hl⟩, ss, _, start, rfl, hstart, _, _, condition, rfl,
    ⟨us, s, rfl, hcondition, hs⟩, _, _, increment, rfl, ⟨vs, r, rfl, hincrement, hr⟩, ws, _, body,
    rfl, ⟨d, hbody, hd⟩, rfl, rfl⟩ f hf
  refine ⟨d, fun k => ?_, by simpa using hd⟩
  obtain ⟨xs, hxs⟩ := hstart (k + 2)
  obtain ⟨ys, hys⟩ := hcondition (k + 2 + ss.length)
  obtain ⟨zs, hzs⟩ := hincrement (k + 2 + ss.length + us.length + 1)
  obtain ⟨ws', hws⟩ := hbody (k + 2 + ss.length + us.length + 1 + vs.length + 1)
  rw [← whileForm_toList]
  exact ⟨_, by simpa using Loose.forLoop hf hl hxs hys hs hzs hr hws⟩

theorem forRule (h : RulesTracked below) : Tracks (forRule below) (fun ts rest n =>
    ∀ f, f.kind = .keyword .forWord → LooselyStatement (f :: ts) rest n) := by
  rw [Rules.forRule]
  refine ((Tracks.forClauses h).map ForClauses.desugared).imp ?_
  rintro ts rest _ ⟨c, rfl, hc⟩
  exact hc

theorem whileRule (h : RulesTracked below) : Tracks (whileRule below) (fun ts rest n =>
    ∀ w, w.kind = .keyword .whileWord → LooselyStatement (w :: ts) rest n) := by
  rw [Rules.whileRule]
  refine ((Tracks.expect (by simp) _).bind fun _ =>
    (Tracks.expressionRule h.toExpressionsTracked).bind fun c => (Tracks.expect (by simp) _).bind
      fun _ => h.statement.bind fun body => .pure (Node.whileStmt c body)).imp ?_
  rintro ts rest n ⟨_, _, l, rfl, ⟨rfl, hl⟩, us, _, c, rfl, hc, _, _, r, rfl, ⟨rfl, hr⟩, vs, _,
    body, rfl, ⟨d, hbody, hd⟩, rfl, rfl⟩ w hw
  refine ⟨d, fun k => ?_, by simpa using hd⟩
  obtain ⟨xs, hxs⟩ := hc (k + 2)
  obtain ⟨ys, hys⟩ := hbody (k + 2 + us.length + 1)
  exact ⟨_, by simpa using Loose.whileLoop hw hl hxs hr hys⟩

/-! ## Other statements -/

theorem ifRule (h : RulesTracked below) : Tracks (ifRule below) (fun ts rest n =>
    ∀ i, i.kind = .keyword .ifWord → LooselyStatement (i :: ts) rest n) := by
  rw [Rules.ifRule]
  refine ((Tracks.expect (by simp) _).bind fun _ =>
    (Tracks.expressionRule h.toExpressionsTracked).bind fun c => (Tracks.expect (by simp) _).bind
      fun _ => h.statement.bind fun s => Tracks.orElse (b := Node.ifStmt c s none)
        (fun _ _ => h.statement.bind fun e => .pure (Node.ifStmt c s (some e))) rfl).imp ?_
  rintro ts rest n ⟨_, _, l, rfl, ⟨rfl, hl⟩, us, _, c, rfl, hc, _, _, r, rfl, ⟨rfl, hr⟩, vs, _,
    s, rfl, ⟨d, hs, hd⟩, hbranch⟩ i hi
  rcases hbranch with ⟨e, _, rfl, he, ws, _, m, rfl, ⟨d', hm, hd'⟩, rfl, rfl⟩ | ⟨rfl, rfl, hrest⟩
  · -- The `else` was ahead when the first branch ended, so that branch could not have taken it.
    obtain rfl : d = false := by
      cases d with
      | false => rfl
      | true => exact absurd he (hd rfl)
    refine ⟨d', fun k => ?_, by simpa using hd'⟩
    obtain ⟨xs, hxs⟩ := hc (k + 2)
    obtain ⟨ys, hys⟩ := hs (k + 2 + us.length + 1)
    obtain ⟨zs, hzs⟩ := hm (k + 2 + us.length + 1 + vs.length + 1)
    exact ⟨_, by simpa using Loose.ifElse hi hl hxs hr hys he hzs⟩
  · refine ⟨true, fun k => ?_, fun _ => hrest⟩
    obtain ⟨xs, hxs⟩ := hc (k + 2)
    obtain ⟨ys, hys⟩ := hs (k + 2 + us.length + 1)
    exact ⟨_, by simpa using Loose.ifThen hi hl hxs hr hys⟩

theorem returnRule (h : ExpressionsTracked below) {keyword : Token}
    (hw : keyword.kind = .keyword .returnWord) : Tracks (returnRule below keyword)
      (fun ts _ n => Loosely (.statement false) (keyword :: ts) [n]) := by
  rw [Rules.returnRule]
  refine ((Tracks.optionalClause h (by simp) _).bind fun o =>
    Tracks.pure (Node.returnStmt keyword o)).imp ?_
  rintro ts rest n ⟨_, _, o, rfl, ⟨us, s, rfl, ho, hs⟩, rfl, rfl⟩ k
  obtain ⟨xs, hxs⟩ := ho (k + 1)
  exact ⟨xs, by simpa using Loose.returning hw hxs hs⟩

theorem statementFrom (h : RulesTracked below) {t : Token} (hk : t.kind ∈ statementStarts) :
    Tracks (statementFrom below t) (fun us rest n => LooselyStatement (t :: us) rest n) := by
  have he : ExpressionsTracked below := h.toExpressionsTracked
  unfold Rules.statementFrom
  split
  · next hf => exact (Tracks.forRule h).imp fun _ _ _ hn => hn t hf
  · next hi => exact (Tracks.ifRule h).imp fun _ _ _ hn => hn t hi
  · next hp =>
    refine ((Tracks.endedBy he _).bind fun n => Tracks.pure (Node.printStmt n)).imp ?_
    rintro us rest n ⟨_, _, m, rfl, ⟨vs, s, rfl, hm, hs⟩, rfl, rfl⟩
    refine ⟨false, fun k => ?_, by simp⟩
    obtain ⟨xs, hxs⟩ := hm (k + 1)
    exact ⟨xs, by simpa using Loose.printing hp hxs hs⟩
  · next hr => exact (Tracks.returnRule he hr).imp fun _ _ _ hn => ⟨false, hn, by simp⟩
  · next hw => exact (Tracks.whileRule h).imp fun _ _ _ hn => hn t hw
  · next h₁ h₂ h₃ h₄ h₅ =>
    have hb : t.kind = .leftBrace := by
      simp only [statementStarts, List.mem_cons, List.not_mem_nil, or_false] at hk
      tauto
    refine ((Tracks.blockRule h).bind fun ns => Tracks.pure (Node.block ns)).imp ?_
    rintro us rest n ⟨_, _, ns, rfl, ⟨vs, r, rfl, hns, hr⟩, rfl, rfl⟩
    refine ⟨false, fun k => ?_, by simp⟩
    obtain ⟨xs, hxs⟩ := hns (k + 1)
    exact ⟨xs, by simpa using Loose.block hb hxs hr⟩

theorem statementRule (h : RulesTracked below) :
    Tracks (statementRule below) LooselyStatement := by
  rw [Rules.statementRule]
  refine (Tracks.accept (fun t hk => Tracks.statementFrom h hk)
    (Tracks.expressionStatement h.toExpressionsTracked)).imp ?_
  rintro ts rest n (⟨t, us, rfl, -, hn⟩ | hn)
  · exact hn
  · exact ⟨false, hn.lift fun _ _ h => .evaluation h, by simp⟩

theorem soundDeclaration (h : RulesTracked below) :
    Tracks (soundDeclaration below) (fun ts _ n => Loosely .declaration ts [n]) := by
  have starts : ∀ t, t.kind ∈ [.keyword .funWord, .keyword .varWord] →
      Tracks (if t.kind = .keyword .funWord then Rules.functionRule below
        else Rules.variableRule below) (fun us _ n => Loosely .declaration (t :: us) [n]) := by
    intro t hk
    split
    · next hf => exact (Tracks.functionRule h).imp fun _ _ _ hn => hn t hf
    · next hf =>
      have hv : t.kind = .keyword .varWord := by simpa [hf] using hk
      exact (Tracks.variableRule h.toExpressionsTracked).imp
        fun _ _ _ hn => (hn t hv).lift fun _ _ h => .declareVariable h
  rw [Rules.soundDeclaration]
  refine (Tracks.accept starts (Tracks.statementRule h)).imp ?_
  rintro ts rest n (⟨t, us, rfl, -, hn⟩ | ⟨d, hn, -⟩)
  · exact hn
  · exact hn.lift fun _ _ h => .statement h

end Tracks

/-! ## Layers -/

/-- The lowest layer gives up at once; a name could have followed. -/
theorem RulesTracked.floor (rounds : Nat) : RulesTracked (Rules.floor rounds) := by
  let name : Token := ⟨.identifier, "", .nil, 1⟩
  let semicolon : Token := ⟨.semicolon, ";", .nil, 1⟩
  have operand : Loosely .unary [name] [.ident name] := .name rfl
  have statement : Loosely (.statement false) [name, semicolon] [.exprStmt (.ident name)] := by
    intro k
    obtain ⟨xs, hxs⟩ := operand.expression k
    exact ⟨xs, .evaluation (.expressionStatement hxs rfl)⟩
  refine ⟨⟨.throw (by simp) ?_, .throw (by simp) ?_⟩, .throw (by simp) ?_, .throw (by simp) ?_⟩
  · exact ⟨[name], _, by simp [name], fun _ _ => operand.expression⟩
  · exact ⟨[name], _, by simp [name], fun _ _ => operand⟩
  · exact ⟨[name, semicolon], _, by simp [name], fun _ _ => ⟨false, statement, by simp⟩⟩
  · exact ⟨[name, semicolon], some _, by simp [name],
      fun _ _ => ⟨_, rfl, statement.lift fun _ _ h => .statement h⟩⟩

theorem RulesTracked.strictAtop (rounds : Nat) :
    ∀ nesting, RulesTracked (Rules.strictAtop rounds nesting)
  | 0 => .floor rounds
  | nesting + 1 => by
    have below := RulesTracked.strictAtop rounds nesting
    refine ⟨⟨.expressionRule below.toExpressionsTracked, .unaryRule below.toExpressionsTracked⟩,
      .statementRule below, ((Tracks.soundDeclaration below).map some).imp ?_⟩
    rintro ts rest _ ⟨n, rfl, hn⟩
    exact ⟨n, rfl, hn⟩

end LoxLang
