import LoxLang.Proofs.Grammar.Derivation
import LoxLang.Proofs.Node.Alike
/-!
# Derivations on other lines

The grammar does not look at lines. Tokens that are moved to other lines make up the same phrase,
which stands for trees that differ in lines only.
-/

namespace LoxLang

/-- Tokens that differ in their lines only. -/
def Token.Relined (t t' : Token) : Prop :=
  t.kind = t'.kind ∧ t.lexeme = t'.lexeme ∧ t.literal = t'.literal

/-- Trees that differ in the lines of their tokens only. -/
def Likeness.relined : Likeness where
  token _ t t' := t.Relined t'
  literal _ := True
  misplaced := True

/-- Where the trees that a phrase stands for belong. -/
def Phrase.site : Phrase → Site
  | .expression | .level _ | .unary | .call | .primary | .arguments | .clause => .expression
  | .expressionStatement | .variable | .start | .statement _ | .declaration | .declarations =>
    .statement true

theorem Phrase.site_operand (p : Precedence) : p.operand.site = .expression := by
  cases p <;> rfl

/-- Two lists of trees that differ in lines only. -/
abbrev Node.AllRelined (s : Site) : List Node → List Node → Prop := List.Forall₂ (Node.Alike .relined s)

theorem Separated.map {α β : Type} {item : List Token → α → Prop} {item' : List Token → β → Prop}
    {f : Token → Token} {g : α → β} (hf : ∀ t, (f t).kind = t.kind)
    (hi : ∀ ts a, item ts a → item' (ts.map f) (g a)) {ts : List Token} {as : List α}
    (h : Separated item ts as) : Separated item' (ts.map f) (as.map g) := by
  induction h with
  | last h => exact .last (hi _ _ h)
  | next h hk _ ih =>
    rw [List.map_append, List.map_cons]
    exact .next (hi _ _ h) (by rw [hf, hk]) ih

theorem Parameters.map {f : Token → Token} (hf : ∀ t, (f t).kind = t.kind) {ts ps : List Token}
    (h : Parameters ts ps) : Parameters (ts.map f) (ps.map f) := by
  rcases h with ⟨rfl, rfl⟩ | h
  · exact .inl ⟨rfl, rfl⟩
  · refine .inr (h.map hf ?_)
    rintro _ t ⟨rfl, hk⟩
    exact ⟨rfl, by rw [hf, hk]⟩

theorem Precedence.build_alike {l : Likeness} {p : Precedence} {a a' b b' : Node} {t t' : Token}
    (ha : Node.Alike l .expression a a') (ht : ∀ r, l.token r t t')
    (hb : Node.Alike l .expression b b') :
    Node.Alike l .expression (p.build a t b) (p.build a' t' b') := by
  cases p with
  | disjunction | conjunction => exact .logical ha (ht _) hb
  | _ => exact .binary ha (ht _) hb

theorem whileForm_alike {l : Likeness} (hl : ∀ b, l.literal (.bool b))
    {start start' condition condition' increment increment' : List Node} {body body' : Node}
    (hs : List.Forall₂ (Node.Alike l (.statement true)) start start')
    (hc : List.Forall₂ (Node.Alike l .expression) condition condition')
    (hi : List.Forall₂ (Node.Alike l .expression) increment increment')
    (hb : Node.Alike l (.statement true) body body') :
    Node.Alike l (.statement true) (whileForm start condition increment body)
      (whileForm start' condition' increment' body') := by
  have hcondition : Node.Alike l .expression (condition.headD (.literal (.bool true)))
      (condition'.headD (.literal (.bool true))) := by
    cases hc with
    | nil => exact .literal (hl true)
    | cons h _ => exact h
  have hturn : Node.Alike l (.statement true)
      (if increment = [] then body else .block (body :: increment.map .exprStmt))
      (if increment' = [] then body' else .block (body' :: increment'.map .exprStmt)) := by
    cases hi with
    | nil => exact hb
    | cons h hs =>
      refine .block (.cons hb (.cons (.exprStmt h) ?_))
      induction hs with
      | nil => exact .nil
      | cons h _ ih => exact .cons (.exprStmt h) ih
  have hloop := Node.Alike.whileStmt hcondition hturn
  cases hs with
  | nil => exact hloop
  | cons h hs => exact .block (.cons h (List.rel_append hs (.cons hloop .nil)))

namespace Derives

variable {f : Token → Token}

/-- Tokens on other lines make up the same phrase. -/
theorem relined (hf : ∀ t : Token, t.Relined (f t)) {ph : Phrase} {ts : List Token} {ns : List Node}
    (h : Derives ph ts ns) : ∃ ns', Derives ph (ts.map f) ns' ∧ Node.AllRelined ph.site ns ns' := by
  have kind : ∀ t, (f t).kind = t.kind := fun t => (hf t).1.symm
  have one : ∀ {ph us n s}, (∃ ns', Derives ph us ns' ∧ Node.AllRelined s [n] ns') →
      ∃ n', Derives ph us [n'] ∧ Node.Alike .relined s n n' := by
    rintro ph us n s ⟨_, hd, hn⟩
    cases hn with
    | cons hn hnil =>
      cases hnil
      exact ⟨_, hd, hn⟩
  -- One case for each rule: the parts are derived again, and the trees are put together as before.
  induction h with
  | assignment hn he _ ih =>
    obtain ⟨n', hd, hn'⟩ := one ih
    exact ⟨_, .assignment (by rw [kind, hn]) (by rw [kind, he]) hd, .cons (.assign (hf _) hn') .nil⟩
  | operation _ ih =>
    obtain ⟨n', hd, hn'⟩ := one ih
    exact ⟨_, .operation hd, .cons hn' .nil⟩
  | operand _ ih =>
    rw [Phrase.site_operand] at ih
    obtain ⟨n', hd, hn'⟩ := one ih
    exact ⟨_, .operand hd, .cons hn' .nil⟩
  | fold _ hk _ iha ihb =>
    rw [Phrase.site_operand] at ihb
    obtain ⟨a', hda, ha⟩ := one iha
    obtain ⟨b', hdb, hb⟩ := one ihb
    rw [List.map_append, List.map_cons]
    exact ⟨_, .fold hda (by rwa [kind]) hdb,
      .cons (Precedence.build_alike ha (fun _ => hf _) hb) .nil⟩
  | unary hk _ ih =>
    obtain ⟨n', hd, hn'⟩ := one ih
    exact ⟨_, .unary (by rwa [kind]) hd, .cons (.unary (hf _) hn') .nil⟩
  | callee _ ih =>
    obtain ⟨n', hd, hn'⟩ := one ih
    exact ⟨_, .callee hd, .cons hn' .nil⟩
  | primary _ ih =>
    obtain ⟨n', hd, hn'⟩ := one ih
    exact ⟨_, .primary hd, .cons hn' .nil⟩
  | emptyCall _ hl hr ih =>
    obtain ⟨n', hd, hn'⟩ := one ih
    rw [List.map_append]
    exact ⟨_, .emptyCall hd (by rw [kind, hl]) (by rw [kind, hr]),
      .cons (.call hn' (hf _) .nil) .nil⟩
  | call _ hl _ hlen hr ih ihas =>
    obtain ⟨n', hd, hn'⟩ := one ih
    obtain ⟨as', has, has'⟩ := ihas
    rw [List.map_append, List.map_cons, List.map_append]
    exact ⟨_, .call hd (by rw [kind, hl]) has (by rw [← has'.length_eq]; exact hlen)
      (by rw [kind, hr]), .cons (.call hn' (hf _) has') .nil⟩
  | lastArgument _ ih =>
    obtain ⟨n', hd, hn'⟩ := one ih
    exact ⟨_, .lastArgument hd, .cons hn' .nil⟩
  | nextArgument _ hk _ ih ihs =>
    obtain ⟨n', hd, hn'⟩ := one ih
    obtain ⟨ns', hds, hns⟩ := ihs
    rw [List.map_append, List.map_cons]
    exact ⟨_, .nextArgument hd (by rw [kind, hk]) hds, .cons hn' hns⟩
  | falseWord hk => exact ⟨_, .falseWord (by rw [kind, hk]), .cons (.literal trivial) .nil⟩
  | trueWord hk => exact ⟨_, .trueWord (by rw [kind, hk]), .cons (.literal trivial) .nil⟩
  | nilWord hk => exact ⟨_, .nilWord (by rw [kind, hk]), .cons (.literal trivial) .nil⟩
  | @literal t hk =>
    refine ⟨_, .literal (by rwa [kind]), ?_⟩
    rw [← (hf t).2.2]
    exact .cons (.literal trivial) .nil
  | name hk => exact ⟨_, .name (by rw [kind, hk]), .cons (.ident (hf _)) .nil⟩
  | grouping hl _ hr ih =>
    obtain ⟨n', hd, hn'⟩ := one ih
    rw [List.map_cons, List.map_append]
    exact ⟨_, .grouping (by rw [kind, hl]) hd (by rw [kind, hr]), .cons (.grouping hn') .nil⟩
  | noClause => exact ⟨_, .noClause, .nil⟩
  | clause _ ih =>
    obtain ⟨n', hd, hn'⟩ := one ih
    exact ⟨_, .clause hd, .cons hn' .nil⟩
  | expressionStatement _ hs ih =>
    obtain ⟨n', hd, hn'⟩ := one ih
    rw [List.map_append]
    exact ⟨_, .expressionStatement hd (by rw [kind, hs]), .cons (.exprStmt hn') .nil⟩
  | «variable» hv hn he _ hs ih =>
    obtain ⟨n', hd, hn'⟩ := one ih
    rw [List.map_cons, List.map_cons, List.map_cons, List.map_append]
    exact ⟨_, .variable (by rw [kind, hv]) (by rw [kind, hn]) (by rw [kind, he]) hd
      (by rw [kind, hs]), .cons (.varValue (hf _) hn') .nil⟩
  | noStart hs => exact ⟨_, .noStart (by rw [kind, hs]), .nil⟩
  | startVariable _ ih =>
    obtain ⟨n', hd, hn'⟩ := one ih
    exact ⟨_, .startVariable hd, .cons hn' .nil⟩
  | startExpression _ ih =>
    obtain ⟨n', hd, hn'⟩ := one ih
    exact ⟨_, .startExpression hd, .cons hn' .nil⟩
  | evaluation _ ih =>
    obtain ⟨n', hd, hn'⟩ := one ih
    exact ⟨_, .evaluation hd, .cons hn' .nil⟩
  | printing hp _ hs ih =>
    obtain ⟨n', hd, hn'⟩ := one ih
    rw [List.map_cons, List.map_append]
    exact ⟨_, .printing (by rw [kind, hp]) hd (by rw [kind, hs]), .cons (.printStmt hn') .nil⟩
  | returning hr hc hs ih =>
    obtain ⟨ns', hd, hns⟩ := ih
    rw [List.map_cons, List.map_append]
    refine ⟨_, .returning (by rw [kind, hr]) hd (by rw [kind, hs]), .cons ?_ .nil⟩
    cases hns with
    | nil => exact .returnNil (hf _)
    | cons hn _ => exact .returnValue (hf _) hn
  | block hl _ hr ih =>
    obtain ⟨ns', hd, hns⟩ := ih
    rw [List.map_cons, List.map_append]
    exact ⟨_, .block (by rw [kind, hl]) hd (by rw [kind, hr]), .cons (.block hns) .nil⟩
  | whileLoop hw hl _ hr _ ihc ih =>
    obtain ⟨c', hdc, hc⟩ := one ihc
    obtain ⟨n', hd, hn⟩ := one ih
    rw [List.map_cons, List.map_cons, List.map_append, List.map_cons]
    exact ⟨_, .whileLoop (by rw [kind, hw]) (by rw [kind, hl]) hdc (by rw [kind, hr]) hd,
      .cons (.whileStmt hc hn) .nil⟩
  | forLoop hw hl _ _ hs _ hr _ ihstart ihc ihi ih =>
    obtain ⟨start', hdstart, hstart⟩ := ihstart
    obtain ⟨c', hdc, hc⟩ := ihc
    obtain ⟨i', hdi, hi⟩ := ihi
    obtain ⟨n', hd, hn⟩ := one ih
    rw [List.map_cons, List.map_cons, List.map_append, List.map_append, List.map_cons,
      List.map_append, List.map_cons]
    exact ⟨_, .forLoop (by rw [kind, hw]) (by rw [kind, hl]) hdstart hdc (by rw [kind, hs]) hdi
      (by rw [kind, hr]) hd, .cons (whileForm_alike (fun _ => trivial) hstart hc hi hn) .nil⟩
  | ifThen hi hl _ hr _ ihc ih =>
    obtain ⟨c', hdc, hc⟩ := one ihc
    obtain ⟨n', hd, hn⟩ := one ih
    rw [List.map_cons, List.map_cons, List.map_append, List.map_cons]
    exact ⟨_, .ifThen (by rw [kind, hi]) (by rw [kind, hl]) hdc (by rw [kind, hr]) hd,
      .cons (.ifThen hc hn) .nil⟩
  | ifElse hi hl _ hr _ he _ ihc ih ihelse =>
    obtain ⟨c', hdc, hc⟩ := one ihc
    obtain ⟨n', hd, hn⟩ := one ih
    obtain ⟨m', hdm, hm⟩ := one ihelse
    rw [List.map_cons, List.map_cons, List.map_append, List.map_cons, List.map_append,
      List.map_cons]
    exact ⟨_, .ifElse (by rw [kind, hi]) (by rw [kind, hl]) hdc (by rw [kind, hr]) hd
      (by rw [kind, he]) hdm, .cons (.ifElse hc hn hm) .nil⟩
  | declareVariable _ ih =>
    obtain ⟨n', hd, hn'⟩ := one ih
    exact ⟨_, .declareVariable hd, .cons hn' .nil⟩
  | declareFunction hw hn hl hps hlen hr hb _ he ih =>
    obtain ⟨ns', hd, hns⟩ := ih
    rw [List.map_cons, List.map_cons, List.map_cons, List.map_append, List.map_cons,
      List.map_cons, List.map_append]
    refine ⟨_, .declareFunction (by rw [kind, hw]) (by rw [kind, hn]) (by rw [kind, hl])
      (hps.map kind) (by rw [List.length_map]; exact hlen) (by rw [kind, hr]) (by rw [kind, hb]) hd
      (by rw [kind, he]), .cons (.funDecl (hf _) ?_ hns) .nil⟩
    exact List.forall₂_map_right_iff.2 (List.forall₂_same.2 fun p _ => hf p)
  | statement _ ih =>
    obtain ⟨n', hd, hn'⟩ := one ih
    exact ⟨_, .statement hd, .cons hn' .nil⟩
  | noDeclarations => exact ⟨_, .noDeclarations, .nil⟩
  | nextDeclaration _ _ ih ihs =>
    obtain ⟨n', hd, hn'⟩ := one ih
    obtain ⟨ns', hds, hns⟩ := ihs
    rw [List.map_append]
    exact ⟨_, .nextDeclaration hd hds, .cons hn' hns⟩

/-- Declarations one after the other are declarations. -/
theorem declarations_append {ts us : List Token} {ns ms : List Node}
    (h : Derives .declarations ts ns) (h' : Derives .declarations us ms) :
    Derives .declarations (ts ++ us) (ns ++ ms) := by
  refine Derives.declarations_induction ?nil ?cons h
  case nil => exact h'
  case cons =>
    intro ts n us ns hn _ ih
    rw [List.append_assoc]
    exact .nextDeclaration hn ih

end Derives

end LoxLang
