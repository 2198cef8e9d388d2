import LoxLang.Grammar.Cursor
import LoxLang.Proofs.Grammar.Derivation
/-!
# The loosened grammar

The grammar without two of its limits: a list may have any length, and any operation may stand to the
left of an equals sign. What goes beyond the limits is objected to, and the rules say at which tokens
and in which order. The grammar itself is what can be derived without an objection.
-/

namespace LoxLang

/-- Whether a declaration is given up where the objection is made. -/
def Objection.isFatal : Objection → Bool
  | expected _ => true
  | _ => false

/-- The objection to an item of a list after which so many have come before: to each beyond the
255th, at its first token. The item starts at place `k`. -/
def surplus (what : String) (count k : Nat) (ts : List Token) : List Complaint :=
  if count < 255 then [] else ts.head?.toList.map fun t => ⟨k, t, .tooMany what⟩

/-- Items with commas between them, from place `k` on, with the objections to them. -/
inductive Enumerated {α : Type} (what : String)
    (item : Nat → List Token → α → List Complaint → Prop) (k : Nat) :
    List Token → List α → List Complaint → Prop
  | first {ts a xs} : item k ts a xs → Enumerated what item k ts [a] xs
  | next {ts as xs comma us a ys} : Enumerated what item k ts as xs → comma.kind = .comma →
      item (k + ts.length + 1) us a ys →
      Enumerated what item k (ts ++ comma :: us) (as ++ [a])
        (xs ++ (surplus what as.length (k + ts.length + 1) us ++ ys))

/-- The parameters of a function, however many. -/
def LooseParameters (k : Nat) (ts params : List Token) (xs : List Complaint) : Prop :=
  (ts = [] ∧ params = [] ∧ xs = []) ∨
    Enumerated "parameters" (fun _ us t ys => us = [t] ∧ t.kind = .identifier ∧ ys = []) k ts params xs

/-- The tokens, which start at place `k`, make up the phrase of the loosened grammar. The phrase
stands for the trees, and these are the objections to it. Where something is assigned to what is no
name, the tree is that of the left side. -/
inductive Loose : Nat → Phrase → List Token → List Node → List Complaint → Prop
  | assignment {k name equals ts n xs} : name.kind = .identifier → equals.kind = .equal →
      Loose (k + 2) .expression ts [n] xs →
      Loose k .expression (name :: equals :: ts) [.assign name n] xs
  | misassignment {k ts a xs equals us b ys} : Loose k (.level .disjunction) ts [a] xs →
      (∀ name, a ≠ .ident name) → equals.kind = .equal →
      Loose (k + ts.length + 1) .expression us [b] ys →
      Loose k .expression (ts ++ equals :: us) [a]
        (xs ++ (ys ++ [⟨k + ts.length, equals, .invalidTarget⟩]))
  | operation {k ts n xs} : Loose k (.level .disjunction) ts [n] xs → Loose k .expression ts [n] xs
  | operand {k p ts n xs} : Loose k p.operand ts [n] xs → Loose k (.level p) ts [n] xs
  | fold {k p ts a xs operator us b ys} : Loose k (.level p) ts [a] xs →
      operator.kind ∈ p.operators → Loose (k + ts.length + 1) p.operand us [b] ys →
      Loose k (.level p) (ts ++ operator :: us) [p.build a operator b] (xs ++ ys)
  | unary {k operator ts n xs} : operator.kind = .bang ∨ operator.kind = .minus →
      Loose (k + 1) .unary ts [n] xs → Loose k .unary (operator :: ts) [.unary operator n] xs
  | callee {k ts n xs} : Loose k .call ts [n] xs → Loose k .unary ts [n] xs
  | primary {k ts n xs} : Loose k .primary ts [n] xs → Loose k .call ts [n] xs
  | emptyCall {k ts f xs l r} : Loose k .call ts [f] xs → l.kind = .leftParen →
      r.kind = .rightParen → Loose k .call (ts ++ [l, r]) [.call f r []] xs
  | call {k ts f xs l us as ys r} : Loose k .call ts [f] xs → l.kind = .leftParen →
      Loose (k + ts.length + 1) .arguments us as ys → r.kind = .rightParen →
      Loose k .call (ts ++ l :: (us ++ [r])) [.call f r as] (xs ++ ys)
  | firstArgument {k ts n xs} : Loose k .expression ts [n] xs → Loose k .arguments ts [n] xs
  | nextArgument {k ts as xs comma us n ys} : Loose k .arguments ts as xs → comma.kind = .comma →
      Loose (k + ts.length + 1) .expression us [n] ys →
      Loose k .arguments (ts ++ comma :: us) (as ++ [n])
        (xs ++ (surplus "arguments" as.length (k + ts.length + 1) us ++ ys))
  | falseWord {k t} : t.kind = .keyword .falseWord → Loose k .primary [t] [.literal (.bool false)] []
  | trueWord {k t} : t.kind = .keyword .trueWord → Loose k .primary [t] [.literal (.bool true)] []
  | nilWord {k t} : t.kind = .keyword .nilWord → Loose k .primary [t] [.literal .nil] []
  | literal {k t} : t.kind = .number ∨ t.kind = .string →
      Loose k .primary [t] [.literal t.literal] []
  | name {k t} : t.kind = .identifier → Loose k .primary [t] [.ident t] []
  | grouping {k l ts n xs r} : l.kind = .leftParen → Loose (k + 1) .expression ts [n] xs →
      r.kind = .rightParen → Loose k .primary (l :: (ts ++ [r])) [.grouping n] xs
  | noClause {k} : Loose k .clause [] [] []
  | clause {k ts n xs} : Loose k .expression ts [n] xs → Loose k .clause ts [n] xs
  | expressionStatement {k ts n xs s} : Loose k .expression ts [n] xs → s.kind = .semicolon →
      Loose k .expressionStatement (ts ++ [s]) [.exprStmt n] xs
  | variable {k v name equals ts n xs s} : v.kind = .keyword .varWord → name.kind = .identifier →
      equals.kind = .equal → Loose (k + 3) .expression ts [n] xs → s.kind = .semicolon →
      Loose k .variable (v :: name :: equals :: (ts ++ [s])) [.varDecl name (some n)] xs
  | noStart {k s} : s.kind = .semicolon → Loose k .start [s] [] []
  | startVariable {k ts n xs} : Loose k .variable ts [n] xs → Loose k .start ts [n] xs
  | startExpression {k ts n xs} : Loose k .expressionStatement ts [n] xs → Loose k .start ts [n] xs
  | evaluation {k ts n xs} : Loose k .expressionStatement ts [n] xs →
      Loose k (.statement false) ts [n] xs
  | printing {k p ts n xs s} : p.kind = .keyword .printWord → Loose (k + 1) .expression ts [n] xs →
      s.kind = .semicolon → Loose k (.statement false) (p :: (ts ++ [s])) [.printStmt n] xs
  | returning {k r ts ns xs s} : r.kind = .keyword .returnWord → Loose (k + 1) .clause ts ns xs →
      s.kind = .semicolon → Loose k (.statement false) (r :: (ts ++ [s])) [.returnStmt r ns.head?] xs
  | block {k l ts ns xs r} : l.kind = .leftBrace → Loose (k + 1) .declarations ts ns xs →
      r.kind = .rightBrace → Loose k (.statement false) (l :: (ts ++ [r])) [.block ns] xs
  | whileLoop {k w l ts c xs r us d n ys} : w.kind = .keyword .whileWord → l.kind = .leftParen →
      Loose (k + 2) .expression ts [c] xs → r.kind = .rightParen →
      Loose (k + 2 + ts.length + 1) (.statement d) us [n] ys →
      Loose k (.statement d) (w :: l :: (ts ++ r :: us)) [.whileStmt c n] (xs ++ ys)
  | forLoop {k f l ts start xs us condition ys s vs increment zs r ws d n ws'} :
      f.kind = .keyword .forWord → l.kind = .leftParen → Loose (k + 2) .start ts start xs →
      Loose (k + 2 + ts.length) .clause us condition ys → s.kind = .semicolon →
      Loose (k + 2 + ts.length + us.length + 1) .clause vs increment zs → r.kind = .rightParen →
      Loose (k + 2 + ts.length + us.length + 1 + vs.length + 1) (.statement d) ws [n] ws' →
      Loose k (.statement d) (f :: l :: (ts ++ (us ++ s :: (vs ++ r :: ws))))
        [whileForm start condition increment n] (xs ++ (ys ++ (zs ++ ws')))
  | ifThen {k i l ts c xs r us d n ys} : i.kind = .keyword .ifWord → l.kind = .leftParen →
      Loose (k + 2) .expression ts [c] xs → r.kind = .rightParen →
      Loose (k + 2 + ts.length + 1) (.statement d) us [n] ys →
      Loose k (.statement true) (i :: l :: (ts ++ r :: us)) [.ifStmt c n none] (xs ++ ys)
  | ifElse {k i l ts c xs r us n ys e vs d m zs} : i.kind = .keyword .ifWord →
      l.kind = .leftParen → Loose (k + 2) .expression ts [c] xs → r.kind = .rightParen →
      Loose (k + 2 + ts.length + 1) (.statement false) us [n] ys → e.kind = .keyword .elseWord →
      Loose (k + 2 + ts.length + 1 + us.length + 1) (.statement d) vs [m] zs →
      Loose k (.statement d) (i :: l :: (ts ++ r :: (us ++ e :: vs))) [.ifStmt c n (some m)]
        (xs ++ (ys ++ zs))
  | declareVariable {k ts n xs} : Loose k .variable ts [n] xs → Loose k .declaration ts [n] xs
  | declareFunction {k f name l ts params xs r b us body ys e} : f.kind = .keyword .funWord →
      name.kind = .identifier → l.kind = .leftParen → LooseParameters (k + 3) ts params xs →
      r.kind = .rightParen → b.kind = .leftBrace →
      Loose (k + 3 + ts.length + 2) .declarations us body ys → e.kind = .rightBrace →
      Loose k .declaration (f :: name :: l :: (ts ++ r :: b :: (us ++ [e])))
        [.funDecl name params body] (xs ++ ys)
  | statement {k d ts n xs} : Loose k (.statement d) ts [n] xs → Loose k .declaration ts [n] xs
  | noDeclarations {k} : Loose k .declarations [] [] []
  | nextDeclaration {k ts n xs us ns ys} : Loose k .declaration ts [n] xs →
      Loose (k + ts.length) .declarations us ns ys →
      Loose k .declarations (ts ++ us) (n :: ns) (xs ++ ys)

/-! ## Lists -/

namespace Enumerated

variable {α : Type} {what : String} {item item' : Nat → List Token → α → List Complaint → Prop}
  {k : Nat} {ts : List Token} {as : List α} {xs : List Complaint}

theorem imp (hi : ∀ k ts a xs, item k ts a xs → item' k ts a xs) (h : Enumerated what item k ts as xs) :
    Enumerated what item' k ts as xs := by
  induction h with
  | first h => exact .first (hi _ _ _ _ h)
  | next _ hk h ih => exact .next ih hk (hi _ _ _ _ h)

/-- To a list that is not too long there is no objection but those to its items. -/
theorem quiet (hi : ∀ k ts a xs, item k ts a xs → xs = []) (h : Enumerated what item k ts as xs)
    (hl : as.length ≤ 255) : xs = [] := by
  induction h with
  | first h => exact hi _ _ _ _ h
  | next _ _ h ih =>
    rw [List.length_append, List.length_singleton] at hl
    rw [ih (by omega), hi _ _ _ _ h, surplus, if_pos (by omega)]
    rfl

/-- Items that come at any place can be listed at any place. -/
theorem of_separated (h : Separated (fun ts a => ∀ k, ∃ xs, item k ts a xs) ts as) (k : Nat) :
    ∃ xs, Enumerated what item k ts as xs := by
  -- A list is put behind the items that come before it.
  have behind : ∀ {us bs}, Separated (fun ts a => ∀ k, ∃ xs, item k ts a xs) us bs →
      ∀ ts as xs comma, Enumerated what item k ts as xs → comma.kind = .comma →
        ∃ ys, Enumerated what item k (ts ++ comma :: us) (as ++ bs) ys := by
    intro us bs h
    induction h with
    | last h =>
      intro ts as xs comma hts hk
      obtain ⟨ys, hys⟩ := h (k + ts.length + 1)
      exact ⟨_, .next hts hk hys⟩
    | next h hk' _ ih =>
      intro ts as xs comma hts hk
      obtain ⟨ys, hys⟩ := h (k + ts.length + 1)
      simpa using ih _ _ _ _ (.next hts hk hys) hk'
  cases h with
  | last h =>
    obtain ⟨xs, hxs⟩ := h k
    exact ⟨xs, .first hxs⟩
  | next h hk h' =>
    obtain ⟨xs, hxs⟩ := h k
    exact behind h' _ _ _ _ (.first hxs) hk

/-- A list that is not too long, of items to which there is no objection. -/
theorem of_separated_quiet (h : Separated (fun ts a => ∀ k, item k ts a []) ts as)
    (hl : as.length ≤ 255) (k : Nat) : Enumerated what item k ts as [] := by
  have hall : Separated (fun ts a => ∀ k, ∃ xs, item k ts a xs ∧ xs = []) ts as := by
    clear hl
    induction h with
    | last h => exact .last fun k => ⟨[], h k, rfl⟩
    | next h hk _ ih => exact .next (fun k => ⟨[], h k, rfl⟩) hk ih
  obtain ⟨xs, hxs⟩ : ∃ xs, Enumerated what _ k ts as xs := of_separated hall k
  obtain rfl : xs = [] := hxs.quiet (fun _ _ _ _ h => h.2) hl
  exact hxs.imp fun _ _ _ _ h => h.1

end Enumerated

/-- The parameters of a function are parameters of the loosened grammar. -/
theorem Parameters.loosely {ts params : List Token} (h : Parameters ts params) (k : Nat) :
    ∃ xs, LooseParameters k ts params xs := by
  rcases h with ⟨rfl, rfl⟩ | h
  · exact ⟨[], .inl ⟨rfl, rfl, rfl⟩⟩
  · have items : Separated (fun us t => ∀ _ : Nat, ∃ xs : List Complaint,
        us = [t] ∧ t.kind = .identifier ∧ xs = []) ts params := by
      induction h with
      | last h => exact .last fun _ => ⟨[], h.1, h.2, rfl⟩
      | next h hk _ ih => exact .next (fun _ => ⟨[], h.1, h.2, rfl⟩) hk ih
    obtain ⟨xs, hxs⟩ := Enumerated.of_separated items k
    exact ⟨xs, .inr hxs⟩

theorem LooseParameters.of_parameters {ts params : List Token} (h : Parameters ts params)
    (hl : params.length ≤ 255) (k : Nat) : LooseParameters k ts params [] := by
  obtain ⟨xs, ⟨rfl, rfl, rfl⟩ | hxs⟩ := h.loosely k
  · exact .inl ⟨rfl, rfl, rfl⟩
  · obtain rfl : xs = [] := hxs.quiet (fun _ _ _ _ h => h.2.2) hl
    exact .inr hxs

namespace Loose

variable {k : Nat} {ph : Phrase} {ts : List Token} {ns : List Node} {xs : List Complaint}

theorem of_enumerated
    (h : Enumerated "arguments" (fun k ts n xs => Loose k .expression ts [n] xs) k ts ns xs) :
    Loose k .arguments ts ns xs := by
  induction h with
  | first h => exact .firstArgument h
  | next _ hk h ih => exact .nextArgument ih hk h

theorem enumerated (h : Loose k .arguments ts ns xs) :
    Enumerated "arguments" (fun k ts n xs => Loose k .expression ts [n] xs) k ts ns xs := by
  generalize hph : Phrase.arguments = ph at h
  induction h with
  | firstArgument h => exact .first h
  | nextArgument _ hk h ih => exact .next (ih hph) hk h
  | _ => cases hph

/-! ## Induction over a phrase that recurs on one side -/

/-- An operation is an operand, or an operation, an operator and an operand. -/
@[elab_as_elim]
theorem level_induction {p : Precedence} {motive : List Token → Node → List Complaint → Prop}
    (operand : ∀ ts n xs, Loose k p.operand ts [n] xs → motive ts n xs)
    (fold : ∀ ts a xs operator us b ys, operator.kind ∈ p.operators →
      Loose (k + ts.length + 1) p.operand us [b] ys → motive ts a xs →
      motive (ts ++ operator :: us) (p.build a operator b) (xs ++ ys))
    {ts : List Token} {n : Node} {xs : List Complaint} (h : Loose k (.level p) ts [n] xs) :
    motive ts n xs := by
  generalize hph : Phrase.level p = ph at h
  generalize hns : [n] = ns at h
  induction h generalizing n with
  | operand h =>
    cases hph
    cases hns
    exact operand _ _ _ h
  | fold _ hk h ih =>
    cases hph
    cases hns
    exact fold _ _ _ _ _ _ _ hk h (ih operand fold rfl rfl)
  | _ => cases hph

/-- A call is what needs no operator, or a call and arguments in parentheses. -/
@[elab_as_elim]
theorem call_induction {motive : List Token → Node → List Complaint → Prop}
    (primary : ∀ ts n xs, Loose k .primary ts [n] xs → motive ts n xs)
    (emptyCall : ∀ ts f xs l r, l.kind = .leftParen → r.kind = .rightParen → motive ts f xs →
      motive (ts ++ [l, r]) (.call f r []) xs)
    (call : ∀ ts f xs l us as ys r, l.kind = .leftParen →
      Loose (k + ts.length + 1) .arguments us as ys → r.kind = .rightParen → motive ts f xs →
      motive (ts ++ l :: (us ++ [r])) (.call f r as) (xs ++ ys))
    {ts : List Token} {n : Node} {xs : List Complaint} (h : Loose k .call ts [n] xs) :
    motive ts n xs := by
  generalize hph : Phrase.call = ph at h
  generalize hns : [n] = ns at h
  induction h generalizing n with
  | primary h =>
    cases hns
    exact primary _ _ _ h
  | emptyCall _ hl hr ih =>
    cases hns
    exact emptyCall _ _ _ _ _ hl hr (ih primary call rfl rfl)
  | call _ hl has hr ih =>
    cases hns
    exact call _ _ _ _ _ _ _ _ hl has hr (ih primary call rfl rfl)
  | _ => cases hph

/-- Declarations are none, or one and more declarations. -/
@[elab_as_elim]
theorem declarations_induction {motive : Nat → List Token → List Node → List Complaint → Prop}
    (nil : ∀ k, motive k [] [] [])
    (cons : ∀ k ts n xs us ns ys, Loose k .declaration ts [n] xs →
      Loose (k + ts.length) .declarations us ns ys → motive (k + ts.length) us ns ys →
      motive k (ts ++ us) (n :: ns) (xs ++ ys))
    (h : Loose k .declarations ts ns xs) : motive k ts ns xs := by
  generalize hph : Phrase.declarations = ph at h
  induction h with
  | noDeclarations => exact nil _
  | nextDeclaration h h' _ ih => exact cons _ _ _ _ _ _ _ h h' (ih hph)
  | _ => cases hph

/-- Only the name itself stands for a name. -/
theorem of_ident {p : Precedence} {name : Token} (h : Loose k (.level p) ts [.ident name] xs) :
    ts = [name] ∧ name.kind = .identifier ∧ xs = [] := by
  have inner : ∀ k ph ts ns xs, Loose k ph ts ns xs → ns = [.ident name] →
      (ph = .unary ∨ ph = .call ∨ ph = .primary ∨ ∃ p, ph = .level p) →
      ts = [name] ∧ name.kind = .identifier ∧ xs = [] := by
    intro k ph ts ns xs h
    induction h with
    | @operand _ q _ _ _ _ ih =>
      intro e _
      exact ih e (by cases q <;> simp [Precedence.operand])
    | @fold _ q =>
      -- An operator makes an operation, which is no name.
      intro e
      cases q <;> simp [Precedence.build] at e
    | callee _ ih | primary _ ih =>
      intro e _
      exact ih e (by simp)
    | name hk =>
      intro e _
      cases e
      exact ⟨rfl, hk, rfl⟩
    | _ => simp
  exact inner _ _ _ _ _ h rfl (by simp)

end Loose

/-! ## What there is no objection to -/

/-- What a phrase of the grammar is in the loosened one: the same, without an objection. A list of
arguments may be longer than a call allows, though. -/
def Phrase.Unopposed (ph : Phrase) (ts : List Token) (ns : List Node) : Prop :=
  match ph with
  | .arguments => Separated (fun ts n => ∀ k, Loose k .expression ts [n] []) ts ns
  | ph => ∀ k, Loose k ph ts ns []

namespace Derives

variable {ph : Phrase} {ts : List Token} {ns : List Node}

theorem unopposed (h : Derives ph ts ns) : ph.Unopposed ts ns := by
  induction h with
  | assignment hn he _ ih => exact fun k => .assignment hn he (ih _)
  | operation _ ih => exact fun k => .operation (ih k)
  | @operand p _ _ _ ih => cases p <;> exact fun k => .operand (ih k)
  | @fold p _ _ _ _ _ _ ho _ ih ih' => cases p <;> exact fun k => .fold (ih k) ho (ih' _)
  | unary ho _ ih => exact fun k => .unary ho (ih _)
  | callee _ ih => exact fun k => .callee (ih k)
  | primary _ ih => exact fun k => .primary (ih k)
  | emptyCall _ hl hr ih => exact fun k => .emptyCall (ih k) hl hr
  | call _ hl _ hlen hr ih ih' =>
    exact fun k => .call (ih k) hl (.of_enumerated (.of_separated_quiet ih' hlen _)) hr
  | lastArgument _ ih => exact .last ih
  | nextArgument _ hk _ ih ih' => exact .next ih hk ih'
  | falseWord hk => exact fun k => .falseWord hk
  | trueWord hk => exact fun k => .trueWord hk
  | nilWord hk => exact fun k => .nilWord hk
  | literal hk => exact fun k => .literal hk
  | name hk => exact fun k => .name hk
  | grouping hl _ hr ih => exact fun k => .grouping hl (ih _) hr
  | noClause => exact fun k => .noClause
  | clause _ ih => exact fun k => .clause (ih k)
  | expressionStatement _ hs ih => exact fun k => .expressionStatement (ih k) hs
  | «variable» hv hn he _ hs ih => exact fun k => .variable hv hn he (ih _) hs
  | noStart hs => exact fun k => .noStart hs
  | startVariable _ ih => exact fun k => .startVariable (ih k)
  | startExpression _ ih => exact fun k => .startExpression (ih k)
  | evaluation _ ih => exact fun k => .evaluation (ih k)
  | printing hp _ hs ih => exact fun k => .printing hp (ih _) hs
  | returning hr _ hs ih => exact fun k => .returning hr (ih _) hs
  | block hl _ hr ih => exact fun k => .block hl (ih _) hr
  | whileLoop hw hl _ hr _ ih ih' => exact fun k => .whileLoop hw hl (ih _) hr (ih' _)
  | forLoop hf hl _ _ hs _ hr _ ih ih₁ ih₂ ih₃ =>
    exact fun k => .forLoop hf hl (ih _) (ih₁ _) hs (ih₂ _) hr (ih₃ _)
  | ifThen hi hl _ hr _ ih ih' => exact fun k => .ifThen hi hl (ih _) hr (ih' _)
  | ifElse hi hl _ hr _ he _ ih ih₁ ih₂ => exact fun k => .ifElse hi hl (ih _) hr (ih₁ _) he (ih₂ _)
  | declareVariable _ ih => exact fun k => .declareVariable (ih k)
  | declareFunction hf hn hl hps hlen hr hb _ he ih =>
    exact fun k => .declareFunction hf hn hl (.of_parameters hps hlen _) hr hb (ih _) he
  | statement _ ih => exact fun k => .statement (ih k)
  | noDeclarations => exact fun k => .noDeclarations
  | nextDeclaration _ _ ih ih' => exact fun k => .nextDeclaration (ih k) (ih' _)

/-- There is no objection to what the grammar allows. -/
theorem loose (h : Derives ph ts ns) (hp : ph ≠ .arguments) (k : Nat) : Loose k ph ts ns [] := by
  have hu := h.unopposed
  unfold Phrase.Unopposed at hu
  split at hu
  · exact absurd rfl hp
  · exact hu k

/-- Only the name itself stands for a name. -/
theorem of_ident {p : Precedence} {name : Token} (h : Derives (.level p) ts [.ident name]) :
    ts = [name] ∧ name.kind = .identifier := by
  obtain ⟨hts, hname, -⟩ := (h.loose (by simp) 0).of_ident
  exact ⟨hts, hname⟩

end Derives

end LoxLang
