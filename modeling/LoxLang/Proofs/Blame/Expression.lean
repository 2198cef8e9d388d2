import LoxLang.Proofs.Blame.Basic
import LoxLang.Proofs.Reading.Expression
/-!
# Expressions that can be completed

Wherever a rule for expressions gives up, the tokens that it has taken can be completed to what the
loosened grammar derives, over rules for nested expressions of which the same holds.
-/

namespace LoxLang

open Parse Rules

/-- The tokens make up the phrase of the loosened grammar, wherever they start. -/
def Loosely (ph : Phrase) (ts : List Token) (ns : List Node) : Prop := ∀ k, ∃ xs, Loose k ph ts ns xs

namespace Loosely

variable {ts us : List Token} {n m : Node} {p : Precedence}

/-- What is derived from one phrase of the same tokens. -/
theorem lift {ph ph' : Phrase} {ns : List Node} (h : Loosely ph ts ns)
    (rule : ∀ k xs, Loose k ph ts ns xs → Loose k ph' ts ns xs) : Loosely ph' ts ns := by
  intro k
  obtain ⟨xs, hxs⟩ := h k
  exact ⟨xs, rule k xs hxs⟩

theorem fold {operator : Token} (h : Loosely (.level p) ts [n]) (ho : operator.kind ∈ p.operators)
    (h' : Loosely p.operand us [m]) :
    Loosely (.level p) (ts ++ operator :: us) [p.build n operator m] := by
  intro k
  obtain ⟨xs, hxs⟩ := h k
  obtain ⟨ys, hys⟩ := h' (k + ts.length + 1)
  exact ⟨_, .fold hxs ho hys⟩

theorem name {t : Token} (h : t.kind = .identifier) : Loosely .unary [t] [.ident t] :=
  fun _ => ⟨_, .callee (.primary (.name h))⟩

/-- An operand is an operation of any level, and so an expression. -/
theorem expression (h : Loosely .unary ts [n]) : Loosely .expression ts [n] :=
  h.lift fun _ _ h => .operation (.operand (.operand (.operand (.operand (.operand (.operand h))))))

end Loosely

/-- Where the rules for nested expressions give up, the tokens taken can be completed. -/
structure ExpressionsTracked (rules : Rules) : Prop where
  expression : Tracks rules.expression (fun ts _ n => Loosely .expression ts [n])
  unary : Tracks rules.unary (fun ts _ n => Loosely .unary ts [n])

namespace Tracks

/-! ## Operations -/

theorem chain (p : Precedence) {operand : Parse Node}
    (h : Tracks operand (fun ts _ n => Loosely p.operand ts [n])) : ∀ rounds left,
      Tracks (chain p.toLevel operand rounds left)
        (fun ts _ n => ∀ us, Loosely (.level p) us [left] → Loosely (.level p) (us ++ ts) [n]) := by
  intro rounds
  induction rounds with
  | zero =>
    intro left
    exact .throw (by simp) ⟨[], left, not_elseAhead_nil, fun _ _ us hus => by simpa using hus⟩
  | succ rounds ih =>
    intro left
    rw [Rules.chain]
    refine (Tracks.accept (fun t ht => h.bind fun right => ih (p.build left t right))
      (.pure left)).imp ?_
    rintro ts rest n (⟨t, _, rfl, hk, us, vs, right, rfl, hright, hn⟩ | ⟨rfl, rfl⟩) ws hws
    · simpa using hn _ (hws.fold hk hright)
    · simpa using hws

/-- A level can be completed if the next tighter one can. -/
theorem operation_cons (p : Precedence) {rounds : Nat} {innermost : Parse Node} {tighter : List Level}
    (h : Tracks (operation rounds innermost tighter) (fun ts _ n => Loosely p.operand ts [n])) :
    Tracks (operation rounds innermost (p.toLevel :: tighter))
      (fun ts _ n => Loosely (.level p) ts [n]) := by
  rw [operation]
  refine (h.bind fun first => Tracks.chain p h rounds first).imp ?_
  rintro ts rest n ⟨us, vs, first, rfl, hfirst, hn⟩
  exact hn us (hfirst.lift fun _ _ h => .operand h)

variable {below : Rules}

/-! ## Operands -/

theorem primaryFrom (h : ExpressionsTracked below) {t : Token} (hk : t.kind ∈ primaryStarts) :
    Tracks (primaryFrom below t) (fun us _ n => Loosely .primary (t :: us) [n]) := by
  have single : ∀ n, (∀ k, Loose k .primary [t] [n] []) →
      Tracks (pure n) (fun us _ m => Loosely .primary (t :: us) [m]) := by
    intro n hn
    refine (Tracks.pure n).imp ?_
    rintro us rest _ ⟨rfl, rfl⟩
    exact fun k => ⟨[], hn k⟩
  unfold Rules.primaryFrom
  split
  · next hf => exact single _ fun _ => .falseWord hf
  · next hf => exact single _ fun _ => .trueWord hf
  · next hf => exact single _ fun _ => .nilWord hf
  · next hf => exact single _ fun _ => .name hf
  · next hf =>
    refine (h.expression.bind fun inner => (Tracks.expect (by simp) _).bind fun _ => .pure _).imp ?_
    rintro us rest n ⟨vs, _, inner, rfl, hinner, _, _, r, rfl, ⟨rfl, hr⟩, rfl, rfl⟩ k
    obtain ⟨xs, hxs⟩ := hinner (k + 1)
    exact ⟨xs, .grouping hf hxs hr⟩
  · next h₁ h₂ h₃ h₄ h₅ =>
    refine single _ fun _ => .literal ?_
    simp only [primaryStarts, List.mem_cons, List.not_mem_nil, or_false] at hk
    tauto

theorem primary (h : ExpressionsTracked below) :
    Tracks (primary below) (fun ts _ n => Loosely .primary ts [n]) := by
  rw [Rules.primary]
  refine (Tracks.oneOf (t := ⟨.identifier, "", .nil, 1⟩) (by decide) (by simp)
    (fun t ht => Tracks.primaryFrom h ht) rfl).imp ?_
  rintro ts rest n ⟨t, us, rfl, -, hn⟩
  exact hn

/-- The arguments and the closing parenthesis extend a call by one. -/
theorem callRest (h : ExpressionsTracked below) (callee : Node) :
    Tracks (callRest below callee) (fun ts _ n => ∀ us l, l.kind = .leftParen →
      Loosely .call us [callee] → Loosely .call (us ++ l :: ts) [n]) := by
  rw [Rules.callRest]
  refine (Tracks.option _ (Tracks.separated h.expression below.rounds 0)
    (fun as => (Tracks.expect (by simp) _).bind fun r => .pure (Node.call callee r as))).imp ?_
  rintro ts rest n ⟨us, _, as, rfl, has, _, _, r, rfl, ⟨rfl, hr⟩, rfl, rfl⟩ ws l hl hws k
  obtain ⟨xs, hxs⟩ := hws k
  rcases has with ⟨rfl, rfl⟩ | has
  · exact ⟨xs, .emptyCall hxs hl hr⟩
  · obtain ⟨ys, hys⟩ := Enumerated.of_separated has (k + ws.length + 1)
    exact ⟨_, .call hxs hl (.of_enumerated hys) hr⟩

/-- The calls that follow a callee extend it. -/
theorem calls (h : ExpressionsTracked below) : ∀ rounds callee,
    Tracks (calls below rounds callee)
      (fun ts _ n => ∀ us, Loosely .call us [callee] → Loosely .call (us ++ ts) [n]) := by
  intro rounds
  induction rounds with
  | zero =>
    intro callee
    exact .throw (by simp) ⟨[], callee, not_elseAhead_nil, fun _ _ us hus => by simpa using hus⟩
  | succ rounds ih =>
    intro callee
    rw [Rules.calls]
    refine (Tracks.accept (fun _ _ => (Tracks.callRest h callee).bind fun n => ih n)
      (.pure callee)).imp ?_
    rintro ts rest n (⟨t, _, rfl, hk, us, vs, f, rfl, hf, hn⟩ | ⟨rfl, rfl⟩) ws hws
    · simpa using hn _ (hf ws t (List.mem_singleton.1 hk) hws)
    · simpa using hws

theorem callChain (h : ExpressionsTracked below) :
    Tracks (callChain below) (fun ts _ n => Loosely .call ts [n]) := by
  rw [Rules.callChain]
  refine ((Tracks.primary h).bind fun callee => Tracks.calls h below.rounds callee).imp ?_
  rintro ts rest n ⟨us, vs, callee, rfl, hcallee, hn⟩
  exact hn us (hcallee.lift fun _ _ h => .primary h)

theorem unaryRule (h : ExpressionsTracked below) :
    Tracks (unaryRule below) (fun ts _ n => Loosely .unary ts [n]) := by
  rw [Rules.unaryRule]
  refine (Tracks.accept (fun t _ => h.unary.bind fun n => .pure (Node.unary t n))
    (Tracks.callChain h)).imp ?_
  rintro ts rest n (⟨t, _, rfl, hk, us, _, m, rfl, hm, rfl, rfl⟩ | hn)
  · intro k
    obtain ⟨xs, hxs⟩ := hm (k + 1)
    exact ⟨xs, by simpa using Loose.unary (by simpa using hk) hxs⟩
  · exact hn.lift fun _ _ h => .callee h

/-! ## Assignments -/

/-- An assignment of which the left side and the equals sign have been taken. -/
theorem assignTo (left : Node) (taken : Nat) (equals : Token) (value : Node) :
    Tracks (assignTo left taken equals value) (fun ts _ n => ts = [] ∧ ∀ us vs,
      Loosely (.level .disjunction) us [left] → equals.kind = .equal → Loosely .expression vs [value] →
        Loosely .expression (us ++ equals :: vs) [n]) := by
  unfold Rules.assignTo
  split
  · next name =>
    refine (Tracks.pure (Node.assign name value)).imp ?_
    rintro ts rest _ ⟨rfl, rfl⟩
    refine ⟨rfl, fun us vs hus hequals hvs k => ?_⟩
    obtain ⟨xs, hxs⟩ := hus k
    obtain ⟨rfl, hname, -⟩ := hxs.of_ident
    obtain ⟨ys, hys⟩ := hvs (k + 2)
    exact ⟨ys, .assignment hname hequals hys⟩
  · next hno =>
    refine ((Tracks.complain _ _ rfl).bind fun _ => Tracks.pure left).imp ?_
    rintro ts rest _ ⟨_, _, _, rfl, rfl, rfl, rfl⟩
    refine ⟨rfl, fun us vs hus hequals hvs k => ?_⟩
    obtain ⟨xs, hxs⟩ := hus k
    obtain ⟨ys, hys⟩ := hvs (k + us.length + 1)
    exact ⟨_, .misassignment hxs (fun name h => hno name h) hequals hys⟩

theorem expressionRule (h : ExpressionsTracked below) :
    Tracks (expressionRule below) (fun ts _ n => Loosely .expression ts [n]) := by
  have operations : Tracks (operation below.rounds (Rules.unaryRule below) levels)
      (fun ts _ n => Loosely (.level .disjunction) ts [n]) :=
    levels_eq ▸ Tracks.operation_cons .disjunction (Tracks.operation_cons .conjunction
      (Tracks.operation_cons .equality (Tracks.operation_cons .comparison (Tracks.operation_cons .sum
        (Tracks.operation_cons .product (Tracks.unaryRule h))))))
  rw [Rules.expressionRule]
  refine (operations.bind fun left => Tracks.accept (fun equals _ => Tracks.position.bind fun taken =>
    h.expression.bind fun value => Tracks.assignTo left taken equals value) (.pure left)).imp ?_
  rintro ts rest n ⟨us, _, left, rfl, hleft, ⟨t, _, rfl, hk, _, _, _, rfl, rfl, vs, _, value, rfl,
    hvalue, rfl, hn⟩ | ⟨rfl, rfl⟩⟩
  · simpa using hn us vs hleft (List.mem_singleton.1 hk) hvalue
  · rw [List.append_nil]
    exact hleft.lift fun _ _ h => .operation h

end Tracks

end LoxLang
