import LoxLang.Grammar.Expression
import LoxLang.Proofs.Accepting.Basic
import LoxLang.Proofs.Grammar.Lookahead
import LoxLang.Proofs.Reading.Expression
/-!
# Accepting expressions

Each rule for expressions accepts what the loosened grammar derives, over rules that accept what is
nested in it. The grammar recurs on the left where the rules go round a loop, so a loop is followed
from the left end: whatever an operation was derived from, the loop comes by with the same tree in
hand.
-/

namespace LoxLang

open Parse Rules

variable {below : Rules} {k : Nat} {ts : List Token} {n : Node} {xs : List Complaint}

/-- The rules accept what the grammar says of what is nested in an expression. -/
structure ExpressionsAccepted (rules : Rules) : Prop where
  expression : ∀ k ts n xs, Loose k .expression ts [n] xs → ts.length < rules.rounds →
    Accepts k rules.expression ts xs (Phrase.Ends .expression) n
  unary : ∀ k ts n xs, Loose k .unary ts [n] xs → ts.length < rules.rounds →
    Accepts k rules.unary ts xs (Phrase.Ends .unary) n

namespace Accepts

/-! ## Operations -/

variable {p : Precedence} {operand : Parse Node} {room : Nat}

/-- Reading the operators of a level comes by every operation of that level, with a round left for
every token ahead. -/
theorem chain_comes (hop : ∀ k ts n xs, Loose k p.operand ts [n] xs → ts.length < room →
    Accepts k operand ts xs p.operand.Ends n) (h : Loose k (.level p) ts [n] xs) :
    ts.length < room → ∃ r, room ≤ r + ts.length ∧
      Comes k (operand >>= fun first => chain p.toLevel operand room first) ts xs p.operand.Ends
        (chain p.toLevel operand r n) := by
  refine Loose.level_induction ?operand ?fold h
  case operand =>
    intro ts n xs h hl
    exact ⟨room, Nat.le_add_right _ _, Comes.bind (hop k ts n xs h hl)⟩
  case fold =>
    intro ts a xs o us b ys ho h ih hl
    rw [List.length_append, List.length_cons] at hl ⊢
    obtain ⟨r, hr, hcomes⟩ := ih (by omega)
    obtain ⟨r, rfl⟩ : ∃ r', r = r' + 1 := ⟨r - 1, by omega⟩
    refine ⟨r, by omega, hcomes.trans ?_ fun _ _ => Precedence.operand_ends ho⟩
    rw [chain]
    exact Comes.cons (Comes.accept ho (by cases p <;> decide))
      (Comes.bind (hop _ us b ys h (by omega)))

/-- A level accepts its operations if it accepts their operands. -/
theorem operation_cons {innermost : Parse Node} {tighter : List Level}
    (hop : ∀ k ts n xs, Loose k p.operand ts [n] xs → ts.length < room →
      Accepts k (operation room innermost tighter) ts xs p.operand.Ends n)
    (k : Nat) (ts : List Token) (n : Node) (xs : List Complaint) (h : Loose k (.level p) ts [n] xs)
    (hl : ts.length < room) :
    Accepts k (operation room innermost (p.toLevel :: tighter)) ts xs (Phrase.Ends (.level p)) n := by
  obtain ⟨r, hr, hcomes⟩ := chain_comes hop h hl
  obtain ⟨r, rfl⟩ : ∃ r', r = r' + 1 := ⟨r - 1, by omega⟩
  have stops : Accepts (k + ts.length) (chain p.toLevel (operation room innermost tighter) (r + 1) n)
      [] [] (· ∉ p.operators) n := by
    rw [chain]
    exact Comes.pass
  rw [operation, ← List.append_nil ts, ← List.append_nil xs]
  refine (hcomes.imp fun _ hk => hk).trans (stops.imp fun k hk => hk.2 p (Nat.le_refl _))
    fun k hk => Precedence.Ends.operand hk

/-! ## Calls and what needs no operator -/

theorem primary (h : ExpressionsAccepted below) (hd : Loose k .primary ts [n] xs)
    (hl : ts.length < below.rounds) : Accepts k (primary below) ts xs (fun _ => True) n := by
  rw [Rules.primary]
  cases hd with
  | falseWord hk | trueWord hk | nilWord hk | name hk =>
    refine Comes.cons (Comes.accept (by simp [hk, primaryStarts]) (by decide)) ?_
    simp only [primaryFrom, hk]
    exact .refl
  | literal hk =>
    rcases hk with hk | hk <;>
    · refine Comes.cons (Comes.accept (by simp [hk, primaryStarts]) (by decide)) ?_
      simp only [primaryFrom, hk]
      exact .refl
  | @grouping _ l ts n xs r hk hn hr =>
    simp only [List.length_cons, List.length_append] at hl
    refine Comes.cons (Comes.accept (by simp [hk, primaryStarts]) (by decide)) ?_
    simp only [primaryFrom, hk]
    refine Accepts.bindQuiet (h.expression _ ts n xs hn (by omega))
      (Comes.cons (Comes.expect hr (by simp)) .refl) fun _ _ => ?_
    exact Phrase.ends_expression (by simp [hr])

/-- A call takes its arguments and the closing parenthesis. -/
theorem callRest (h : ExpressionsAccepted below) {callee : Node} {as : List Node} {r : Token}
    (has : (ts = [] ∧ as = [] ∧ xs = []) ∨ Loose k .arguments ts as xs)
    (hr : r.kind = .rightParen) (hl : ts.length < below.rounds) :
    Accepts k (callRest below callee) (ts ++ [r]) xs (fun _ => True) (Node.call callee r as) := by
  have closed : ∀ k, Accepts k (expect .rightParen "')' after arguments" >>= fun paren =>
      pure (Node.call callee paren as)) [r] [] (fun _ => True) (Node.call callee r as) :=
    fun _ => Comes.cons (Comes.expect hr (by simp)) .refl
  rw [Rules.callRest]
  rcases has with ⟨rfl, rfl, rfl⟩ | has
  · exact Accepts.leftOut (by simp) (closed k) fun _ _ => hr
  · have list : Accepts k (separated "arguments" below.expression below.rounds 0) ts xs
        (· = .rightParen) as := by
      refine Accepts.separated (fun k us a ys ha hus => ?_) has.enumerated hl
      refine ⟨ha.ne_nil (by simp) (by simp), (h.expression k us a ys ha hus).imp ?_⟩
      rintro k (rfl | rfl) <;> exact Phrase.ends_expression (by simp)
    rw [← List.append_nil xs]
    refine Accepts.given list (fun k hk => ?_) (closed _) fun _ _ => hr
    have := hk ▸ has.headKind_mem (by simp) (by simp) k
    simp [Phrase.starts, Phrase.operandStarts] at this

/-- Reading the calls that follow a callee comes by every call. -/
theorem calls_comes (h : ExpressionsAccepted below) (hd : Loose k .call ts [n] xs) :
    ts.length < below.rounds → ∃ r, below.rounds ≤ r + ts.length ∧
      Comes k (callChain below) ts xs (fun _ => True) (calls below r n) := by
  have turn : ∀ {ts us : List Token} {f : Node} {l r : Token} {as : List Node}
      {xs ys : List Complaint}, l.kind = .leftParen → r.kind = .rightParen →
      ((us = [] ∧ as = [] ∧ ys = []) ∨ Loose (k + ts.length + 1) .arguments us as ys) →
      (ts.length < below.rounds → ∃ r, below.rounds ≤ r + ts.length ∧
        Comes k (callChain below) ts xs (fun _ => True) (calls below r f)) →
      (ts ++ l :: (us ++ [r])).length < below.rounds →
      ∃ r', below.rounds ≤ r' + (ts ++ l :: (us ++ [r])).length ∧
        Comes k (callChain below) (ts ++ l :: (us ++ [r])) (xs ++ ys) (fun _ => True)
          (calls below r' (Node.call f r as)) := by
    intro ts us f l r as xs ys hl hr has ih hlen
    simp only [List.length_append, List.length_cons, List.length_nil] at hlen ⊢
    obtain ⟨j, hj, hcomes⟩ := ih (by omega)
    obtain ⟨j, rfl⟩ : ∃ j', j = j' + 1 := ⟨j - 1, by omega⟩
    refine ⟨j, by omega, hcomes.trans ?_ fun _ _ => trivial⟩
    rw [calls]
    exact Comes.cons (Comes.accept (by simp [hl]) (by decide))
      (Comes.bind (callRest h has hr (by omega)))
  -- Every call of the derivation is one turn of the loop, the innermost callee first.
  refine Loose.call_induction ?primary ?emptyCall ?call hd
  case primary =>
    intro ts n xs hd hl
    exact ⟨below.rounds, Nat.le_add_right _ _, Comes.bind (primary h hd hl)⟩
  case emptyCall =>
    intro ts f xs l r hl hr ih
    have := turn hl hr (.inl ⟨rfl, rfl, rfl⟩) ih
    rwa [List.append_nil] at this
  case call =>
    intro ts f xs l us as ys r hl has hr ih
    exact turn hl hr (.inr has) ih

theorem callChain (h : ExpressionsAccepted below) (hd : Loose k .call ts [n] xs)
    (hl : ts.length < below.rounds) : Accepts k (callChain below) ts xs (Phrase.Ends .call) n := by
  obtain ⟨r, hr, hcomes⟩ := calls_comes h hd hl
  obtain ⟨r, rfl⟩ : ∃ r', r = r' + 1 := ⟨r - 1, by omega⟩
  have stops : Accepts (k + ts.length) (calls below (r + 1) n) [] [] (· ∉ [.leftParen]) n := by
    rw [calls]
    exact Comes.pass
  rw [← List.append_nil ts, ← List.append_nil xs]
  exact hcomes.trans (stops.imp fun k hk => by simpa [Phrase.Ends] using hk) fun _ _ => trivial

/-! ## Expressions -/

theorem unaryRule (h : ExpressionsAccepted below) (hd : Loose k .unary ts [n] xs)
    (hl : ts.length < below.rounds) : Accepts k (unaryRule below) ts xs (Phrase.Ends .unary) n := by
  rw [Rules.unaryRule]
  cases hd with
  | @unary _ operator ts n xs hk hn =>
    refine Comes.cons (Comes.accept (by simpa using hk) (by decide)) ?_
    exact bindNil (h.unary _ ts n xs hn (Nat.lt_of_succ_lt hl)) .refl fun _ hk => hk
  | callee hn =>
    refine Comes.nil Comes.pass (callChain h hn hl) fun k _ hk => ?_
    have := hn.headKind_mem (by simp) (by simp) k
    revert this hk
    generalize headKind ts k = k
    simp only [Phrase.starts, Phrase.operandStarts, List.mem_cons, List.not_mem_nil, or_false]
    rintro (rfl | rfl) <;> simp

theorem operation (h : ExpressionsAccepted below) (hd : Loose k (.level .disjunction) ts [n] xs)
    (hl : ts.length < below.rounds) :
    Accepts k (operation below.rounds (Rules.unaryRule below) levels) ts xs
      (Phrase.Ends (.level .disjunction)) n := by
  have operands : ∀ k ts n xs, Loose k Precedence.product.operand ts [n] xs →
      ts.length < below.rounds → Accepts k (Rules.operation below.rounds (Rules.unaryRule below) [])
        ts xs Precedence.product.operand.Ends n := fun _ _ _ _ hd hl => unaryRule h hd hl
  exact levels_eq ▸ operation_cons (p := .disjunction) (operation_cons (p := .conjunction)
    (operation_cons (p := .equality) (operation_cons (p := .comparison) (operation_cons (p := .sum)
      (operation_cons (p := .product) operands))))) k ts n xs hd hl

/-- What is assigned to something else than a name is dropped, with a complaint about the equals
sign. -/
theorem assignTo {left : Node} (hleft : ∀ name, left ≠ .ident name) (taken : Nat) (equals : Token)
    (value : Node) : Accepts k (assignTo left taken equals value) []
      [⟨taken - 1, equals, .invalidTarget⟩] (fun _ => True) left := by
  unfold Rules.assignTo
  split
  · exact absurd rfl (hleft _)
  · exact Comes.complain _ _ _

theorem expressionRule (h : ExpressionsAccepted below) (hd : Loose k .expression ts [n] xs)
    (hl : ts.length < below.rounds) :
    Accepts k (expressionRule below) ts xs (Phrase.Ends .expression) n := by
  -- Where an equals sign follows an operation, it ends it.
  have equalEnds : ∀ {equals : Token}, equals.kind = .equal →
      Phrase.Ends (.level .disjunction) equals.kind := fun hequals =>
    hequals ▸ Phrase.ends_operation
  rw [Rules.expressionRule]
  cases hd with
  | @assignment _ name equals ts n xs hname hequals hn =>
    simp only [List.length_cons] at hl
    have left : Loose k (.level .disjunction) [name] [.ident name] [] :=
      .operand (.operand (.operand (.operand (.operand (.operand (.callee (.primary (.name hname))))))))
    refine Comes.trans (Comes.bind (operation h left (by simp; omega)))
      (Comes.cons (Comes.accept (by simp [hequals]) (by decide)) (Comes.position ?_))
      fun _ _ => equalEnds hequals
    exact bindNil (h.expression _ ts n xs hn (by omega)) .refl fun _ hk => hk
  | @misassignment _ ts a xs equals us b ys ha hname hequals hb =>
    simp only [List.length_append, List.length_cons] at hl
    refine Accepts.bind (operation h ha (by omega))
      (Comes.cons (Comes.accept (by simp [hequals]) (by decide)) (Comes.position ?_))
      fun _ _ => equalEnds hequals
    rw [← List.append_nil us]
    exact Accepts.bind (h.expression _ us b ys hb (by omega))
      ((assignTo hname _ equals b).imp fun _ _ => trivial) fun _ hk => hk
  | operation hn =>
    refine bindNil (operation h hn hl) (Comes.pass.imp fun k hk => by simpa using hk.1)
      fun _ hk => hk.2

end Accepts

end LoxLang
