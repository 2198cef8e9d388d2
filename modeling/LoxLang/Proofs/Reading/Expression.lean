import LoxLang.Grammar.Expression
import LoxLang.Proofs.Grammar.Loose
import LoxLang.Proofs.Reading.Basic
import Mathlib.Tactic.Tauto
/-!
# Reading expressions

What each rule for expressions comes to. The rules one layer below are taken as they are
(`ExpressionsRead`), so each rule is looked at once and the layers are climbed by induction later.
-/

namespace LoxLang

open Parse Rules

variable {origin : Token → Prop} {room deep : Nat}

/-- A level of operators as the rules know it. -/
def Precedence.toLevel (p : Precedence) : Level := ⟨p.operators, p.build⟩

/-- The rules go through the levels in the order of the grammar. -/
theorem levels_eq : levels =
    [Precedence.disjunction, .conjunction, .equality, .comparison, .sum, .product].map
      Precedence.toLevel := rfl

/-- An operation is well formed if its operands are. -/
theorem Precedence.build_proper (p : Precedence) {a b : Node} {operator : Token}
    (ha : a.Proper origin .expression) (ho : origin operator) (hk : operator.kind ∈ p.operators)
    (hb : b.Proper origin .expression) : (p.build a operator b).Proper origin .expression := by
  cases p with
  | disjunction | conjunction =>
    refine .logical ha ⟨rfl, ho, ?_⟩ hb
    revert hk
    simp +contextual [operators, Role.kinds]
  | equality | comparison | sum | product =>
    refine .binary ha ⟨rfl, ho, ?_⟩ hb
    revert hk
    simp only [operators, Role.kinds, List.mem_cons, List.not_mem_nil, or_false]
    tauto

/-- What the rules for expressions come to at a layer that `deep` tokens do not exhaust. -/
structure ExpressionsRead (origin : Token → Prop) (deep : Nat) (rules : Rules) : Prop where
  expression : Reads (Cursor.Ready origin rules.rounds) deep 1 rules.expression
    (Node.Proper origin .expression) (fun ts _ n => Derives .expression ts [n])
  unary : Reads (Cursor.Ready origin rules.rounds) deep 1 rules.unary
    (Node.Proper origin .expression) (fun ts _ n => Derives .unary ts [n])

namespace Reads

/-- Folding the operators of a level to the left extends an operation of that level. -/
theorem chain (p : Precedence) {operand : Parse Node}
    (h : Reads (Cursor.Ready origin room) deep 1 operand (Node.Proper origin .expression)
      (fun ts _ n => Derives p.operand ts [n])) :
    ∀ rounds r left, r ≤ rounds → r ≤ room → left.Proper origin .expression →
      Reads (Cursor.Ready origin r) deep 0 (chain p.toLevel operand rounds left)
        (Node.Proper origin .expression)
        (fun ts _ n => ∀ us, Derives (.level p) us [left] → Derives (.level p) (us ++ ts) [n]) := by
  intro rounds
  induction rounds with
  | zero =>
    intro r left hr _ _
    refine ⟨fun hc => ?_, fun hc => ?_⟩ <;> exact absurd hc.short (by omega)
  | succ rounds ih =>
    intro r left hr hr' hleft
    rw [Rules.chain]
    refine Reads.imp (Reads.accept (r := r - 1)
      (fun t ht hk => Reads.bind (r := r - 1 - 1) (h.mono (by omega) (Nat.le_refl _))
        (fun right hright => ih (r - 1 - 1) _ (by omega) (by omega)
          (p.build_proper hleft ht hk hright)) (by omega) (Nat.le_add_right _ _))
      (Reads.pure hleft) (by omega) (Nat.le_add_right _ _) (by omega)) (Nat.le_refl _) ?_
    rintro ts rest n - (⟨t, _, rfl, hk, us, vs, right, rfl, hright, hn⟩ | ⟨⟨rfl, rfl⟩, -⟩)
    · intro ws hws
      simpa using hn _ (.fold hws hk hright)
    · intro ws hws
      simpa using hws

/-- A level is read if the next tighter one is. -/
theorem operation_cons (p : Precedence) {innermost : Parse Node} {tighter : List Level}
    (h : Reads (Cursor.Ready origin room) deep 1 (operation room innermost tighter)
      (Node.Proper origin .expression) (fun ts _ n => Derives p.operand ts [n])) :
    Reads (Cursor.Ready origin room) deep 1 (operation room innermost (p.toLevel :: tighter))
      (Node.Proper origin .expression) (fun ts _ n => Derives (.level p) ts [n]) := by
  rw [operation]
  refine Reads.imp (Reads.andThen h (fun first hfirst =>
    Reads.chain p h room room first (Nat.le_refl _) (Nat.le_refl _) hfirst)) (Nat.le_refl _) ?_
  rintro ts rest n - ⟨us, vs, first, rfl, hfirst, hn⟩
  exact hn us (.operand hfirst)

variable {below : Rules}

theorem primaryFrom (h : ExpressionsRead origin deep below) {t : Token} (ht : origin t)
    (hk : t.kind ∈ primaryStarts) :
    Reads (Cursor.Ready origin below.rounds) deep 0 (primaryFrom below t)
      (Node.Proper origin .expression) (fun us _ n => Derives .primary (t :: us) [n]) := by
  unfold Rules.primaryFrom
  split
  · next hf =>
    apply Reads.imp (Reads.pure (.literal (.inr (.inl ⟨false, rfl⟩)))) (Nat.le_refl _)
    rintro us rest n - ⟨rfl, rfl⟩
    exact .falseWord hf
  · next hf =>
    apply Reads.imp (Reads.pure (.literal (.inr (.inl ⟨true, rfl⟩)))) (Nat.le_refl _)
    rintro us rest n - ⟨rfl, rfl⟩
    exact .trueWord hf
  · next hf =>
    apply Reads.imp (Reads.pure (.literal (.inl rfl))) (Nat.le_refl _)
    rintro us rest n - ⟨rfl, rfl⟩
    exact .nilWord hf
  · next hf =>
    refine Reads.imp (Reads.pure (.ident ⟨rfl, ht, by simp [hf, Role.kinds]⟩)) (Nat.le_refl _) ?_
    rintro us rest n - ⟨rfl, rfl⟩
    exact .name hf
  · next hf =>
    refine Reads.imp (Reads.andThen h.expression (fun inner hinner => Reads.andThen (Reads.expect _ _)
      (fun _ _ => Reads.pure (.grouping hinner)))) (Nat.zero_le _) ?_
    rintro us rest n - ⟨vs, ws, inner, rfl, hinner, _, _, r, rfl, ⟨rfl, hr⟩, rfl, rfl⟩
    exact .grouping hf hinner hr
  · next h₁ h₂ h₃ h₄ h₅ =>
    have hv : t.kind = .number ∨ t.kind = .string := by
      simp only [primaryStarts, List.mem_cons, List.not_mem_nil, or_false] at hk
      tauto
    apply Reads.imp (Reads.pure (.literal (.inr (.inr ⟨t, ht, hv, rfl⟩)))) (Nat.le_refl _)
    rintro us rest n - ⟨rfl, rfl⟩
    exact .literal hv

theorem primary (h : ExpressionsRead origin deep below) :
    Reads (Cursor.Ready origin below.rounds) (deep + 1) 1 (primary below)
      (Node.Proper origin .expression) (fun ts _ n => Derives .primary ts [n]) := by
  have refused : Reads (Cursor.Ready origin below.rounds) (deep + 1) 1
      (reject (.expected "expression")) (Node.Proper origin .expression) (fun _ _ _ => False) :=
    Reads.reject _
  rw [Rules.primary]
  refine Reads.imp (Reads.accept (fun t ht hk => Reads.primaryFrom h ht hk) refused
    (Nat.le_add_right _ _) (Nat.le_refl _) (Nat.le_refl _)) (Nat.le_refl _) ?_
  rintro ts rest n - (⟨t, us, rfl, -, hn⟩ | ⟨hf, -⟩)
  · exact hn
  · exact hf.elim

/-- The arguments and the closing parenthesis extend a call by one. -/
theorem callRest (h : ExpressionsRead origin deep below) {callee : Node}
    (hcallee : callee.Proper origin .expression) :
    Reads (Cursor.Ready origin below.rounds) deep 1 (callRest below callee)
      (Node.Proper origin .expression) (fun ts _ n => ∀ us l, l.kind = .leftParen →
        Derives .call us [callee] → Derives .call (us ++ l :: ts) [n]) := by
  rw [Rules.callRest]
  refine Reads.imp (Reads.option _ (fun as => ∀ a ∈ as, Node.Proper origin .expression a)
    (by simp) (Reads.separated (fun room hr => h.expression.mono hr (Nat.le_refl _)) below.rounds
      0 below.rounds (Nat.le_refl _) (Nat.le_refl _))
    (fun as has => Reads.andThen (Reads.expect _ _) (fun r hr => Reads.pure
      (.call hcallee ⟨rfl, hr.1, by simp [hr.2, Role.kinds]⟩ (List.forall₂_same.2 has)))))
    (Nat.le_refl _) ?_
  rintro ts rest n - ⟨us, _, as, rfl, has, _, _, r, rfl, ⟨rfl, hr⟩, rfl, rfl⟩
  intro ws l hl hws
  rcases has with ⟨rfl, rfl⟩ | ⟨has, hlen⟩
  · exact .emptyCall hws hl hr
  · exact .call hws hl (.of_separated has) (by simpa [maxArity] using hlen) hr

/-- The calls that follow a callee extend it. -/
theorem calls (h : ExpressionsRead origin deep below) :
    ∀ rounds r callee, r ≤ rounds → r ≤ below.rounds → callee.Proper origin .expression →
      Reads (Cursor.Ready origin r) (deep + 1) 0 (calls below rounds callee)
        (Node.Proper origin .expression)
        (fun ts _ n => ∀ us, Derives .call us [callee] → Derives .call (us ++ ts) [n]) := by
  intro rounds
  induction rounds with
  | zero =>
    intro r callee hr _ _
    refine ⟨fun hc => ?_, fun hc => ?_⟩ <;> exact absurd hc.short (by omega)
  | succ rounds ih =>
    intro r callee hr hr' hcallee
    rw [Rules.calls]
    refine Reads.imp (Reads.accept (r := r - 1) (d := deep)
      (fun t ht hk => Reads.bind (r := r - 1 - 1)
        ((Reads.callRest h hcallee).mono (by omega) (Nat.le_refl _))
        (fun n hn => (ih (r - 1 - 1) n (by omega) (by omega) hn).mono (Nat.le_refl _)
          (Nat.le_add_right _ _)) (by omega) (Nat.le_add_right _ _))
      (Reads.pure hcallee) (by omega) (Nat.le_refl _) (by omega)) (Nat.le_refl _) ?_
    rintro ts rest n - (⟨t, _, rfl, hk, us, vs, f, rfl, hf, hn⟩ | ⟨⟨rfl, rfl⟩, -⟩)
    · intro ws hws
      simpa using hn _ (hf ws t (by simpa using hk) hws)
    · intro ws hws
      simpa using hws

theorem callChain (h : ExpressionsRead origin deep below) :
    Reads (Cursor.Ready origin below.rounds) (deep + 1) 1 (callChain below)
      (Node.Proper origin .expression) (fun ts _ n => Derives .call ts [n]) := by
  rw [Rules.callChain]
  refine Reads.imp (Reads.andThen (Reads.primary h) (fun callee hcallee => Reads.calls h below.rounds
    below.rounds callee (Nat.le_refl _) (Nat.le_refl _) hcallee)) (Nat.le_refl _) ?_
  rintro ts rest n - ⟨us, vs, callee, rfl, hcallee, hn⟩
  exact hn us (.primary hcallee)

theorem unaryRule (h : ExpressionsRead origin deep below) :
    Reads (Cursor.Ready origin below.rounds) (deep + 1) 1 (unaryRule below)
      (Node.Proper origin .expression) (fun ts _ n => Derives .unary ts [n]) := by
  rw [Rules.unaryRule]
  refine Reads.imp (Reads.accept (d := deep) (fun t ht hk => Reads.andThen h.unary
    (fun n hn => Reads.pure (.unary ⟨rfl, ht, hk⟩ hn))) (Reads.callChain h)
    (Nat.le_add_right _ _) (Nat.le_refl _)
    (Nat.le_add_left _ _)) (Nat.le_refl _) ?_
  rintro ts rest n - (⟨t, _, rfl, hk, us, _, m, rfl, hm, rfl, rfl⟩ | ⟨hn, -⟩)
  · exact .unary (by simpa using hk) (by simpa using hm)
  · exact .callee hn

/-- Only a name can be assigned to; for anything else there is a complaint. -/
theorem assignTo {left value : Node} (hleft : left.Proper origin .expression)
    (hvalue : value.Proper origin .expression) (taken : Nat) (equals : Token) :
    Reads (Cursor.Ready origin room) deep 0 (assignTo left taken equals value)
      (Node.Proper origin .expression)
      (fun ts _ n => ts = [] ∧ ∃ name, left = .ident name ∧ n = .assign name value) := by
  unfold Rules.assignTo
  split
  · next name =>
    cases hleft with
    | ident hname =>
      apply Reads.imp (Reads.pure (.assign hname hvalue)) (Nat.le_refl _)
      exact fun ts rest n _ hts => ⟨hts.1, name, rfl, hts.2⟩
    | misplaced hm => exact hm.elim
  · refine Reads.imp (Reads.andThen (Reads.complain _ _ _) (fun _ _ => Reads.pure hleft))
      (Nat.le_refl _) ?_
    rintro ts rest n - ⟨_, _, _, -, hf, -⟩
    exact hf.elim

theorem expressionRule (h : ExpressionsRead origin deep below) :
    Reads (Cursor.Ready origin below.rounds) (deep + 1) 1 (expressionRule below)
      (Node.Proper origin .expression) (fun ts _ n => Derives .expression ts [n]) := by
  have operations : Reads (Cursor.Ready origin below.rounds) (deep + 1) 1
      (operation below.rounds (Rules.unaryRule below) levels) (Node.Proper origin .expression)
      (fun ts _ n => Derives (.level .disjunction) ts [n]) :=
    levels_eq ▸ Reads.operation_cons .disjunction (Reads.operation_cons .conjunction
      (Reads.operation_cons .equality (Reads.operation_cons .comparison (Reads.operation_cons .sum
        (Reads.operation_cons .product (Reads.unaryRule h))))))
  rw [Rules.expressionRule]
  refine Reads.imp (Reads.andThen operations (fun left hleft => Reads.accept (d := deep)
    (fun equals _ _ => Reads.andThen Reads.position (fun taken _ => Reads.andThen h.expression
      (fun value hvalue => Reads.assignTo hleft hvalue taken equals)))
    (Reads.pure hleft) (Nat.le_add_right _ _) (by omega) (Nat.zero_le _))) (Nat.le_refl _) ?_
  rintro ts rest n - ⟨us, _, left, rfl, hleft, ⟨t, _, rfl, hk, _, _, taken, rfl, rfl, vs, _, value,
    rfl, hvalue, rfl, name, rfl, rfl⟩ | ⟨⟨rfl, rfl⟩, -⟩⟩
  · obtain ⟨rfl, hname⟩ := hleft.of_ident
    exact .assignment hname (by simpa using hk) (by simpa using hvalue)
  · exact .operation (by simpa using hleft)

end Reads

end LoxLang
