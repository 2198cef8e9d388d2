import LoxLang.Proofs.Grammar.Loose
/-!
# Looking ahead

The kinds of tokens that a phrase can start with, and the kinds of tokens that cannot go on a
phrase. No token of a phrase is an end token. All of this holds of the loosened grammar, so also of
the grammar itself.
-/

namespace LoxLang

/-- The kind of the first of some tokens, or of what follows if there are none. -/
def headKind (ts : List Token) (k : Kind) : Kind := (ts.head?.map Token.kind).getD k

@[simp] theorem headKind_nil (k : Kind) : headKind [] k = k := rfl

@[simp] theorem headKind_cons (t : Token) (ts : List Token) (k : Kind) :
    headKind (t :: ts) k = t.kind := rfl

theorem headKind_append (ts us : List Token) (k : Kind) :
    headKind (ts ++ us) k = headKind ts (headKind us k) := by
  cases ts <;> rfl

/-- How tightly a level binds. -/
def Precedence.rank : Precedence → Nat
  | disjunction => 0
  | conjunction => 1
  | equality => 2
  | comparison => 3
  | sum => 4
  | product => 5

/-- An expression ends before these kinds, read at a level. -/
def Precedence.Ends (p : Precedence) (k : Kind) : Prop :=
  k ≠ .leftParen ∧ ∀ q : Precedence, p.rank ≤ q.rank → k ∉ q.operators

namespace Phrase

/-- A phrase ends before these kinds. -/
def Ends : Phrase → Kind → Prop
  | .expression => fun k => k ≠ .equal ∧ Precedence.Ends .disjunction k
  | .level p => p.Ends
  | .unary | .call => (· ≠ .leftParen)
  | .statement dangling => fun k => dangling = true → k ≠ .keyword .elseWord
  | .declaration => (· ≠ .keyword .elseWord)
  | _ => fun _ => True

/-- An expression ends before a comma, a semicolon and a closing parenthesis. -/
theorem ends_expression {k : Kind} (h : k ∈ [.comma, .semicolon, .rightParen]) :
    Ends .expression k := by
  simp only [List.mem_cons, List.not_mem_nil, or_false] at h
  rcases h with rfl | rfl | rfl <;> exact ⟨by simp, by simp, fun q _ => by cases q <;> decide⟩

/-- What stands to the left of an equals sign ends there. -/
theorem ends_operation : Ends (.level .disjunction) .equal :=
  ⟨by simp, fun q _ => by cases q <;> decide⟩

/-- The kinds that an operand can start with. -/
def operandStarts : List Kind :=
  [.keyword .falseWord, .keyword .trueWord, .keyword .nilWord, .number, .string, .identifier,
   .leftParen]

/-- The kinds that a statement starts with if it is not an expression statement. -/
def wordStarts : List Kind :=
  [.keyword .forWord, .keyword .ifWord, .keyword .printWord, .keyword .returnWord,
   .keyword .whileWord, .leftBrace]

/-- The kinds that a phrase can start with. -/
def starts : Phrase → List Kind
  | .primary | .call => operandStarts
  | .unary | .level _ | .expression | .arguments | .clause | .expressionStatement =>
    .bang :: .minus :: operandStarts
  | .variable => [.keyword .varWord]
  | .start => .semicolon :: .keyword .varWord :: .bang :: .minus :: operandStarts
  | .statement _ => wordStarts ++ .bang :: .minus :: operandStarts
  | .declaration | .declarations =>
    .keyword .funWord :: .keyword .varWord :: (wordStarts ++ .bang :: .minus :: operandStarts)

end Phrase

namespace Precedence

variable {p : Precedence} {k : Kind}

/-- What ends an operation ends its last operand. -/
theorem Ends.operand (h : p.Ends k) : p.operand.Ends k := by
  cases p with
  | product => exact h.1
  | _ => exact ⟨h.1, fun q hq => h.2 q (Nat.le_of_succ_le hq)⟩

/-- No two levels share an operator. -/
theorem eq_of_mem_operators : ∀ {p q : Precedence}, ∀ k ∈ p.operators, k ∈ q.operators → p = q := by
  intro p q
  cases p <;> cases q <;> decide

theorem eof_notMem_operators (p : Precedence) : .eof ∉ p.operators := by
  cases p <;> decide

theorem leftParen_notMem_operators (p : Precedence) : .leftParen ∉ p.operators := by
  cases p <;> decide

/-- So does an operator of the same level. -/
theorem operand_ends (h : k ∈ p.operators) : p.operand.Ends k := by
  have hparen : k ≠ .leftParen := by
    rintro rfl
    exact p.leftParen_notMem_operators h
  have htighter : ∀ q : Precedence, p.rank < q.rank → k ∉ q.operators := by
    intro q hq hk
    cases eq_of_mem_operators k h hk
    exact Nat.lt_irrefl _ hq
  cases p with
  | product => exact hparen
  | _ => exact ⟨hparen, htighter⟩

end Precedence

namespace Loose

variable {k : Nat} {ph : Phrase} {ts : List Token} {ns : List Node} {xs : List Complaint}

/-- Every phrase with tokens starts with one of its first kinds, and only a clause that is left out
and an empty list of declarations have none. -/
theorem starts (h : Loose k ph ts ns xs) :
    (∃ t us, ts = t :: us ∧ t.kind ∈ ph.starts) ∨ ts = [] ∧ (ph = .clause ∨ ph = .declarations) := by
  induction h with
  | noClause | noDeclarations => exact .inr ⟨rfl, by simp⟩
  | @operand _ p _ _ _ _ ih =>
    rcases ih with ⟨t, us, rfl, ht⟩ | ⟨-, h⟩
    · exact .inl ⟨t, us, rfl, by cases p <;> exact ht⟩
    · cases p <;> simp [Precedence.operand] at h
  | unary h | literal h => rcases h with h | h <;> simp [Phrase.starts, Phrase.operandStarts, h]
  | misassignment _ _ _ _ ih | fold _ _ _ ih | emptyCall _ _ _ ih | call _ _ _ _ ih
  | nextArgument _ _ _ ih | expressionStatement _ _ ih | operation _ ih | callee _ ih
  | primary _ ih | firstArgument _ ih | clause _ ih | startVariable _ ih | startExpression _ ih
  | evaluation _ ih | declareVariable _ ih | statement _ ih | nextDeclaration _ _ ih =>
    rcases ih with ⟨t, us, rfl, ht⟩ | ⟨-, h⟩
    · refine .inl ⟨t, _, rfl, ?_⟩
      simp only [Phrase.starts, List.mem_cons, List.mem_append] at ht ⊢
      grind
    · simp at h
  | _ => simp [Phrase.starts, Phrase.operandStarts, Phrase.wordStarts, *]

/-- A phrase that has tokens is told by its first kinds. -/
theorem headKind_mem (h : Loose k ph ts ns xs) (hc : ph ≠ .clause) (hd : ph ≠ .declarations)
    (follow : Kind) : headKind ts follow ∈ ph.starts := by
  rcases h.starts with ⟨t, us, rfl, ht⟩ | ⟨-, h⟩
  · exact ht
  · exact absurd h (by simp [hc, hd])

theorem ne_nil (h : Loose k ph ts ns xs) (hc : ph ≠ .clause) (hd : ph ≠ .declarations) : ts ≠ [] := by
  rcases h.starts with ⟨t, us, rfl, -⟩ | ⟨-, h⟩
  · simp
  · exact absurd h (by simp [hc, hd])

/-- Declarations that come next start as a declaration does. -/
theorem headKind_declarations (h : Loose k .declarations ts ns xs) (follow : Kind) :
    headKind ts follow = follow ∨ headKind ts follow ∈ Phrase.starts .declaration := by
  rcases h.starts with ⟨t, us, rfl, ht⟩ | ⟨rfl, -⟩
  · exact .inr ht
  · exact .inl rfl

/-- No declaration starts with `else`. -/
theorem headKind_ne_elseWord (h : Loose k .declarations ts ns xs) {follow : Kind}
    (hf : follow ≠ .keyword .elseWord) : headKind ts follow ≠ .keyword .elseWord := by
  rcases h.headKind_declarations follow with e | hmem
  · rwa [e]
  · intro e
    rw [e] at hmem
    simp [Phrase.starts, Phrase.wordStarts, Phrase.operandStarts] at hmem

/-- What may be left out stands for at most one tree. -/
theorem toOption (h : Loose k ph ts ns xs) (hp : ph = .start ∨ ph = .clause) :
    ∃ o : Option Node, ns = o.toList := by
  cases h with
  | noClause | noStart => exact ⟨none, rfl⟩
  | clause | startVariable | startExpression => exact ⟨some _, rfl⟩
  | _ => simp at hp

/-- Parameters start with a name. -/
theorem headKind_parameters {params : List Token}
    (h : Enumerated "parameters" (fun _ us t ys => us = [t] ∧ t.kind = .identifier ∧ ys = []) k ts
      params xs) (follow : Kind) : headKind ts follow = .identifier := by
  induction h generalizing follow with
  | first h => simp [h.1, h.2.1]
  | next _ _ _ ih => rw [headKind_append, ih]

theorem parameters_ne_eof {params : List Token} (h : LooseParameters k ts params xs) :
    ∀ t ∈ ts, t.kind ≠ .eof := by
  rcases h with ⟨rfl, -⟩ | h
  · simp
  · induction h with
    | first h => simp [h.1, h.2.1]
    | next _ hk h ih => simp_all [or_imp]

/-- No token of a phrase is an end token. -/
theorem ne_eof (h : Loose k ph ts ns xs) : ∀ t ∈ ts, t.kind ≠ .eof := by
  induction h with
  | @fold _ p _ _ _ operator _ _ _ _ ho _ ih ih' =>
    have ho : operator.kind ≠ .eof := fun e => p.eof_notMem_operators (e ▸ ho)
    simp_all [or_imp]
  | unary h | literal h => rcases h with h | h <;> simp_all
  | declareFunction _ _ _ hps =>
    have := parameters_ne_eof hps
    simp_all [or_imp]
  | _ => simp_all [or_imp]

end Loose

end LoxLang
