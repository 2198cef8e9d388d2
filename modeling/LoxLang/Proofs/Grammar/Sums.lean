import LoxLang.Proofs.Reading.Text
/-!
# Sums of any length

A sum is parsed by a loop, so it may have any number of terms, whatever the layers that the parser
may nest. Its tree nests once for each plus sign.
-/

namespace LoxLang

namespace LongSum

/-- The text of so many more terms, with the semicolon behind them. -/
def addends : ℕ → List Char
  | 0 => [';']
  | n + 1 => '+' :: '1' :: addends n

/-- A statement that adds ones, with a number of plus signs. -/
def text (n : ℕ) : String := String.ofList ('1' :: addends n)

/-- The token of a one. -/
def one : Token := ⟨.number, "1", .number (Decimal.toFloat ⟨1, 0⟩), 1⟩

/-- The token of a plus sign. -/
def plus : Token := ⟨.plus, "+", .nil, 1⟩

/-- The tokens of so many more terms, with the semicolon and the end behind them. -/
def tokens : ℕ → List Token
  | 0 => [⟨.semicolon, ";", .nil, 1⟩, Token.eof 1]
  | n + 1 => plus :: one :: tokens n

/-- So many more ones added to a tree. -/
def tree (left : Node) : ℕ → Node
  | 0 => left
  | n + 1 => tree (.binary left plus (.literal one.literal)) n

/-- The tree of the statement. -/
def sum (n : ℕ) : Node := tree (.literal one.literal) n

theorem scan_addends (n : ℕ) : (Scan.ofItems 1 (items (addends n))).tokens = tokens n := by
  induction n with
  | zero =>
    have hnext : Item.next ';' [] = (.mark .semicolon [';'], []) := rfl
    rw [addends, items, hnext, items]
    rfl
  | succ n ih =>
    have hplus : Item.next '+' ('1' :: addends n) = (.mark .plus ['+'], '1' :: addends n) := rfl
    have hone : Item.next '1' (addends n) = (.number ['1'] [], addends n) := by cases n <;> rfl
    rw [addends, items, hplus, items, hone]
    exact congrArg (plus :: one :: ·) ih

theorem scan_text (n : ℕ) : (Scan.ofText (text n)).tokens = one :: tokens n := by
  have hone : Item.next '1' (addends n) = (.number ['1'] [], addends n) := by cases n <;> rfl
  rw [Scan.ofText, text, String.toList_ofList, items, hone]
  exact congrArg (one :: ·) (scan_addends n)

theorem tokens_cons (n : ℕ) : ∃ t rest, tokens n = t :: rest ∧ (t.kind = .plus ∨ t.kind = .semicolon) := by
  cases n with
  | zero => exact ⟨_, _, rfl, .inr rfl⟩
  | succ n => exact ⟨_, _, rfl, .inl rfl⟩

open Rules Parse

theorem chain_pass {level : Level} {operand : Parse Node} {rounds : ℕ} {left : Node} {c : Cursor}
    {t : Token} {rest : List Token} (h : c.after = t :: rest) (hk : t.kind ∉ level.operators) :
    chain level operand (rounds + 1) left c = .ok left c := by
  change EStateM.bind (accept? level.operators) _ c = _
  rw [EStateM.bind, accept?_eq h, if_neg fun h => hk h.2]
  rfl

theorem operation_pass {innermost : Parse Node} {level : Level} {tighter : List Level} {rounds : ℕ}
    {c c' : Cursor} {n : Node} (h : operation (rounds + 1) innermost tighter c = .ok n c') {t : Token}
    {rest : List Token} (hc : c'.after = t :: rest) (hk : t.kind ∉ level.operators) :
    operation (rounds + 1) innermost (level :: tighter) c = .ok n c' := by
  change EStateM.bind (operation (rounds + 1) innermost tighter) _ c = _
  rw [EStateM.bind, h]
  exact chain_pass hc hk

/-- A number with neither a call nor a tighter operator behind it. -/
theorem unaryRule_number {below : Rules} (hr : below.rounds ≠ 0) {c : Cursor} {t u : Token}
    {rest : List Token} (h : c.after = t :: u :: rest) (ht : t.kind = .number)
    (hu : u.kind ≠ .leftParen) :
    unaryRule below c = .ok (.literal t.literal) ⟨t :: c.before, u :: rest, c.complaints⟩ := by
  have hprimary : primary below c =
      .ok (.literal t.literal) ⟨t :: c.before, u :: rest, c.complaints⟩ := by
    change EStateM.bind (accept? primaryStarts) _ c = _
    rw [EStateM.bind, accept?_eq h, if_pos (by rw [ht]; decide)]
    dsimp only
    rw [primaryFrom, ht]
    rfl
  have hcalls : ∀ {c' : Cursor} {rounds : ℕ} {n : Node}, c'.after = u :: rest → rounds ≠ 0 →
      calls below rounds n c' = .ok n c' := by
    intro c' rounds n hc hr
    obtain ⟨rounds, rfl⟩ := Nat.exists_eq_succ_of_ne_zero hr
    change EStateM.bind (accept? [.leftParen]) _ c' = _
    rw [EStateM.bind, accept?_eq hc, if_neg fun h => hu (List.mem_singleton.1 h.2)]
    rfl
  change EStateM.bind (accept? [.bang, .minus]) _ c = _
  rw [EStateM.bind, accept?_eq h, if_neg (by rw [ht]; decide)]
  change EStateM.bind (primary below) _ c = _
  rw [EStateM.bind, hprimary]
  exact hcalls rfl hr

/-- What a parser makes of a single one, with what is left behind it. -/
def TakesOne (operand : Parse Node) : Prop :=
  ∀ (c : Cursor) (n : ℕ), c.after = one :: tokens n →
    operand c = .ok (.literal one.literal) ⟨one :: c.before, tokens n, c.complaints⟩

theorem takesOne_operand {below : Rules} (hr : below.rounds ≠ 0) :
    TakesOne (operation below.rounds (unaryRule below) [⟨[.slash, .star], .binary⟩]) := by
  intro c n h
  obtain ⟨t, rest, ht, hk⟩ := tokens_cons n
  obtain ⟨rounds, hrounds⟩ := Nat.exists_eq_succ_of_ne_zero hr
  rw [ht] at h ⊢
  have hunary := unaryRule_number hr h rfl (by rcases hk with hk | hk <;> rw [hk] <;> decide)
  rw [hrounds]
  exact operation_pass hunary rfl (by rcases hk with hk | hk <;> rw [hk] <;> decide)

/-- Each round of the loop adds one more term. -/
theorem chain_sum {operand : Parse Node} (hop : TakesOne operand) {n rounds : ℕ} (hr : n < rounds)
    {left : Node} {c : Cursor} (h : c.after = tokens n) :
    ∃ before, chain ⟨[.minus, .plus], .binary⟩ operand rounds left c =
      .ok (tree left n) ⟨before, tokens 0, c.complaints⟩ := by
  induction n generalizing rounds left c with
  | zero =>
    obtain ⟨rounds, rfl⟩ := Nat.exists_eq_succ_of_ne_zero hr.ne'
    obtain ⟨before, after, complaints⟩ := c
    cases h
    exact ⟨before, chain_pass rfl (by decide)⟩
  | succ n ih =>
    obtain ⟨rounds, rfl⟩ := Nat.exists_eq_succ_of_ne_zero (Nat.ne_zero_of_lt hr)
    have hterm := hop ⟨plus :: c.before, one :: tokens n, c.complaints⟩ n rfl
    obtain ⟨before, hrest⟩ := @ih rounds (by omega) (.binary left plus (.literal one.literal))
      ⟨one :: plus :: c.before, tokens n, c.complaints⟩ rfl
    refine ⟨before, ?_⟩
    rw [tree, ← hrest]
    change EStateM.bind (accept? [.minus, .plus]) _ c = _
    rw [EStateM.bind, accept?_eq h, if_pos (by decide)]
    change EStateM.bind operand _ _ = _
    rw [EStateM.bind, hterm]

/-- A sum of any number of terms is an expression. -/
theorem expressionRule_sum {below : Rules} {n : ℕ} (hr : n < below.rounds) {c : Cursor}
    (h : c.after = one :: tokens n) :
    ∃ before, expressionRule below c =
      .ok (sum n) ⟨before, tokens 0, c.complaints⟩ := by
  have hrounds : below.rounds ≠ 0 := by omega
  have hop := takesOne_operand hrounds
  obtain ⟨before, hchain⟩ := @chain_sum _ hop n _ hr (.literal one.literal)
    ⟨one :: c.before, tokens n, c.complaints⟩ rfl
  have hsum : operation below.rounds (unaryRule below) (levels.drop 4) c =
      .ok (sum n) ⟨before, tokens 0, c.complaints⟩ := by
    change EStateM.bind (operation below.rounds (unaryRule below) _) _ c = _
    rw [EStateM.bind, hop c n h]
    exact hchain
  have hlevels : operation below.rounds (unaryRule below) levels c =
      .ok (sum n) ⟨before, tokens 0, c.complaints⟩ := by
    obtain ⟨rounds, hsucc⟩ := Nat.exists_eq_succ_of_ne_zero hrounds
    rw [hsucc] at hsum ⊢
    exact operation_pass (operation_pass (operation_pass (operation_pass hsum rfl (by decide)) rfl
      (by decide)) rfl (by decide)) rfl (by decide)
  refine ⟨before, ?_⟩
  change EStateM.bind (operation below.rounds (unaryRule below) levels) _ c = _
  rw [EStateM.bind, hlevels]
  change EStateM.bind (accept? [.equal]) _ _ = _
  rw [EStateM.bind, accept?_eq rfl, if_neg (by decide)]
  rfl

/-- A sum with its semicolon is a declaration. -/
theorem declarationRule_sum {below : Rules} {n : ℕ} (hr : n < below.rounds) {c : Cursor}
    (h : c.after = one :: tokens n) :
    ∃ before, declarationRule below c =
      .ok (some (.exprStmt (sum n))) ⟨before, [Token.eof 1], c.complaints⟩ := by
  obtain ⟨before, hsum⟩ := expressionRule_sum hr h
  have hended : endedBy below "';' after expression" c = .ok (sum n)
      ⟨⟨.semicolon, ";", .nil, 1⟩ :: before, [Token.eof 1], c.complaints⟩ := by
    change EStateM.bind (expressionRule below) _ c = _
    rw [EStateM.bind, hsum]
    change EStateM.bind (expect .semicolon _) _ _ = _
    rw [EStateM.bind, expect_eq rfl, if_pos (by decide)]
    rfl
  have hstatement : statementRule below c = .ok (.exprStmt (sum n))
      ⟨⟨.semicolon, ";", .nil, 1⟩ :: before, [Token.eof 1], c.complaints⟩ := by
    change EStateM.bind (accept? statementStarts) _ c = _
    rw [EStateM.bind, accept?_eq h, if_neg (by decide)]
    change EStateM.bind (endedBy below _) _ c = _
    rw [EStateM.bind, hended]
    rfl
  have hsound : soundDeclaration below c = .ok (.exprStmt (sum n))
      ⟨⟨.semicolon, ";", .nil, 1⟩ :: before, [Token.eof 1], c.complaints⟩ := by
    change EStateM.bind (accept? [.keyword .funWord, .keyword .varWord]) _ c = _
    rw [EStateM.bind, accept?_eq h, if_neg (by decide)]
    exact hstatement
  refine ⟨⟨.semicolon, ";", .nil, 1⟩ :: before, ?_⟩
  change EStateM.tryCatch (EStateM.map some (soundDeclaration below)) _ c = _
  rw [EStateM.tryCatch, EStateM.map, hsound]

theorem le_length_tokens (n : ℕ) : n ≤ (tokens n).length := by
  induction n with
  | zero => exact Nat.zero_le _
  | succ n ih => exact Nat.succ_le_succ (Nat.le_succ_of_le ih)

/-- The statement is the only declaration of its text. -/
theorem declarations_sum {n rounds : ℕ} (h : n + 2 ≤ rounds) (nesting : ℕ) :
    ∃ c, Program.declarations (Rules.atop rounds (nesting + 1)) rounds ⟨[], one :: tokens n, []⟩ =
      .ok [.exprStmt (sum n)] c := by
  obtain ⟨before, hfirst⟩ := @declarationRule_sum (Rules.atop rounds nesting) n
    (by rw [Rules.rounds_atop]; omega) ⟨[], one :: tokens n, []⟩ rfl
  have hlayer : (Rules.atop rounds (nesting + 1)).declaration ⟨[], one :: tokens n, []⟩ =
      .ok (some (.exprStmt (sum n))) ⟨before, [Token.eof 1], []⟩ := hfirst
  -- One round takes the statement, the next one finds the end.
  obtain ⟨rest, rfl⟩ : ∃ rest, rounds = rest + 2 := ⟨rounds - 2, by omega⟩
  refine ⟨⟨before, [Token.eof 1], []⟩, ?_⟩
  rw [Program.declarations_cons rfl (by decide) hlayer]
  change EStateM.bind (Program.declarations _ _) _ _ = _
  rw [EStateM.bind, Program.declarations_end rfl rfl]
  rfl

/-- A sum of any number of terms is a program, also for a parser that hardly nests. -/
theorem statements_text (n : ℕ) {nesting : ℕ} (h : 0 < nesting) :
    (Program.ofText (text n) nesting).statements = [.exprStmt (sum n)] := by
  obtain ⟨nesting, rfl⟩ := Nat.exists_eq_add_of_lt h
  have hrounds : n + 2 ≤ (one :: tokens n).length + 1 := by
    have := le_length_tokens n
    rw [List.length_cons]
    omega
  obtain ⟨c, hc⟩ := declarations_sum hrounds (0 + nesting)
  have hprogram : Program.within? (0 + nesting + 1) (one :: tokens n) =
      some ⟨[.exprStmt (sum n)], c.complaints⟩ := by
    dsimp only [Program.within?]
    rw [hc]
  rw [Program.ofText, Program.ofScan, scan_text, hprogram]
  rfl

theorem height_tree (left : Node) (n : ℕ) : (tree left n).height = left.height + n := by
  induction n generalizing left with
  | zero => rfl
  | succ n ih =>
    have hpos := left.height_pos
    rw [tree, ih, Node.height, Node.height]
    omega

/-- The tree nests once for each plus sign. -/
theorem height_sum (n : ℕ) : (sum n).height = 1 + n := height_tree (.literal one.literal) n

theorem isExpression_tree {left : Node} (h : left.isExpression) (n : ℕ) :
    (tree left n).isExpression := by
  induction n generalizing left with
  | zero => exact h
  | succ n ih => exact ih rfl

theorem isExpression_sum (n : ℕ) : (sum n).isExpression := isExpression_tree rfl n

end LongSum

end LoxLang
