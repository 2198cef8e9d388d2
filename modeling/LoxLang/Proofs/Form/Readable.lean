import LoxLang.Form.Expression
import LoxLang.Proofs.Decimal.Nearest
import LoxLang.Proofs.Reading.Text
/-!
# Readable expressions

An expression is readable if prefix form can spell its tokens and its values: names are words,
operators are heads, strings hold no quotes, and numbers are such as numerals stand for. The
expressions of a source text are readable.
-/

namespace LoxLang

/-- A text that is a single name in prefix form. -/
def IsWord (text : String) : Prop :=
  ∃ c cs, text.toList = c :: cs ∧ Terminal.isNameStart c ∧ ∀ d ∈ cs, Terminal.isNameRest d

/-- The names that stand for values. -/
def literalNames : List String := ["true", "false", "nil"]

/-- The token of a variable that its name alone determines. -/
structure Token.IsName (t : Token) : Prop where
  kind : t.kind = .identifier
  literal : t.literal = .string t.lexeme
  word : IsWord t.lexeme
  free : t.lexeme ∉ literalNames

/-- A token that prefix form can spell in a role. -/
def Token.Fits (t : Token) : Role → Prop
  | .used => t.IsName
  | .unary => (t.lexeme, t.kind) ∈ Form.unaryHeads
  | .binary => (t.lexeme, t.kind) ∈ Form.binaryHeads
  | .logical => (t.lexeme, t.kind) ∈ Form.logicalHeads
  | .paren => t.kind = .rightParen ∧ t.lexeme = ")" ∧ t.literal = .nil
  | .declared | .parameter | .keyword => True

/-- A value that prefix form can spell. -/
def Value.Spelled : Value → Prop
  | nil | bool _ => True
  | number x => Unsigned x
  | string s => '"' ∉ s.toList
  | native _ | function _ => False

/-- A tree is readable if it is like itself in this sense. -/
def Likeness.readable : Likeness where
  token role t t' := t = t' ∧ t.Fits role
  literal := Value.Spelled
  misplaced := False

/-- An expression that prefix form can spell. -/
abbrev Node.Readable (n : Node) : Prop := Node.Alike .readable .expression n n

/-! ## Expressions of source texts -/

theorem Item.wordKind_cases (text : String) :
    wordKind text = .identifier ∨ ∃ word, Keyword.ofText? text = some word ∧
      wordKind text = .keyword word := by
  unfold wordKind
  cases h : Keyword.ofText? text with
  | none => exact .inl rfl
  | some word => exact .inr ⟨word, rfl, rfl⟩

theorem Keyword.text_ofText? {text : String} {word : Keyword} (h : ofText? text = some word) :
    word.text = text := by
  simpa using List.find?_some h

/-- A mark fits wherever its kind does. -/
theorem fits_mark {role : Role} {t : Token} (h : (t.lexeme, t.kind) ∈ Item.marks)
    (hk : t.kind ∈ role.kinds) (hl : t.literal = .nil) : t.Fits role := by
  have hunary : ∀ p ∈ Item.marks, p.2 ∈ Role.unary.kinds → p ∈ Form.unaryHeads := by decide
  have hbinary : ∀ p ∈ Item.marks, p.2 ∈ Role.binary.kinds → p ∈ Form.binaryHeads := by decide
  have hlogical : ∀ p ∈ Item.marks, p.2 ∉ Role.logical.kinds := by decide
  have hused : ∀ p ∈ Item.marks, p.2 ∉ Role.used.kinds := by decide
  have hparen : ∀ p ∈ Item.marks, p.2 ∈ Role.paren.kinds → p = (")", .rightParen) := by decide
  cases role with
  | used => exact absurd hk (hused _ h)
  | unary => exact hunary _ h hk
  | binary => exact hbinary _ h hk
  | logical => exact absurd hk (hlogical _ h)
  | paren =>
    have hpair := hparen _ h hk
    exact ⟨congrArg Prod.snd hpair, congrArg Prod.fst hpair, hl⟩
  | declared | parameter | keyword => trivial

/-- A word fits wherever its kind does. -/
theorem fits_word {role : Role} {text : List Char} {line : ℕ} {t : Token}
    (hw : (Item.word text).Proper) (ht : (Item.word text).token? line = some t)
    (hk : t.kind ∈ role.kinds) : t.Fits role := by
  obtain ⟨c, cs, rfl, hc, hcs⟩ := hw
  cases ht
  have hkind : Item.wordKind (String.ofList (c :: cs)) ∈ role.kinds := hk
  rcases Item.wordKind_cases (String.ofList (c :: cs)) with h | ⟨word, hword, h⟩ <;> rw [h] at hkind
  · have hname : Token.IsName ⟨Item.wordKind (String.ofList (c :: cs)), String.ofList (c :: cs),
        .string (String.ofList (c :: cs)), line⟩ := by
      refine ⟨h, rfl, ⟨c, cs, String.toList_ofList, hc, hcs⟩, fun hfree => ?_⟩
      have hreserved : ∀ name ∈ literalNames, Item.wordKind name ≠ .identifier := by decide
      exact hreserved _ hfree h
    cases role with
    | used => exact hname
    | declared | parameter | keyword => trivial
    | _ => exact absurd hkind (by decide)
  · have hhead : ∀ word : Keyword, .keyword word ∈ Role.logical.kinds →
        (word.text, .keyword word) ∈ Form.logicalHeads := by
      intro word
      cases word <;> decide
    cases role with
    | logical =>
      have := hhead word hkind
      rw [Keyword.text_ofText? hword, ← h] at this
      exact this
    | declared | parameter | keyword => trivial
    | _ => exact absurd hkind (by cases word <;> decide)

theorem Role.kinds_plain (role : Role) :
    .eof ∉ role.kinds ∧ .number ∉ role.kinds ∧ .string ∉ role.kinds := by
  cases role <;> decide

/-- A token of a source text fits wherever its kind does. -/
theorem fits_of_mem {source : String} {t : Token} (h : t ∈ (Scan.ofText source).tokens) {role : Role}
    (hk : t.kind ∈ role.kinds) : t.Fits role := by
  obtain ⟨heof, hnumber, hstring⟩ := role.kinds_plain
  rcases Scan.mem_tokens_ofText h with he | ⟨i, hi, line, ht⟩
  · exact absurd (he ▸ hk) heof
  · cases i with
    | mark kind text =>
      cases ht
      exact fits_mark hi hk rfl
    | word text => exact fits_word hi ht hk
    | number =>
      cases ht
      exact absurd hk hnumber
    | string =>
      cases ht
      exact absurd hk hstring
    | _ => cases ht

/-- The literal of a number or of a string can be spelled. -/
theorem spelled_of_mem {source : String} {t : Token} (h : t ∈ (Scan.ofText source).tokens)
    (hk : t.kind = .number ∨ t.kind = .string) : t.literal.Spelled := by
  rcases Scan.mem_tokens_ofText h with he | ⟨i, hi, line, ht⟩
  · rw [he] at hk
    rcases hk with hk | hk <;> cases hk
  · cases i with
    | mark kind text =>
      cases ht
      have hmarks : ∀ p ∈ Item.marks, p.2 ≠ .number ∧ p.2 ≠ .string := by decide
      obtain ⟨hnumber, hstring⟩ := hmarks _ hi
      rcases hk with hk | hk
      · exact absurd hk hnumber
      · exact absurd hk hstring
    | word text =>
      cases ht
      rcases Item.wordKind_cases (String.ofList text) with h | ⟨word, -, h⟩ <;>
        rcases hk with hk | hk <;> exact absurd (h.symm.trans hk) (by simp)
    | number =>
      cases ht
      exact Decimal.toFloat_unsigned _
    | string body =>
      cases ht
      change '"' ∉ (String.ofList body).toList
      rw [String.toList_ofList]
      exact hi
    | _ => cases ht

/-- Every expression of a source text is well formed and holds no tokens but those of the text, also
if there was something wrong with it. -/
theorem Program.proper_expression {source : String} {nesting : Nat} {n e : Node}
    (hn : n ∈ (ofText source nesting).statements) (he : e.Within n) (hexpr : e.isExpression) :
    e.Proper (· ∈ (Scan.ofText source).tokens) .expression := by
  obtain ⟨-, -, -, hproper, -⟩ := ofText_reads source _
  obtain ⟨s, hs, h⟩ := (hproper n hn).within id he
  cases s with
  | expression => exact h
  | statement b =>
    have := Node.isExecutable_of_isExpression hexpr
    exact absurd (hs.symm.trans this) (by simp)

/-- Every expression of a source text is readable. -/
theorem Program.readable {source : String} {nesting : Nat} {n e : Node}
    (hn : n ∈ (ofText source nesting).statements) (he : e.Within n) (hexpr : e.isExpression) :
    e.Readable := by
  refine Node.Alike.imp ?_ ?_ False.elim (proper_expression hn he hexpr)
  · rintro role t t' ⟨rfl, ht, hk⟩
    exact ⟨rfl, fits_of_mem ht hk⟩
  · rintro v (rfl | ⟨b, rfl⟩ | ⟨t, ht, hk, rfl⟩)
    · trivial
    · trivial
    · exact spelled_of_mem ht hk

end LoxLang
