import LoxLang.Proofs.Decimal.Texts
import LoxLang.Proofs.Token.LineNumbers
/-!
# Tokens and errors

What items come to: some give a token, some are blamed, and the others are passed over.
-/

namespace LoxLang

namespace Item

/-- The items that are tokens. -/
def isToken : Item → Bool
  | mark .. | number .. | word .. | string .. => true
  | _ => false

/-- The items that are errors. -/
def isError : Item → Bool
  | stray .. | openString .. => true
  | _ => false

/-- The amount that digits before and after a point stand for. -/
def amount (whole fraction : List Char) : ℚ :=
  Nat.ofDigitChars 10 (whole ++ fraction) 0 / 10 ^ fraction.length

/-- An amount is read as this double. -/
def ReadAs (v : ℚ) (x : Float) : Prop := v = 0 ∧ x = 0 ∨ 0 < v ∧ Rounded v x

/-- The token that an item gives, but for its line. -/
inductive Gives : Item → Token → Prop
  | mark {kind : Kind} {text : List Char} {line : ℕ} :
      Gives (.mark kind text) ⟨kind, String.ofList text, .nil, line⟩
  | number {whole fraction : List Char} {x : Float} {line : ℕ} : ReadAs (amount whole fraction) x →
      Gives (.number whole fraction)
        ⟨.number, String.ofList (Item.number whole fraction).text, .number x, line⟩
  | name {text : List Char} {line : ℕ} : (∀ word : Keyword, word.text ≠ String.ofList text) →
      Gives (.word text) ⟨.identifier, String.ofList text, .string (String.ofList text), line⟩
  | keyword {text : List Char} {word : Keyword} {line : ℕ} : word.text = String.ofList text →
      Gives (.word text) ⟨.keyword word, word.text, .string word.text, line⟩
  | string {body : List Char} {line : ℕ} :
      Gives (.string body)
        ⟨.string, String.ofList ('"' :: body ++ ['"']), .string (String.ofList body), line⟩

theorem Gives.lexeme {i : Item} {t : Token} (h : Gives i t) : t.lexeme = String.ofList i.text := by
  cases h with
  | keyword h => exact h
  | _ => rfl

/-- The message about an item, but for its line. -/
inductive Blamed : Item → String → Prop
  | stray {c : Char} {line : ℤ} : Blamed (.stray c)
      ("[line " ++ intText line ++ "] Error: " ++
        ("Unexpected character '" ++ String.ofList [c] ++ "'."))
  | openString {body : List Char} {line : ℤ} : Blamed (.openString body)
      ("[line " ++ intText line ++ "] Error: " ++ "Unterminated string.")

/-- A number is read as the double nearest to its amount. -/
theorem readAs_amount (whole fraction : List Char) : ReadAs (amount whole fraction)
    (Decimal.ofDigits (digitValues whole) (digitValues fraction) 0).toFloat := by
  rw [ofDigits_digitValues, zero_sub]
  have hamount : amount whole fraction =
      (Decimal.mk (Nat.ofDigitChars 10 (whole ++ fraction) 0) (-fraction.length)).amount := by
    rw [amount, Decimal.amount, zpow_neg, zpow_natCast, div_eq_mul_inv]
  rcases Nat.eq_zero_or_pos (Nat.ofDigitChars 10 (whole ++ fraction) 0) with h | h
  · refine .inl ⟨by simp [amount, h], ?_⟩
    rw [h, Decimal.toFloat_zero]
  · refine .inr ?_
    rw [hamount]
    exact ⟨Decimal.coefficient_pos_iff.1 h, Decimal.rounded h⟩

theorem gives_word (text : List Char) (line : ℕ) : Gives (.word text)
    ⟨wordKind (String.ofList text), String.ofList text, .string (String.ofList text), line⟩ := by
  unfold wordKind
  split
  · next word hword =>
    have htext : word.text = String.ofList text := by simpa using List.find?_some hword
    rw [← htext]
    exact .keyword htext
  · next hnone =>
    refine .name fun word htext => ?_
    rw [← htext, Keyword.ofText?_text] at hnone
    cases hnone

theorem gives_of_token? {i : Item} {line : ℕ} {t : Token} (h : i.token? line = some t) :
    Gives i t := by
  cases i with
  | mark =>
    cases h
    exact .mark
  | number whole fraction =>
    cases h
    exact .number (readAs_amount whole fraction)
  | word text =>
    cases h
    exact gives_word text line
  | string =>
    cases h
    exact .string
  | _ => cases h

theorem exists_token? {i : Item} (h : i.isToken) (line : ℕ) : ∃ t, i.token? line = some t := by
  cases i <;> first | exact ⟨_, rfl⟩ | cases h

theorem token?_eq_none {i : Item} (h : i.isToken = false) (line : ℕ) : i.token? line = none := by
  cases i <;> first | rfl | cases h

theorem exists_error? {i : Item} (h : i.isError) (line : ℕ) : ∃ e, i.error? line = some e := by
  cases i <;> first | exact ⟨_, rfl⟩ | cases h

theorem blamed_of_error? {i : Item} {line : ℕ} {e : ScanError} (h : i.error? line = some e) :
    Blamed i ("[line " ++ intText e.line ++ "] Error: " ++ e.message) := by
  cases i with
  | stray =>
    cases h
    exact .stray
  | openString =>
    cases h
    exact .openString
  | _ => cases h

theorem error?_eq_none {i : Item} (h : i.isError = false) (line : ℕ) : i.error? line = none := by
  cases i <;> first | rfl | cases h

end Item

end LoxLang
