import LoxLang.Proofs.Token.LineNumbers
/-!
# Two texts and a line end between them

A scan of two texts with a line end between them is that of the first, less its end token, and then
that of the second on later lines. Only a string that the first leaves open would go on behind the
line end.
-/

namespace LoxLang

/-- The same error some lines later. -/
def ScanError.later (lines : ℕ) : ScanError → ScanError
  | stray line c => stray (line + lines) c
  | openString line => openString (line + lines)

@[simp] theorem ScanError.line_later (lines : ℕ) (e : ScanError) :
    (e.later lines).line = e.line + lines := by
  cases e <;> rfl

@[simp] theorem ScanError.message_later (lines : ℕ) (e : ScanError) :
    (e.later lines).message = e.message := by
  cases e <;> rfl

namespace Scan

/-! ## The same items on later lines -/

theorem lastLine_later (is : List Item) (line lines : ℕ) :
    lastLine (line + lines) is = lastLine line is + lines := by
  rw [lastLine_eq, lastLine_eq, Nat.add_right_comm]

theorem tokens_later (is : List Item) (line lines : ℕ) :
    (ofItems (line + lines) is).tokens = (ofItems line is).tokens.map (·.later lines) := by
  rw [tokens_ofItems, tokens_ofItems, body_later, lastLine_later, List.map_append]
  simp [Token.eof, Token.later]

theorem errors_later (is : List Item) (line lines : ℕ) :
    (ofItems (line + lines) is).errors = (ofItems line is).errors.map (·.later lines) := by
  induction is generalizing line with
  | nil => rfl
  | cons i is ih =>
    rw [ofItems, ofItems, Nat.add_right_comm, List.map_append, ← ih]
    cases i <;> rfl

/-! ## Items one behind the other -/

theorem tokens_append (is js : List Item) (line : ℕ) :
    (ofItems line (is ++ js)).tokens = body line is ++ (ofItems (lastLine line is) js).tokens := by
  induction is generalizing line with
  | nil => rfl
  | cons i is ih => rw [List.cons_append, ofItems, body, lastLine, List.append_assoc, ← ih]

theorem errors_append (is js : List Item) (line : ℕ) :
    (ofItems line (is ++ js)).errors =
      (ofItems line is).errors ++ (ofItems (lastLine line is) js).errors := by
  induction is generalizing line with
  | nil => rfl
  | cons i is ih => rw [List.cons_append, ofItems, ofItems, lastLine, List.append_assoc, ← ih]

/-- A string that is left open is an error. -/
theorem openString_error {is : List Item} {text : List Char} (h : Item.openString text ∈ is)
    (line : ℕ) : ∃ line', ScanError.openString line' ∈ (ofItems line is).errors := by
  induction is generalizing line with
  | nil => cases h
  | cons i is ih =>
    rw [ofItems]
    rcases List.mem_cons.1 h with rfl | h
    · exact ⟨line, List.mem_append_left _ (by simp [Item.error?])⟩
    · obtain ⟨line', he⟩ := ih h (line + i.newlines)
      exact ⟨line', List.mem_append_right _ he⟩

/-- If a text leaves no string open, any text behind a line end can follow it: the scan of both gives
the tokens of the first, less its end token, and then those of the second, and reports what is wrong
with the first and then what is wrong with the second, all of that as many lines later as the first
text and the line end take. -/
theorem ofText_line {A B : String}
    (h : ∀ e ∈ (ofText A).errors, e.message ≠ "Unterminated string.") :
    let lines := 1 + A.toList.count '\n'
    let joined := ofText (A ++ "\n" ++ B)
    joined.tokens = (ofText A).tokens.filter (·.kind ≠ .eof) ++
        (ofText B).tokens.map (·.later lines) ∧
      joined.errors = (ofText A).errors ++ (ofText B).errors.map (·.later lines) ∧
      ∀ d : Diagnostics, (d.addScan joined.errors).messages =
        (d.addScan (ofText A).errors).messages ++ (ofText B).errors.map fun e =>
          "[line " ++ intText (e.line + lines) ++ "] Error: " ++ e.message := by
  intro lines joined
  have hclosed : ∀ text, Item.openString text ∉ items A.toList := by
    intro text ht
    obtain ⟨line, he⟩ := openString_error ht 1
    exact h _ he rfl
  have hitems : items (A ++ "\n" ++ B).toList = items A.toList ++ .newline :: items B.toList := by
    rw [String.toList_append, String.toList_append, List.append_assoc]
    exact items_line B.toList hclosed
  -- The line end is no token and no error, but the second text starts one line below it.
  have hlast : lastLine 1 (items A.toList) + Item.newline.newlines = 1 + lines := by
    rw [lastLine_items]
    exact Nat.add_comm _ _
  have htokens : joined.tokens = (ofText A).tokens.filter (·.kind ≠ .eof) ++
      (ofText B).tokens.map (·.later lines) := by
    rw [tokens_ne_eof, ofText, ← tokens_later, ← hlast]
    change (ofItems 1 (items (A ++ "\n" ++ B).toList)).tokens = _
    rw [hitems, tokens_append, ofItems]
    rfl
  have herrors : joined.errors = (ofText A).errors ++ (ofText B).errors.map (·.later lines) := by
    rw [ofText, ofText, ← errors_later, ← hlast]
    change (ofItems 1 (items (A ++ "\n" ++ B).toList)).errors = _
    rw [hitems, errors_append, ofItems]
    rfl
  refine ⟨htokens, herrors, fun d => ?_⟩
  rw [herrors, d.messages_scan, d.messages_scan, List.map_append, List.append_assoc, List.map_map]
  simp [Function.comp_def]

/-- A stray character, a string over two lines and a comment that ends at the line end, in front of a
text that would go on with all of them. -/
theorem ofText_line_comment :
    let A := "@ 1. \"a\nb\" = // c"
    let B := "= 5 / \" \n @"
    (∀ e ∈ (ofText A).errors, e.message ≠ "Unterminated string.") ∧
      (ofText (A ++ "\n" ++ B)).tokens =
        (ofText A).tokens.filter (·.kind ≠ .eof) ++ (ofText B).tokens.map (·.later 2) ∧
      (ofText (A ++ "\n" ++ B)).errors = [.stray 1 '@', .openString 3] := by
  intro A B
  have hclosed : ∀ e ∈ (ofText A).errors, e.message ≠ "Unterminated string." := by decide +kernel
  have hlines : 1 + A.toList.count '\n' = 2 := by decide +kernel
  obtain ⟨htokens, herrors, -⟩ := ofText_line (B := B) hclosed
  have hA : (ofText A).errors = [.stray 1 '@'] := by decide +kernel
  have hB : (ofText B).errors = [.openString 1] := by decide +kernel
  rw [hlines] at htokens
  rw [hA, hB, hlines] at herrors
  exact ⟨hclosed, htokens, herrors⟩

end Scan

end LoxLang
