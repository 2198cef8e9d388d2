import LoxLang.Diagnostics
import LoxLang.Proofs.Token.Lines
/-!
# The lines of tokens and errors

Whatever a scan gives stands on a line of the text: a token, the end token, or an error.
-/

namespace LoxLang

/-- A text has one line more than it has line ends, and they are counted from one. -/
def IsLine (source : String) (line : Int) : Prop := 1 ≤ line ∧ line ≤ 1 + source.toList.count '\n'

/-- A message that names a line and no place in it. -/
theorem Diagnostics.message_nowhere (line : String) :
    line ++ "] Error" ++ "" ++ ": " = line ++ "] Error: " := by
  rw [String.append_empty, String.append_assoc]
  rfl

/-- The messages about what a scan found wrong. -/
theorem Diagnostics.messages_scan (d : Diagnostics) (errors : List ScanError) :
    (d.addScan errors).messages = d.messages ++ errors.map fun e =>
      "[line " ++ intText e.line ++ "] Error: " ++ e.message := by
  simp only [d.messages_addScan, message_nowhere]

namespace Scan

theorem lastLine_eq (line : Nat) (is : List Item) :
    lastLine line is = line + (is.flatMap Item.text).count '\n' := by
  induction is generalizing line with
  | nil => rfl
  | cons i is ih =>
    rw [lastLine, ih, List.flatMap_cons, List.count_append, Item.newlines, Nat.add_assoc]

theorem lastLine_items (source : String) :
    lastLine 1 (items source.toList) = 1 + source.toList.count '\n' := by
  rw [lastLine_eq, text_items]

theorem line_of_token? {i : Item} {line : Nat} {t : Token} (h : i.token? line = some t) :
    t.line = line := by
  cases i <;> cases h <;> rfl

theorem line_of_error? {i : Item} {line : Nat} {e : ScanError} (h : i.error? line = some e) :
    e.line = line := by
  cases i <;> cases h <;> rfl

theorem line_of_mem_body {is : List Item} {line : Nat} {t : Token} (h : t ∈ body line is) :
    line ≤ t.line ∧ t.line ≤ lastLine line is := by
  induction is generalizing line with
  | nil => cases h
  | cons i is ih =>
    have hlast := le_lastLine is (line + i.newlines)
    rw [lastLine]
    rcases List.mem_append.1 h with h | h
    · have hline := line_of_token? (Option.mem_toList.1 h)
      omega
    · have hline := ih h
      omega

theorem line_of_mem_errors {is : List Item} {line : Nat} {e : ScanError}
    (h : e ∈ (ofItems line is).errors) : line ≤ e.line ∧ e.line ≤ lastLine line is := by
  induction is generalizing line with
  | nil => cases h
  | cons i is ih =>
    have hlast := le_lastLine is (line + i.newlines)
    rw [lastLine]
    rcases List.mem_append.1 h with h | h
    · have hline := line_of_error? (Option.mem_toList.1 h)
      omega
    · have hline := ih h
      omega

theorem isLine_token {source : String} {t : Token} (h : t ∈ (ofText source).tokens) :
    IsLine source t.line := by
  have hlast := lastLine_items source
  rw [ofText, tokens_ofItems] at h
  unfold IsLine
  rcases List.mem_append.1 h with h | h
  · have hline := line_of_mem_body h
    omega
  · obtain rfl := List.mem_singleton.1 h
    have hend := le_lastLine (items source.toList) 1
    dsimp only [Token.eof]
    omega

theorem isLine_error {source : String} {e : ScanError} (h : e ∈ (ofText source).errors) :
    IsLine source e.line := by
  have hlast := lastLine_items source
  have hline := line_of_mem_errors h
  unfold IsLine
  omega

end Scan

end LoxLang
