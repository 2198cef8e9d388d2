import LoxLang.Proofs.Token.Lexeme
import LoxLang.Proofs.Token.Outcome
/-!
# Places and their lines

The items of a text stand one behind the other, so each has its place there. A token is on the line
on which its item ends, and an error on the one on which its item starts: lines are counted from one,
by the line ends in the text up to that place.
-/

namespace LoxLang

namespace Item

/-- An item and the text in front of it. -/
structure Placed where
  before : List Char
  item : Item

/-- Items one behind the other, the first of them behind the given text. -/
def placed (before : List Char) : List Item → List Placed
  | [] => []
  | i :: is => ⟨before, i⟩ :: placed (before ++ i.text) is

/-- The token of an item. Its line is told by the line ends up to the end of the item. -/
structure TokenAt (p : Placed) (t : Token) : Prop where
  gives : Gives p.item t
  lexeme : t.lexeme = String.ofList p.item.text
  line : t.line = 1 + (p.before ++ p.item.text).count '\n'

/-- The message about an item. Its line is told by the line ends in front of the item. -/
inductive BlamedAt : Placed → String → Prop
  | stray {before : List Char} {c : Char} : BlamedAt ⟨before, .stray c⟩
      ("[line " ++ intText (1 + before.count '\n') ++ "] Error: " ++
        ("Unexpected character '" ++ String.ofList [c] ++ "'."))
  | openString {before body : List Char} : BlamedAt ⟨before, .openString body⟩
      ("[line " ++ intText (1 + before.count '\n') ++ "] Error: " ++ "Unterminated string.")

/-- Where an item stands, its text comes behind that in front of it. -/
theorem prefix_of_mem_placed {is : List Item} {before : List Char} {p : Placed}
    (h : p ∈ placed before is) : p.before ++ p.item.text <+: before ++ is.flatMap Item.text := by
  induction is generalizing before with
  | nil => cases h
  | cons i is ih =>
    rw [List.flatMap_cons, ← List.append_assoc]
    rcases List.mem_cons.1 h with rfl | h
    · exact List.prefix_append _ _
    · exact ih h

theorem map_item_placed (before : List Char) (is : List Item) :
    (placed before is).map Placed.item = is := by
  induction is generalizing before with
  | nil => rfl
  | cons i is ih => rw [placed, List.map_cons, ih]

/-- What holds of some items where they stand, wherever that is, holds of these items. -/
theorem forall₂_of_placed {α : Type} {R : Item → α → Prop} {p : Item → Bool} {before : List Char}
    {is : List Item} {as : List α}
    (h : List.Forall₂ (fun i a => R i.item a) ((placed before is).filter fun i => p i.item) as) :
    List.Forall₂ R (is.filter p) as := by
  rw [← map_item_placed before is, List.filter_map, List.forall₂_map_left_iff]
  exact h

/-- Behind an item, as many more lines have ended as it holds line ends. -/
theorem line_behind (line : ℕ) (before : List Char) (i : Item) :
    line + before.count '\n' + i.newlines = line + (before ++ i.text).count '\n' := by
  rw [List.count_append, newlines, Nat.add_assoc]

/-! ## Where line ends are -/

/-- The items that can hold line ends: the end of a line, and strings. -/
def spansLines : Item → Bool
  | newline | string .. | openString .. => true
  | _ => false

theorem Lexeme.spansLines {i : Item} (h : Lexeme i) (hline : '\n' ∈ i.text) : i.spansLines := by
  cases h with
  | newline | string => rfl
  | blank _ hgaps => exact absurd (hgaps _ hline) (by decide)
  | comment hbody => simp [text, hbody] at hline
  | mark hmark =>
    rcases mem_marks hmark with ⟨c, rfl, hc⟩ | ⟨c, long, rfl, hc⟩ | ⟨c, short, rfl, hc⟩ <;>
    · obtain rfl : '\n' = c := by simpa [text] using hline
      cases hc
  | @number whole fraction _ hwhole hfraction =>
    have hdigit : ('\n').isDigit = false := by decide
    have hw : '\n' ∉ whole := fun h => by simp [hwhole _ h] at hdigit
    have hf : '\n' ∉ fraction := fun h => by simp [hfraction _ h] at hdigit
    by_cases hnone : fraction = [] <;> simp [text, hnone, hw, hf] at hline
  | @word c cs hletter hrest =>
    rcases List.mem_cons.1 hline with rfl | h
    · exact absurd hletter (by decide)
    · exact absurd (hrest _ h) (by decide)

theorem Fits.spansLines {i : Item} {cs : List Char} (h : Fits i cs) (hline : '\n' ∈ i.text) :
    i.spansLines := by
  cases h with
  | lexeme hi => exact hi.spansLines hline
  | stray hstray =>
    obtain rfl := List.mem_singleton.1 hline
    exact absurd rfl (hstray .newline .newline)
  | openString => rfl

end Item

namespace Scan

open Item

/-- The tokens of items are told from where these end. -/
theorem forall₂_body {R : Placed → Token → Prop} (line : ℕ)
    (h : ∀ p t, p.item.token? (line + (p.before ++ p.item.text).count '\n') = some t → R p t)
    (before : List Char) (is : List Item) :
    List.Forall₂ R ((placed before is).filter (·.item.isToken))
      (body (line + before.count '\n') is) := by
  induction is generalizing before with
  | nil => exact .nil
  | cons i is ih =>
    rw [placed, body, line_behind]
    cases hi : i.isToken with
    | false =>
      rw [List.filter_cons_of_neg (by simp [hi]), token?_eq_none hi]
      exact ih _
    | true =>
      obtain ⟨t, ht⟩ := exists_token? hi (line + (before ++ i.text).count '\n')
      rw [List.filter_cons_of_pos (by simp [hi]), ht]
      exact .cons (h _ t ht) (ih _)

/-- The errors of items are told from where these start. -/
theorem forall₂_errors {R : Placed → ScanError → Prop} (line : ℕ)
    (h : ∀ p e, p.item.error? (line + p.before.count '\n') = some e → R p e)
    (before : List Char) (is : List Item) :
    List.Forall₂ R ((placed before is).filter (·.item.isError))
      (ofItems (line + before.count '\n') is).errors := by
  induction is generalizing before with
  | nil => exact .nil
  | cons i is ih =>
    rw [placed, ofItems, line_behind]
    cases hi : i.isError with
    | false =>
      rw [List.filter_cons_of_neg (by simp [hi]), error?_eq_none hi]
      exact ih _
    | true =>
      obtain ⟨e, he⟩ := exists_error? hi (line + before.count '\n')
      rw [List.filter_cons_of_pos (by simp [hi]), he]
      exact .cons (h _ e he) (ih _)

/-- Items give their tokens in order. -/
theorem gives_body (line : ℕ) (is : List Item) :
    List.Forall₂ Gives (is.filter isToken) (body line is) :=
  forall₂_of_placed (forall₂_body line (fun _ _ h => gives_of_token? h) [] is)

/-- The tokens of items are on the lines on which these end. -/
theorem tokenAt_body (is : List Item) :
    List.Forall₂ TokenAt ((placed [] is).filter (·.item.isToken)) (body 1 is) := by
  refine forall₂_body 1 (fun p t h => ?_) [] is
  have hgives := gives_of_token? h
  refine ⟨hgives, hgives.lexeme, ?_⟩
  rw [line_of_token? h]
  exact Int.natCast_add _ _

/-- The messages about items name the lines on which these start. -/
theorem blamedAt_errors (is : List Item) :
    List.Forall₂ BlamedAt ((placed [] is).filter (·.item.isError))
      ((ofItems 1 is).errors.map fun e => "[line " ++ intText e.line ++ "] Error: " ++ e.message) := by
  rw [List.forall₂_map_right_iff]
  refine forall₂_errors 1 ?_ [] is
  rintro ⟨before, i⟩ e h
  have hline : ((1 + before.count '\n' : ℕ) : ℤ) = 1 + before.count '\n' := Int.natCast_add _ _
  cases i with
  | stray =>
    cases h
    exact hline ▸ .stray
  | openString =>
    cases h
    exact hline ▸ .openString
  | _ => cases h

/-- A text splits in one way into items that are each the longest match. Each token is on the line on
which its item ends, the end token on the last line of the text, and each message names the line on
which what is wrong starts. Every line end of the text counts: it is an item by itself or it is in a
string. -/
theorem lines_counted (source : String) :
    ∃ is : List Item,
      (∀ js, Splits source.toList js ↔ js = is) ∧
      (∀ p ∈ placed [] is, p.before ++ p.item.text <+: source.toList) ∧
      (∃ ts, (ofText source).tokens = ts ++ [Token.eof (1 + source.toList.count '\n')] ∧
        List.Forall₂ TokenAt ((placed [] is).filter (·.item.isToken)) ts) ∧
      (∀ d : Diagnostics, ∃ messages,
        (d.addScan (ofText source).errors).messages = d.messages ++ messages ∧
        List.Forall₂ BlamedAt ((placed [] is).filter (·.item.isError)) messages) ∧
      ∀ i ∈ is, '\n' ∈ i.text → i.spansLines := by
  refine ⟨items source.toList, fun _ => splits_iff, fun p hp => ?_, ⟨_, ?_, tokenAt_body _⟩,
    fun d => ⟨_, ?_, blamedAt_errors _⟩, fun i hi => ?_⟩
  · have hprefix := prefix_of_mem_placed hp
    rwa [List.nil_append, text_items] at hprefix
  · rw [ofText, tokens_ofItems, lastLine_items]
  · exact d.messages_scan _
  · obtain ⟨rest, hfits⟩ := fits_of_mem_items hi
    exact hfits.spansLines

end Scan

end LoxLang
