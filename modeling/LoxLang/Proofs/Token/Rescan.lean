import LoxLang.Proofs.Token.Longest
/-!
# Lexemes scanned again

A space ends every token. So lexemes with spaces between them give their own tokens again, whatever
they stood in before.
-/

namespace LoxLang

/-- What a token is, but for its line. -/
def Token.content (t : Token) : Kind × String × Value := (t.kind, t.lexeme, t.literal)

namespace Item

theorem not_isError_of_isToken {i : Item} (h : i.isToken) : ¬ i.isError := by
  cases i <;> first | exact Bool.false_ne_true | cases h

/-- A space ends every token. -/
theorem endsBefore_space {i : Item} (h : i.isToken) : i.EndsBefore ' ' := by
  cases i with
  | mark | number | word => dsimp only [EndsBefore]; decide
  | string => trivial
  | _ => cases h

/-! ## Items by themselves -/

section

variable {i : Item} {c : Char} {cs : List Char}

/-- An item of the grammar is what its own text is found to be. -/
theorem Lexeme.next_eq (h : Lexeme i) (htext : i.text = c :: cs) : next c cs = (i, []) := by
  have hlength := congrArg List.length (text_next c cs)
  rw [← htext, List.length_append] at hlength
  have hwhole : i.text ++ [] = c :: cs := by rw [List.append_nil, htext]
  have hfirst : i = (next c cs).1 := (h.atMost hwhole).resolve_right (by omega)
  rw [← hfirst] at hlength
  have hrest : (next c cs).2 = [] := List.length_eq_zero_iff.1 (by omega)
  exact Prod.ext hfirst.symm hrest

/-- No token starts with a blank. -/
theorem Lexeme.head_not_gap (h : Lexeme i) (ht : i.isToken) (htext : i.text = c :: cs) :
    ¬ isGap c := by
  intro hgap
  have hnext := h.next_eq htext
  rw [next_blank hgap, Prod.mk.injEq] at hnext
  rw [← hnext.1] at ht
  cases ht

/-- A token in front of a space is found whole, and then a blank. -/
theorem Lexeme.items_space {tail : List Char} (h : Lexeme i) (ht : i.isToken)
    (htail : ∀ d ∈ tail.head?, ¬ isGap d) :
    items (i.text ++ ' ' :: tail) = i :: .blank [' '] :: items tail := by
  obtain ⟨c, cs, htext⟩ := List.exists_cons_of_ne_nil h.text_ne_nil
  have hnext := h.next_eq htext
  have hends : (next c cs).1.EndsBefore ' ' := by
    rw [hnext]
    exact endsBefore_space ht
  have hblank : next ' ' tail = (.blank [' '], tail) := by
    rw [next_blank rfl]
    cases tail with
    | nil => rfl
    | cons d ds => simp [htail d rfl]
  rw [htext, List.cons_append, items, next_before tail hends, hnext, List.nil_append, items, hblank]

end

/-- The texts of items with spaces between them. -/
def spaced (is : List Item) : List Char := [' '].intercalate (is.map text)

theorem spaced_cons_cons (i j : Item) (is : List Item) :
    spaced (i :: j :: is) = i.text ++ ' ' :: spaced (j :: is) := by
  rw [spaced, List.map_cons, List.map_cons, List.intercalate_cons_cons, List.append_assoc]
  rfl

theorem text_prefix_spaced (i : Item) (is : List Item) : i.text <+: spaced (i :: is) := by
  cases is with
  | nil => rw [spaced, List.map_singleton, List.intercalate_singleton]
  | cons j is =>
    rw [spaced_cons_cons]
    exact List.prefix_append _ _

/-- Tokens with spaces between them are found again, with blanks between them. -/
theorem items_spaced {is : List Item} (h : ∀ i ∈ is, Lexeme i ∧ i.isToken) :
    items (spaced is) = is.intersperse (.blank [' ']) := by
  induction is with
  | nil => rw [spaced, List.map_nil, List.intercalate_nil, items, List.intersperse_nil]
  | cons i is ih =>
    obtain ⟨⟨hi, ht⟩, his⟩ := List.forall_mem_cons.1 h
    cases is with
    | nil =>
      obtain ⟨c, cs, htext⟩ := List.exists_cons_of_ne_nil hi.text_ne_nil
      rw [spaced, List.map_singleton, List.intercalate_singleton, htext, items, hi.next_eq htext,
        items, List.intersperse_singleton]
    | cons j js =>
      have hhead : ∀ d ∈ (spaced (j :: js)).head?, ¬ isGap d := by
        obtain ⟨hj, hjt⟩ := his j List.mem_cons_self
        obtain ⟨c, cs, htext⟩ := List.exists_cons_of_ne_nil hj.text_ne_nil
        obtain ⟨more, hmore⟩ := text_prefix_spaced j js
        rw [← hmore, htext]
        rintro d ⟨⟩
        exact hj.head_not_gap hjt htext
      rw [spaced_cons_cons, hi.items_space ht hhead, ih his, List.intersperse_cons_cons]

/-- What stands between items does not count where only other items do. -/
theorem filter_intersperse {p : Item → Bool} {between : Item} (h : p between = false)
    (is : List Item) : (is.intersperse between).filter p = is.filter p := by
  induction is with
  | nil => rfl
  | cons i is ih =>
    cases is with
    | nil => rw [List.intersperse_singleton]
    | cons j js =>
      rw [List.intersperse_cons_cons, List.filter_cons, List.filter_cons_of_neg (by simp [h]), ih]
      exact List.filter_cons.symm

/-- A token that is found in a text is an item of the grammar. -/
theorem lexeme_of_mem_items {i : Item} {cs : List Char} (h : i ∈ items cs) (ht : i.isToken) :
    Lexeme i := by
  obtain ⟨rest, hfits⟩ := fits_of_mem_items h
  cases hfits with
  | lexeme hi => exact hi
  | _ => cases ht

end Item

namespace Scan

open Item

/-- The lexemes are the texts of the items that are tokens. -/
theorem lexemes_body (line : ℕ) (is : List Item) :
    (body line is).map Token.lexeme = (is.filter isToken).map (String.ofList ·.text) := by
  have hlexemes : List.Forall₂ (· = ·) ((is.filter isToken).map (String.ofList ·.text))
      ((body line is).map Token.lexeme) := by
    rw [List.forall₂_map_left_iff, List.forall₂_map_right_iff]
    exact (gives_body line is).imp fun _ _ h => h.lexeme.symm
  rw [List.forall₂_eq_eq_eq] at hlexemes
  exact hlexemes.symm

/-- Only the items that are tokens tell what tokens are given, but for their lines. -/
theorem content_body (is : List Item) (line line' : ℕ) :
    (body line is).map Token.content = (body line' (is.filter isToken)).map Token.content := by
  have anywhere : ∀ (i : Item) (line line' : ℕ), (i.token? line).map Token.content =
      (i.token? line').map Token.content := by
    intro i line line'
    cases i <;> rfl
  induction is generalizing line line' with
  | nil => rfl
  | cons i is ih =>
    cases hi : i.isToken with
    | false =>
      rw [List.filter_cons_of_neg (by simp [hi]), body, token?_eq_none hi]
      exact ih _ _
    | true =>
      rw [List.filter_cons_of_pos hi, body, body, List.map_append, List.map_append,
        ih _ (line' + i.newlines), ← Option.toList_map, ← Option.toList_map,
        anywhere i _ (line' + i.newlines)]

theorem content_tokens (is : List Item) (line line' : ℕ) :
    (ofItems line is).tokens.map Token.content =
      (ofItems line' (is.filter isToken)).tokens.map Token.content := by
  rw [tokens_ofItems, tokens_ofItems, List.map_append, List.map_append, content_body is line line']
  rfl

/-- The lexemes of all tokens but the end token, with spaces between them. -/
def spacedLexemes (s : Scan) : String :=
  " ".intercalate ((s.tokens.filter (·.kind ≠ .eof)).map Token.lexeme)

theorem spacedLexemes_eq (source : String) : (ofText source).spacedLexemes =
    " ".intercalate (((items source.toList).filter isToken).map (String.ofList ·.text)) := by
  rw [spacedLexemes, tokens_ne_eof, lexemes_body]

theorem toList_spacedLexemes (source : String) :
    (ofText source).spacedLexemes.toList = spaced ((items source.toList).filter isToken) := by
  rw [spacedLexemes_eq, String.toList_intercalate, List.map_map, spaced]
  refine congrArg _ (List.map_congr_left fun i _ => ?_)
  exact String.toList_ofList

/-- The lexemes are the texts of the tokens that a text is split into. Nothing is wrong with them if
they are put one behind the other with spaces between them, and they give the same kinds, lexemes and
literals again. -/
theorem rescan_lexemes (source : String) :
    (∃ is, Splits source.toList is ∧ (ofText source).spacedLexemes =
      " ".intercalate ((is.filter isToken).map (String.ofList ·.text))) ∧
      (ofText (ofText source).spacedLexemes).errors = [] ∧
      (ofText (ofText source).spacedLexemes).tokens.map Token.content =
        (ofText source).tokens.map Token.content := by
  let is := (items source.toList).filter isToken
  have his : ∀ i ∈ is, Lexeme i ∧ i.isToken := by
    intro i hi
    obtain ⟨hmem, ht⟩ := List.mem_filter.1 hi
    exact ⟨lexeme_of_mem_items hmem ht, ht⟩
  have hitems : items (ofText source).spacedLexemes.toList = is.intersperse (.blank [' ']) := by
    rw [toList_spacedLexemes, items_spaced his]
  refine ⟨⟨_, splits_iff.2 rfl, spacedLexemes_eq source⟩, ?_, ?_⟩
  · have hnone : (is.intersperse (.blank [' '])).filter isError = [] := by
      rw [filter_intersperse rfl, List.filter_eq_nil_iff]
      exact fun i hi => not_isError_of_isToken (his i hi).2
    rw [ofText, hitems, errors_eq_nil_iff]
    simpa using List.filter_eq_nil_iff.1 hnone
  · have htokens : (is.intersperse (.blank [' '])).filter isToken = is := by
      rw [filter_intersperse rfl]
      exact List.filter_eq_self.2 fun i hi => (his i hi).2
    change (ofItems 1 (items (ofText source).spacedLexemes.toList)).tokens.map _ = _
    rw [hitems, content_tokens _ 1 1, htokens, ← content_tokens _ 1]
    rfl

example : (ofText "1.2.3/@/x!==// \"\n\"/ /\"").spacedLexemes = "1.2 . 3 / / x != = \"/ /\"" := by
  decide +kernel

end Scan

end LoxLang
