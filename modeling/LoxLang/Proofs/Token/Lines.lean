import LoxLang.Proofs.Token.Lexeme
/-!
# Texts joined by line ends

A character that an item cannot go on with ends it, whatever comes behind. A line end ends every item
but a string that is not closed. So the tokens of two texts with a line end between them are those of
the one and then those of the other, on later lines.
-/

namespace LoxLang

namespace Item

/-- An item like this cannot go on with the given character. -/
def EndsBefore (stop : Char) : Item → Prop
  | blank _ => isGap stop = false
  | comment _ => stop = '\n'
  | mark .. => stop ≠ '=' ∧ stop ≠ '/'
  | number .. => stop.isDigit = false ∧ stop ≠ '.'
  | word _ => isWordRest stop = false
  | openString _ => False
  | newline | string _ | stray _ => True

section

variable {stop : Char}

theorem takeWhile_before {p : Char → Bool} (hp : p stop = false) (cs tail : List Char) :
    (cs ++ stop :: tail).takeWhile p = cs.takeWhile p ∧
      (cs ++ stop :: tail).dropWhile p = cs.dropWhile p ++ stop :: tail := by
  induction cs with
  | nil => simp [hp]
  | cons c cs ih =>
    by_cases hc : p c
    · simp [hc, ih.1, ih.2]
    · simp [hc]

theorem number?_whole {cs : List Char} (c : Char)
    (h : (cs.dropWhile Char.isDigit).head? ≠ some '.') :
    number? c cs = (.number (c :: cs.takeWhile Char.isDigit) [], cs.dropWhile Char.isDigit) := by
  unfold number?
  dsimp only
  split
  · next hd =>
    rw [hd] at h
    exact absurd rfl h
  · rfl

theorem number?_before (hdigit : stop.isDigit = false) (hstop : stop ≠ '.') (c : Char)
    (cs tail : List Char) :
    number? c (cs ++ stop :: tail) = ((number? c cs).1, (number? c cs).2 ++ stop :: tail) := by
  obtain ⟨htake, hdrop⟩ := takeWhile_before hdigit cs tail
  by_cases hpoint : (cs.dropWhile Char.isDigit).head? = some '.'
  · obtain ⟨rest, hrest⟩ : ∃ rest, cs.dropWhile Char.isDigit = '.' :: rest := by
      cases hd : cs.dropWhile Char.isDigit with
      | nil => simp [hd] at hpoint
      | cons d rest =>
        obtain rfl : d = '.' := by simpa [hd] using hpoint
        exact ⟨rest, rfl⟩
    unfold number?
    rw [htake, hdrop, hrest]
    cases rest with
    | nil => simp [hdigit]
    | cons d rest =>
      obtain ⟨htake', hdrop'⟩ := takeWhile_before hdigit rest tail
      simp only [List.cons_append, htake', hdrop']
      split <;> rfl
  · have hpoint' : ((cs ++ stop :: tail).dropWhile Char.isDigit).head? ≠ some '.' := by
      rw [hdrop]
      cases hd : cs.dropWhile Char.isDigit with
      | nil => simpa using hstop
      | cons d rest => simpa [hd] using hpoint
    rw [number?_whole c hpoint, number?_whole c hpoint', htake, hdrop]

theorem afterQuote_before {cs : List Char} (tail : List Char) (h : (afterQuote cs).1.EndsBefore stop) :
    afterQuote (cs ++ stop :: tail) = ((afterQuote cs).1, (afterQuote cs).2 ++ stop :: tail) := by
  have split_quote : ∀ cs : List Char, cs.dropWhile (· != '"') ≠ [] →
      (cs ++ stop :: tail).takeWhile (· != '"') = cs.takeWhile (· != '"') ∧
        (cs ++ stop :: tail).dropWhile (· != '"') = cs.dropWhile (· != '"') ++ stop :: tail := by
    intro cs hne
    induction cs with
    | nil => exact absurd rfl hne
    | cons c cs ih =>
      by_cases hc : (c != '"') = true
      · simp only [List.dropWhile_cons, hc, ↓reduceIte] at hne
        simp [hc, ih hne]
      · simp [hc]
  -- Since the string is closed, the quote that closes it comes before the character.
  unfold afterQuote at h ⊢
  rcases hd : cs.dropWhile (· != '"') with _ | ⟨q, rest⟩
  · rw [hd] at h
    exact h.elim
  · obtain ⟨htake, hdrop⟩ := split_quote cs (by simp [hd])
    rw [htake, hdrop, hd]
    rfl

theorem growing_before {c : Char} {long short : Kind} {cs : List Char} (tail : List Char)
    (h : stop ≠ '=') : growing c long short (cs ++ stop :: tail) =
      ((growing c long short cs).1, (growing c long short cs).2 ++ stop :: tail) := by
  have short_of : ∀ {d}, d ≠ '=' → ∀ rest,
      growing c long short (d :: rest) = (.mark short [c], d :: rest) := by
    intro d hd rest
    unfold growing
    split
    · next h => exact absurd (List.cons.inj h).1 hd
    · rfl
  rcases cs with _ | ⟨d, cs⟩
  · exact short_of h tail
  · by_cases hd : d = '='
    · subst hd
      rfl
    · rw [short_of hd, List.cons_append, short_of hd]

/-- A character that ends the first item of a text does not change it, whatever comes behind. -/
theorem next_before {c : Char} {cs : List Char} (tail : List Char)
    (h : (next c cs).1.EndsBefore stop) :
    next c (cs ++ stop :: tail) = ((next c cs).1, (next c cs).2 ++ stop :: tail) := by
  -- The cases are those of the scanner, in its order.
  unfold next at h ⊢
  by_cases hgap : isGap c
  · rw [if_pos hgap] at h
    obtain ⟨htake, hdrop⟩ := takeWhile_before h cs tail
    rw [if_pos hgap, if_pos hgap, htake, hdrop]
  rw [if_neg hgap] at h
  rw [if_neg hgap, if_neg hgap]
  by_cases hline : c = '\n'
  · rw [if_pos hline, if_pos hline]
  rw [if_neg hline] at h
  rw [if_neg hline, if_neg hline]
  by_cases hcomment : c = '/' ∧ cs.head? = some '/'
  · rw [if_pos hcomment] at h
    cases cs with
    | nil => simp at hcomment
    | cons d cs =>
      have hstop : (stop != '\n') = false := bne_eq_false_iff_eq.2 h
      obtain ⟨htake, hdrop⟩ := takeWhile_before (p := (· != '\n')) hstop cs tail
      have hcomment' : c = '/' ∧ (d :: cs ++ stop :: tail).head? = some '/' := hcomment
      rw [if_pos hcomment, if_pos hcomment', List.cons_append, List.tail_cons, List.tail_cons, htake,
        hdrop]
  rw [if_neg hcomment] at h
  have hcomment' : ¬ (c = '/' ∧ (cs ++ stop :: tail).head? = some '/') := by
    rintro ⟨rfl, hhead⟩
    cases cs with
    | nil => exact h.2 (Option.some.inj hhead)
    | cons d cs => exact hcomment ⟨rfl, hhead⟩
  rw [if_neg hcomment, if_neg hcomment']
  by_cases hquote : c = '"'
  · rw [if_pos hquote] at h
    rw [if_pos hquote, if_pos hquote]
    exact afterQuote_before tail h
  rw [if_neg hquote] at h
  rw [if_neg hquote, if_neg hquote]
  by_cases hdigit : c.isDigit
  · obtain ⟨fraction, hnumber⟩ := number?_whole_digits c cs
    rw [if_pos hdigit, hnumber] at h
    rw [if_pos hdigit, if_pos hdigit]
    exact number?_before h.1 h.2 c cs tail
  rw [if_neg hdigit] at h
  rw [if_neg hdigit, if_neg hdigit]
  by_cases hletter : isLetter c
  · rw [if_pos hletter] at h
    obtain ⟨htake, hdrop⟩ := takeWhile_before h cs tail
    rw [if_pos hletter, if_pos hletter, htake, hdrop]
  rw [if_neg hletter] at h
  rw [if_neg hletter, if_neg hletter]
  cases hsingle : singleMark? c with
  | some kind => rfl
  | none =>
    cases hgrowing : growingMark? c with
    | none => rfl
    | some kinds =>
      have hstop : stop ≠ '=' := by
        rw [hsingle, hgrowing] at h
        dsimp only [growing] at h
        split at h <;> exact h.1
      exact growing_before tail hstop

end

/-- A line end ends every item but a string that is not closed. -/
theorem endsBefore_line {i : Item} (h : ∀ body, i ≠ .openString body) : i.EndsBefore '\n' := by
  cases i with
  | openString body => exact absurd rfl (h body)
  | blank | mark | number | word => dsimp only [EndsBefore]; decide
  | _ => trivial

end Item

/-- The items of two texts with a line end between them. -/
theorem items_line {cs : List Char} (tail : List Char)
    (h : ∀ body, Item.openString body ∉ items cs) :
    items (cs ++ '\n' :: tail) = items cs ++ .newline :: items tail := by
  fun_induction items cs with
  | case1 =>
    rw [List.nil_append, items]
    rfl
  | case2 c cs ih =>
    have hfirst : ∀ body, (Item.next c cs).1 ≠ .openString body := fun body e =>
      h body (by rw [← e]; exact List.mem_cons_self)
    rw [List.cons_append, items, Item.next_before tail (Item.endsBefore_line hfirst),
      ih fun body hb => h body (List.mem_cons_of_mem _ hb)]
    rfl

/-- The same token some lines later. -/
def Token.later (lines : Nat) (t : Token) : Token := { t with line := t.line + lines }

namespace Scan

theorem token?_later (i : Item) (line lines : Nat) :
    i.token? (line + lines) = (i.token? line).map (·.later lines) := by
  cases i <;> simp [Item.token?, Token.later]

theorem body_later (is : List Item) (line lines : Nat) :
    body (line + lines) is = (body line is).map (·.later lines) := by
  induction is generalizing line with
  | nil => rfl
  | cons i is ih =>
    have hline : line + lines + i.newlines = line + i.newlines + lines := by omega
    rw [body, body, hline, token?_later, ih, List.map_append]
    cases i.token? (line + i.newlines) <;> rfl

theorem le_lastLine (is : List Item) (line : Nat) : line ≤ lastLine line is := by
  induction is generalizing line with
  | nil => exact Nat.le_refl line
  | cons i is ih => exact Nat.le_trans (Nat.le_add_right _ _) (ih _)

theorem body_append (is js : List Item) (line : Nat) :
    body line (is ++ js) = body line is ++ body (lastLine line is) js := by
  induction is generalizing line with
  | nil => rfl
  | cons i is ih => rw [List.cons_append, body, body, lastLine, ih, List.append_assoc]

theorem errors_ofItems (is : List Item) (line : Nat) :
    (ofItems line is).errors = [] ↔ ∀ i ∈ is, ∀ line, i.error? line = none := by
  have anywhere : ∀ (i : Item) (line line' : Nat), i.error? line = none → i.error? line' = none := by
    intro i line line' h
    cases i <;> first | rfl | cases h
  induction is generalizing line with
  | nil => simp [ofItems]
  | cons i is ih =>
    simp only [ofItems, List.append_eq_nil_iff, Option.toList_eq_nil_iff, ih, List.forall_mem_cons]
    exact ⟨fun h => ⟨fun line' => anywhere i _ line' h.1, h.2⟩, fun h => ⟨h.1 line, h.2⟩⟩

end Scan

/-! ## Joined texts -/

/-- The texts on lines of their own. -/
def joinLines (texts : List String) : String := "\n".intercalate texts

theorem items_joinLines_cons {text next : String} {texts : List String}
    (h : (Scan.ofText text).errors = []) :
    items (joinLines (text :: next :: texts)).toList =
      items text.toList ++ .newline :: items (joinLines (next :: texts)).toList := by
  have closed : ∀ body, Item.openString body ∉ items text.toList := by
    intro body hb
    have := (Scan.errors_ofItems _ 1).1 h _ hb 1
    cases this
  have hjoin : (joinLines (text :: next :: texts)).toList =
      text.toList ++ '\n' :: (joinLines (next :: texts)).toList := by
    simp [joinLines, String.intercalate_cons_cons]
  rw [hjoin, items_line _ closed]

/-- Nothing is wrong with the items of texts that are joined if nothing is with theirs. -/
theorem errors_joinLines {texts : List String} (h : ∀ t ∈ texts, (Scan.ofText t).errors = []) :
    (Scan.ofText (joinLines texts)).errors = [] := by
  apply (Scan.errors_ofItems _ 1).2
  induction texts with
  | nil => simp [joinLines, items]
  | cons text texts ih =>
    have htext := (Scan.errors_ofItems _ 1).1 (h text (by simp))
    cases texts with
    | nil => simpa [joinLines] using htext
    | cons next texts =>
      rw [items_joinLines_cons (h text (by simp))]
      intro i hi
      rcases List.mem_append.1 hi with hi | hi
      · exact htext i hi
      rcases List.mem_cons.1 hi with rfl | hi
      · exact fun _ => rfl
      · exact ih (fun t ht => h t (by simp [ht])) i hi

end LoxLang
