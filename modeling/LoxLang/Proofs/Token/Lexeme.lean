import LoxLang.Proofs.Token.Scan
/-!
# The lexical grammar

The items of the grammar (`Lexeme`), what a text can start with (`Fits`), and the longest of what it
can start with. The item that is found next is that one: everything else that fits is shorter. So a
text splits into items in one way (`Splits`).
-/

namespace LoxLang

namespace Item

/-- The items of the grammar: those that are what they are wherever they stand. -/
inductive Lexeme : Item → Prop
  | blank {text : List Char} : text ≠ [] → (∀ c ∈ text, isGap c) → Lexeme (.blank text)
  | newline : Lexeme .newline
  | comment {body : List Char} : '\n' ∉ body → Lexeme (.comment body)
  | mark {kind : Kind} {text : List Char} : (String.ofList text, kind) ∈ marks →
      Lexeme (.mark kind text)
  | number {whole fraction : List Char} : whole ≠ [] → (∀ d ∈ whole, d.isDigit) →
      (∀ d ∈ fraction, d.isDigit) → Lexeme (.number whole fraction)
  | word {c : Char} {cs : List Char} : isLetter c → (∀ d ∈ cs, isWordRest d) →
      Lexeme (.word (c :: cs))
  | string {body : List Char} : '"' ∉ body → Lexeme (.string body)

/-- What a text can start with: an item of the grammar, a character that starts none, or a quote
that no other one follows, with the whole rest. -/
inductive Fits : Item → List Char → Prop
  | lexeme {i : Item} {rest : List Char} : Lexeme i → Fits i (i.text ++ rest)
  | stray {c : Char} {rest : List Char} : (∀ i, Lexeme i → i.text.head? ≠ some c) →
      Fits (.stray c) (c :: rest)
  | openString {body : List Char} : '"' ∉ body → Fits (.openString body) ('"' :: body)

/-- The longest of what a text can start with. -/
def Longest (i : Item) (cs : List Char) : Prop :=
  Fits i cs ∧ ∀ j, Fits j cs → j.text.length ≤ i.text.length

/-! ## What comes next, by how the text starts -/

/-- The characters that are asked for before digits and letters are. -/
def early : List Char := [' ', '\t', '\r', '\n', '/', '"']

section

variable {c : Char} {cs : List Char}

theorem isGap_iff : isGap c ↔ c = ' ' ∨ c = '\t' ∨ c = '\r' := by
  simp [isGap, or_assoc]

theorem not_mem_early {p : Char → Bool} (hp : early.any p = false) (h : p c) : c ∉ early := by
  intro hc
  have hany : early.any p = true := List.any_eq_true.2 ⟨c, hc, h⟩
  rw [hp] at hany
  cases hany

theorem of_not_mem_early (h : c ∉ early) : ¬ isGap c ∧ c ≠ '\n' ∧ c ≠ '/' ∧ c ≠ '"' := by
  simp only [early, List.mem_cons, List.not_mem_nil, or_false, not_or] at h
  obtain ⟨hspace, htab, hreturn, hrest⟩ := h
  exact ⟨by simp [isGap_iff, hspace, htab, hreturn], hrest⟩

theorem next_blank (h : isGap c) :
    next c cs = (.blank (c :: cs.takeWhile isGap), cs.dropWhile isGap) := if_pos h

theorem next_digit (h : c.isDigit) : next c cs = number? c cs := by
  obtain ⟨hgap, hline, hslash, hquote⟩ := of_not_mem_early (not_mem_early rfl h)
  rw [next, if_neg hgap, if_neg hline, if_neg (fun h => hslash h.1), if_neg hquote, if_pos h]

theorem isDigit_eq_false_of_isLetter (h : isLetter c) : c.isDigit = false := by
  have hcases : (c.isUpper || c.isLower || c == '_') = true := h
  rw [Bool.or_eq_true, Bool.or_eq_true, beq_iff_eq] at hcases
  have hlow : 58 ≤ c.toNat := by
    rcases hcases with (hupper | hlower) | rfl
    · have hA : 65 ≤ c.toNat := (of_decide_eq_true hupper).1
      omega
    · have hbounds : (decide (c.val ≥ 'a'.val) && decide (c.val ≤ 'z'.val)) = true := hlower
      have ha : 97 ≤ c.toNat := of_decide_eq_true (Bool.and_eq_true_iff.1 hbounds).1
      omega
    · decide
  have hnine : ('9').toNat = 57 := rfl
  rw [← Bool.not_eq_true, Char.isDigit_iff_toNat, hnine]
  omega

theorem next_letter (h : isLetter c) :
    next c cs = (.word (c :: cs.takeWhile isWordRest), cs.dropWhile isWordRest) := by
  obtain ⟨hgap, hline, hslash, hquote⟩ := of_not_mem_early (not_mem_early rfl h)
  have hdigit : ¬ c.isDigit := by simp [isDigit_eq_false_of_isLetter h]
  rw [next, if_neg hgap, if_neg hline, if_neg (fun h => hslash h.1), if_neg hquote, if_neg hdigit,
    if_pos h]

/-- A mark that never grows comes next, unless it is a slash that starts a comment. -/
theorem next_singleMark {kind : Kind} (h : singleMark? c = some kind) (cs : List Char) :
    (next c cs).1 = .mark kind [c] ∨
      (next c cs).1 = .comment (cs.tail.takeWhile (· != '\n')) := by
  unfold singleMark? at h
  split at h <;> cases h
  case h_11 =>
    by_cases hslash : cs.head? = some '/'
    · exact .inr (by rw [next, if_neg (by decide), if_neg (by decide), if_pos ⟨rfl, hslash⟩])
    · refine .inl ?_
      rw [next, if_neg (by decide), if_neg (by decide), if_neg (fun h => hslash h.2)]
      rfl
  all_goals exact .inl rfl

theorem next_growingMark {long short : Kind} (h : growingMark? c = some (long, short)) :
    next c cs = growing c long short cs := by
  unfold growingMark? at h
  split at h <;> cases h <;> rfl

/-- A character that starts nothing comes next by itself. -/
theorem next_stray (h : ∀ i, Lexeme i → i.text.head? ≠ some c) : next c cs = (.stray c, cs) := by
  have hgap : ¬ isGap c := fun hg => h (.blank [c]) (.blank (by simp) (by simpa using hg)) rfl
  have hline : c ≠ '\n' := fun hl => h .newline .newline (by rw [hl]; rfl)
  have hslash : c ≠ '/' := fun hs => h (.comment []) (.comment (by simp)) (by rw [hs]; rfl)
  have hquote : c ≠ '"' := fun hq => h (.string []) (.string (by simp)) (by rw [hq]; rfl)
  have hdigit : ¬ c.isDigit := fun hd =>
    h (.number [c] []) (.number (by simp) (by simpa using hd) (by simp)) rfl
  have hletter : ¬ isLetter c := fun hl => h (.word [c]) (.word hl (by simp)) rfl
  have hsingle : singleMark? c = none := by
    rw [Option.eq_none_iff_forall_ne_some]
    exact fun kind hk => h (.mark kind [c]) (.mark (proper_singleMark? hk)) rfl
  have hgrowing : growingMark? c = none := by
    rw [Option.eq_none_iff_forall_ne_some]
    exact fun kinds hk => h (.mark kinds.2 [c]) (.mark (proper_growing hk [])) rfl
  rw [next, if_neg hgap, if_neg hline, if_neg (fun h => hslash h.1), if_neg hquote, if_neg hdigit,
    if_neg hletter, hsingle, hgrowing]

end

/-! ## What comes next fits -/

/-- The two kinds of marks. -/
theorem mem_marks {kind : Kind} {text : List Char} (h : (String.ofList text, kind) ∈ marks) :
    (∃ c, text = [c] ∧ singleMark? c = some kind) ∨
    (∃ c long, text = [c] ∧ growingMark? c = some (long, kind)) ∨
    ∃ c short, text = [c, '='] ∧ growingMark? c = some (kind, short) := by
  have htext : ∀ s, String.ofList text = s ↔ text = s.toList := fun s => by
    rw [← String.toList_inj, String.toList_ofList]
  simp only [marks, List.mem_cons, Prod.mk.injEq, List.not_mem_nil, or_false, htext] at h
  rcases h with ⟨rfl, rfl⟩ | ⟨rfl, rfl⟩ | ⟨rfl, rfl⟩ | ⟨rfl, rfl⟩ | ⟨rfl, rfl⟩ | ⟨rfl, rfl⟩ |
    ⟨rfl, rfl⟩ | ⟨rfl, rfl⟩ | ⟨rfl, rfl⟩ | ⟨rfl, rfl⟩ | ⟨rfl, rfl⟩ | h
  iterate 11 exact .inl ⟨_, rfl, rfl⟩
  rcases h with ⟨rfl, rfl⟩ | ⟨rfl, rfl⟩ | ⟨rfl, rfl⟩ | ⟨rfl, rfl⟩ | ⟨rfl, rfl⟩ | ⟨rfl, rfl⟩ |
    ⟨rfl, rfl⟩ | ⟨rfl, rfl⟩
  all_goals first
    | exact .inr (.inl ⟨_, _, rfl, rfl⟩)
    | exact .inr (.inr ⟨_, _, rfl, rfl⟩)

theorem text_number_cons (c : Char) (cs fraction : List Char) :
    ∃ rest, (number (c :: cs) fraction).text = c :: rest := by
  by_cases hf : fraction = []
  · exact ⟨cs, by simp [text, hf]⟩
  · exact ⟨cs ++ '.' :: fraction, by simp [text, hf]⟩

/-- Whatever an item of the grammar starts with is looked for. -/
theorem Lexeme.starts {i : Item} (h : Lexeme i) {c : Char} (hc : i.text.head? = some c) :
    isGap c ∨ c = '\n' ∨ c = '"' ∨ c.isDigit ∨ isLetter c ∨
      (singleMark? c).isSome ∨ (growingMark? c).isSome := by
  cases h with
  | blank hne hgaps => exact .inl (hgaps c (List.mem_of_mem_head? hc))
  | newline =>
    cases hc
    exact .inr (.inl rfl)
  | comment =>
    cases hc
    exact .inr (.inr (.inr (.inr (.inr (.inl rfl)))))
  | mark hmark =>
    rcases mem_marks hmark with ⟨d, rfl, hd⟩ | ⟨d, long, rfl, hd⟩ | ⟨d, short, rfl, hd⟩ <;> cases hc
    · exact .inr (.inr (.inr (.inr (.inr (.inl (by rw [hd]; rfl))))))
    · exact .inr (.inr (.inr (.inr (.inr (.inr (by rw [hd]; rfl))))))
    · exact .inr (.inr (.inr (.inr (.inr (.inr (by rw [hd]; rfl))))))
  | @number whole fraction hne hwhole =>
    obtain ⟨d, ds, rfl⟩ := List.exists_cons_of_ne_nil hne
    obtain ⟨rest, htext⟩ := text_number_cons d ds fraction
    rw [htext] at hc
    cases hc
    exact .inr (.inr (.inr (.inl (hwhole c (by simp)))))
  | word hletter =>
    cases hc
    exact .inr (.inr (.inr (.inr (.inl hletter))))
  | string =>
    cases hc
    exact .inr (.inr (.inl rfl))

theorem lexeme_number? {c : Char} (hc : c.isDigit) (cs : List Char) : Lexeme (number? c cs).1 := by
  have hwhole : ∀ d ∈ c :: cs.takeWhile Char.isDigit, d.isDigit :=
    List.forall_mem_cons.2 ⟨hc, fun d hd => List.mem_takeWhile_imp hd⟩
  unfold number?
  dsimp only
  split
  · split
    · next hd =>
      exact .number (by simp) hwhole
        (List.forall_mem_cons.2 ⟨hd, fun d hd => List.mem_takeWhile_imp hd⟩)
    · exact .number (by simp) hwhole (by simp)
  · exact .number (by simp) hwhole (by simp)

theorem fits_afterQuote (cs : List Char) : Fits (afterQuote cs).1 ('"' :: cs) := by
  cases hd : cs.dropWhile (· != '"') with
  | nil =>
    have hbody : '"' ∉ cs := fun h => by
      simpa using List.dropWhile_eq_nil_iff.1 hd _ h
    simpa [afterQuote, hd] using Fits.openString hbody
  | cons q rest =>
    have hbody : '"' ∉ cs.takeWhile (· != '"') := fun h => by
      simpa using List.mem_takeWhile_imp h
    have hnext : (afterQuote cs).1 = .string (cs.takeWhile (· != '"')) := by simp [afterQuote, hd]
    exact text_afterQuote cs ▸ .lexeme (hnext ▸ .string hbody)

/-- The item that is found next is one that the text can start with. -/
theorem fits_next (c : Char) (cs : List Char) : Fits (next c cs).1 (c :: cs) := by
  have of_lexeme : Lexeme (next c cs).1 → Fits (next c cs).1 (c :: cs) := fun h =>
    text_next c cs ▸ .lexeme h
  by_cases hgap : isGap c
  · refine of_lexeme ?_
    rw [next_blank hgap]
    exact .blank (by simp) (List.forall_mem_cons.2 ⟨hgap, fun d hd => List.mem_takeWhile_imp hd⟩)
  by_cases hline : c = '\n'
  · subst hline
    exact of_lexeme .newline
  by_cases hquote : c = '"'
  · subst hquote
    exact fits_afterQuote cs
  by_cases hdigit : c.isDigit
  · refine of_lexeme ?_
    rw [next_digit hdigit]
    exact lexeme_number? hdigit cs
  by_cases hletter : isLetter c
  · refine of_lexeme ?_
    rw [next_letter hletter]
    exact .word hletter fun d hd => List.mem_takeWhile_imp hd
  cases hsingle : singleMark? c with
  | some kind =>
    refine of_lexeme ?_
    rcases next_singleMark hsingle cs with hnext | hnext <;> rw [hnext]
    · exact .mark (proper_singleMark? hsingle)
    · exact .comment fun h => by simpa using List.mem_takeWhile_imp h
  | none =>
    cases hgrowing : growingMark? c with
    | some kinds =>
      refine of_lexeme ?_
      rw [next_growingMark hgrowing]
      have hproper := proper_growing hgrowing cs
      unfold growing at hproper ⊢
      split at hproper <;> exact .mark hproper
    | none =>
      have hstray : ∀ i, Lexeme i → i.text.head? ≠ some c := fun i hi hc => by
        simpa [hgap, hline, hquote, hdigit, hletter, hsingle, hgrowing] using hi.starts hc
      rw [next_stray hstray]
      exact .stray hstray

/-- Every item that is found is one that the text can start with where it stands. -/
theorem fits_of_mem_items {i : Item} {cs : List Char} (h : i ∈ items cs) : ∃ rest, Fits i rest := by
  fun_induction items cs with
  | case1 => cases h
  | case2 c cs ih =>
    rcases List.mem_cons.1 h with rfl | h
    · exact ⟨c :: cs, fits_next c cs⟩
    · exact ih h

/-! ## What comes next is the longest -/

/-- The same item, or a shorter one. -/
def AtMost (j i : Item) : Prop := j = i ∨ j.text.length < i.text.length

/-- An item that grows with its text. -/
theorem AtMost.extend {f : List Char → Item} (k : ℕ)
    (hf : ∀ body, (f body).text.length = k + body.length) (body more : List Char) :
    (f body).AtMost (f (body ++ more)) := by
  cases more with
  | nil => exact .inl (by rw [List.append_nil])
  | cons c cs =>
    refine .inr ?_
    rw [hf, hf, List.length_append, List.length_cons]
    omega

theorem length_text_number (whole fraction : List Char) :
    (number whole fraction).text.length =
      whole.length + if fraction = [] then 0 else 1 + fraction.length := by
  by_cases hf : fraction = []
  · simp [text, hf]
  · simp only [text, hf, ↓reduceIte, List.length_append, List.length_cons]
    omega

/-- A number grows with its digits before the point, and by digits after it. -/
theorem atMost_whole (whole more fraction : List Char) :
    (number whole []).AtMost (number (whole ++ more) fraction) := by
  by_cases hmore : more = [] ∧ fraction = []
  · exact .inl (by rw [hmore.1, hmore.2, List.append_nil])
  · refine .inr ?_
    rw [length_text_number, length_text_number, List.length_append, if_pos rfl]
    split
    · next hf =>
      have := List.length_pos_iff.2 fun h => hmore ⟨h, hf⟩
      omega
    · omega

theorem number?_whole_digits (c : Char) (cs : List Char) :
    ∃ fraction, (number? c cs).1 = .number (c :: cs.takeWhile Char.isDigit) fraction := by
  unfold number?
  dsimp only
  split
  · split <;> exact ⟨_, rfl⟩
  · exact ⟨_, rfl⟩

theorem number?_point {c d : Char} {whole rest : List Char} (hwhole : ∀ e ∈ whole, e.isDigit)
    (hd : d.isDigit) : (number? c (whole ++ '.' :: d :: rest)).1 =
      .number (c :: whole) (d :: rest.takeWhile Char.isDigit) := by
  have hpoint : ('.').isDigit = false := by decide
  unfold number?
  simp [List.takeWhile_append_of_pos hwhole, List.dropWhile_append_of_pos hwhole, hpoint, hd]

theorem bne_of_mem {c : Char} {cs : List Char} (h : c ∉ cs) : ∀ d ∈ cs, (d != c) = true :=
  fun _ hd => bne_iff_ne.2 (ne_of_mem_of_not_mem hd h)

/-- An item of the grammar at the front of a text is found next, or is shorter. -/
theorem Lexeme.atMost {j : Item} (h : Lexeme j) {c : Char} {cs rest : List Char}
    (htext : j.text ++ rest = c :: cs) : j.AtMost (next c cs).1 := by
  cases h with
  | newline =>
    obtain ⟨rfl, rfl⟩ := List.cons.inj htext
    exact .inl rfl
  | @blank text hne hgaps =>
    obtain ⟨d, ds, rfl⟩ := List.exists_cons_of_ne_nil hne
    obtain ⟨hd, hds⟩ := List.forall_mem_cons.1 hgaps
    obtain ⟨rfl, rfl⟩ : d = c ∧ ds ++ rest = cs := by simpa [text] using htext
    rw [next_blank hd, List.takeWhile_append_of_pos hds]
    exact AtMost.extend 1 (f := fun body => .blank (d :: body)) (fun _ => Nat.add_comm _ _) _ _
  | @comment body hbody =>
    obtain ⟨rfl, rfl⟩ : '/' = c ∧ '/' :: (body ++ rest) = cs := by simpa [text] using htext
    change AtMost _ (.comment ((body ++ rest).takeWhile (· != '\n')))
    rw [List.takeWhile_append_of_pos (bne_of_mem hbody)]
    exact AtMost.extend 2 (f := .comment) (fun body => Nat.add_comm body.length 2) _ _
  | mark hmark =>
    rcases mem_marks hmark with ⟨d, rfl, hd⟩ | ⟨d, long, rfl, hd⟩ | ⟨d, short, rfl, hd⟩
    · obtain ⟨rfl, rfl⟩ : d = c ∧ rest = cs := by simpa [text] using htext
      rcases next_singleMark hd rest with hnext | hnext
      · exact .inl hnext.symm
      · exact .inr (by rw [hnext]; simp [text])
    · obtain ⟨rfl, rfl⟩ : d = c ∧ rest = cs := by simpa [text] using htext
      rw [next_growingMark hd]
      unfold growing
      split
      · exact .inr (by simp [text])
      · exact .inl rfl
    · obtain ⟨rfl, rfl⟩ : d = c ∧ '=' :: rest = cs := by simpa [text] using htext
      rw [next_growingMark hd]
      exact .inl rfl
  | @number whole fraction hne hwhole hfraction =>
    obtain ⟨d, ds, rfl⟩ := List.exists_cons_of_ne_nil hne
    obtain ⟨hd, hds⟩ := List.forall_mem_cons.1 hwhole
    cases fraction with
    | nil =>
      obtain ⟨rfl, rfl⟩ : d = c ∧ ds ++ rest = cs := by simpa [text] using htext
      obtain ⟨fraction, hnumber⟩ := number?_whole_digits d (ds ++ rest)
      rw [next_digit hd, hnumber, List.takeWhile_append_of_pos hds]
      exact atMost_whole (d :: ds) _ _
    | cons e es =>
      obtain ⟨rfl, rfl⟩ : d = c ∧ ds ++ '.' :: e :: (es ++ rest) = cs := by
        simpa [text] using htext
      obtain ⟨he, hes⟩ := List.forall_mem_cons.1 hfraction
      rw [next_digit hd, number?_point hds he, List.takeWhile_append_of_pos hes]
      refine AtMost.extend (ds.length + 3) (f := fun body => .number (d :: ds) (e :: body)) ?_ _ _
      intro body
      rw [length_text_number, if_neg (by simp), List.length_cons, List.length_cons]
      omega
  | @word d ds hletter hrest =>
    obtain ⟨rfl, rfl⟩ : d = c ∧ ds ++ rest = cs := by simpa [text] using htext
    rw [next_letter hletter, List.takeWhile_append_of_pos hrest]
    exact AtMost.extend 1 (f := fun body => .word (d :: body)) (fun _ => Nat.add_comm _ _) _ _
  | @string body hbody =>
    obtain ⟨rfl, rfl⟩ : '"' = c ∧ body ++ '"' :: rest = cs := by simpa [text] using htext
    change AtMost _ (afterQuote _).1
    exact .inl (by simp [afterQuote, List.takeWhile_append_of_pos (bne_of_mem hbody),
      List.dropWhile_append_of_pos (bne_of_mem hbody)])

/-- Whatever a text can start with is found next, or is shorter. -/
theorem Fits.atMost {j : Item} {c : Char} {cs : List Char} (h : Fits j (c :: cs)) :
    j.AtMost (next c cs).1 := by
  generalize htext : c :: cs = all at h
  cases h with
  | lexeme hj => exact hj.atMost htext.symm
  | stray hstray =>
    cases htext
    exact .inl (by rw [next_stray hstray])
  | openString hbody =>
    cases htext
    have hopen : cs.dropWhile (· != '"') = [] := List.dropWhile_eq_nil_iff.2 (bne_of_mem hbody)
    change AtMost _ (afterQuote cs).1
    exact .inl (by simp [afterQuote, hopen])

/-- The longest of what a text can start with is what is found next. -/
theorem longest_iff {i : Item} {c : Char} {cs : List Char} :
    Longest i (c :: cs) ↔ i = (next c cs).1 := by
  constructor
  · rintro ⟨hi, hlongest⟩
    exact hi.atMost.resolve_right (Nat.not_lt.2 (hlongest _ (fits_next c cs)))
  · rintro rfl
    refine ⟨fits_next c cs, fun j hj => ?_⟩
    rcases hj.atMost with rfl | hlt
    · exact Nat.le_refl _
    · exact Nat.le_of_lt hlt

example : next '1' ['.', '2', '.', '3'] = (.number ['1'] ['2'], ['.', '3']) := rfl

/-! ## Splitting -/

/-- A text is split into items, each the longest of what the rest can start with. -/
inductive Splits : List Char → List Item → Prop
  | nil : Splits [] []
  | cons {i : Item} {rest : List Char} {is : List Item} : Longest i (i.text ++ rest) →
      Splits rest is → Splits (i.text ++ rest) (i :: is)

theorem Lexeme.text_ne_nil {i : Item} (h : Lexeme i) : i.text ≠ [] := by
  cases h with
  | blank hne => exact hne
  | mark hmark =>
    rcases mem_marks hmark with ⟨c, rfl, -⟩ | ⟨c, long, rfl, -⟩ | ⟨c, short, rfl, -⟩ <;> simp [text]
  | @number whole fraction hne =>
    obtain ⟨c, cs, rfl⟩ := List.exists_cons_of_ne_nil hne
    obtain ⟨rest, htext⟩ := text_number_cons c cs fraction
    simp [htext]
  | _ => simp [text]

/-- Nothing fits an empty text. -/
theorem Fits.ne_nil {i : Item} {cs : List Char} (h : Fits i cs) : cs ≠ [] := by
  cases h with
  | lexeme hi => simp [hi.text_ne_nil]
  | stray => simp
  | openString => simp

/-- A text splits into the items that are found, and in no other way. -/
theorem splits_iff {cs : List Char} {is : List Item} : Splits cs is ↔ is = items cs := by
  constructor
  · intro h
    induction h with
    | nil => rw [items]
    | @cons i rest is hi _ ih =>
      obtain ⟨c, cs, htext⟩ := List.exists_cons_of_ne_nil hi.1.ne_nil
      rw [htext] at hi ⊢
      obtain rfl := longest_iff.1 hi
      have hrest : rest = (next c cs).2 :=
        List.append_cancel_left (htext.trans (text_next c cs).symm)
      rw [items, ← hrest, ih]
  · rintro rfl
    fun_induction items cs with
    | case1 => exact .nil
    | case2 c cs ih =>
      have hi : Longest (next c cs).1 ((next c cs).1.text ++ (next c cs).2) := by
        rw [text_next]
        exact longest_iff.2 rfl
      have hsplits := Splits.cons hi ih
      rwa [text_next] at hsplits

end Item

end LoxLang
