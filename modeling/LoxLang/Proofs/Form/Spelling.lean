import LoxLang.Form.Expression
import LoxLang.Node.Prefix
import LoxLang.Proofs.Decimal.Texts
import LoxLang.Proofs.Form.Readable
/-!
# Texts that spell forms

A text spells its terminals wherever a word can end behind it, so texts can be put together with
blanks between them and parentheses around them. Reading these terminals gives a form, at the start
of a text as well as among the operands of another form.
-/

namespace LoxLang

/-- A text has these terminals, whatever comes before it and behind its end. -/
def Spells (cs : List Char) (ts : List Terminal) : Prop :=
  ∀ here rest, Boundary rest → ∃ there placed, placed.map PlacedTerminal.terminal = ts ∧
    terminals here (cs ++ rest) = (placed ++ (terminals there rest).1, (terminals there rest).2)

theorem terminals_space {c : Char} (hc : Terminal.isSpace c) (here : Place) (cs : List Char) :
    terminals here (c :: cs) = terminals (here.next c) cs := by
  rw [terminals, if_pos hc]

theorem terminals_next {c : Char} {cs : List Char} {t : Terminal} {size : ℕ}
    (hc : Terminal.isSpace c = false) (h : Terminal.next? c cs = some (t, size)) (here : Place) :
    ∃ there, terminals here (c :: cs) =
      (⟨t, here⟩ :: (terminals there (cs.drop size)).1, (terminals there (cs.drop size)).2) := by
  refine ⟨(here.next c).behind (cs.take size), ?_⟩
  rw [terminals, hc, if_neg Bool.false_ne_true, h]

namespace Spells

variable {cs ds : List Char} {ts us : List Terminal}

/-- A single terminal, which ends where a word can end. -/
theorem single {c : Char} {t : Terminal} (hc : Terminal.isSpace c = false)
    (h : ∀ rest, Boundary rest → Terminal.next? c (cs ++ rest) = some (t, cs.length)) :
    Spells (c :: cs) [t] := by
  intro here rest hrest
  obtain ⟨there, heq⟩ := terminals_next hc (h rest hrest) here
  rw [List.drop_left] at heq
  exact ⟨there, [⟨t, here⟩], rfl, heq⟩

/-- Two texts with a blank between them. -/
theorem blank (h : Spells cs ts) (h' : Spells ds us) : Spells (cs ++ ' ' :: ds) (ts ++ us) := by
  intro here rest hrest
  have hblank : Boundary (' ' :: (ds ++ rest)) := fun c hc => .inl (by simpa using hc.symm)
  obtain ⟨between, placed, hplaced, heq⟩ := h here _ hblank
  obtain ⟨there, placed', hplaced', heq'⟩ := h' (between.next ' ') rest hrest
  refine ⟨there, placed ++ placed', by rw [List.map_append, hplaced, hplaced'], ?_⟩
  rw [List.append_assoc, List.cons_append, heq, terminals_space rfl, heq', List.append_assoc]

/-- A text in parentheses. -/
theorem parens (h : Spells cs ts) :
    Spells ('(' :: cs ++ [')']) (.openParen :: ts ++ [.closeParen]) := by
  intro here rest hrest
  have hclose : Boundary (')' :: rest) := fun c hc => .inr (by simpa using hc.symm)
  have hopen : Terminal.next? '(' (cs ++ ')' :: rest) = some (.openParen, 0) := rfl
  obtain ⟨inner, hopen⟩ := terminals_next rfl hopen here
  obtain ⟨between, placed, hplaced, heq⟩ := h inner _ hclose
  have hend : Terminal.next? ')' rest = some (.closeParen, 0) := rfl
  obtain ⟨there, hend⟩ := terminals_next rfl hend between
  refine ⟨there, ⟨.openParen, here⟩ :: placed ++ [⟨.closeParen, between⟩], by simp [hplaced], ?_⟩
  rw [List.append_assoc, List.cons_append, List.singleton_append, hopen, List.drop_zero, heq, hend,
    List.drop_zero]
  simp

end Spells

/-! ## Words -/

/-- A text and the terminal that it is all by itself. -/
abbrev IsTerminal (text : String) (t : Terminal) : Prop := Spells text.toList [t]

theorem operator_plain {c : Char} (hc : c ∈ Terminal.shortOperators ++ Terminal.longOperators) :
    Terminal.isSpace c = false ∧ c ≠ '(' ∧ c ≠ ')' := by
  have hall : (Terminal.shortOperators ++ Terminal.longOperators).all fun c =>
      !Terminal.isSpace c && c != '(' && c != ')' := by
    decide
  simpa [and_assoc] using List.all_eq_true.1 hall c hc

theorem isTerminal_short {c : Char} (hc : c ∈ Terminal.shortOperators) :
    IsTerminal (String.ofList [c]) (.operator (String.ofList [c])) := by
  obtain ⟨hspace, hopen, hclose⟩ := operator_plain (List.mem_append_left _ hc)
  rw [IsTerminal, String.toList_ofList]
  refine .single hspace fun rest hrest => ?_
  have hend : rest.head? ≠ some '=' := by
    intro h
    have := hrest '=' h
    simp at this
  rw [List.nil_append, Terminal.next?, if_neg hopen, if_neg hclose, if_neg (fun h => hend h.2),
    if_pos (List.contains_iff_mem.2 hc)]
  rfl

theorem isTerminal_long {c : Char} (hc : c ∈ Terminal.longOperators) :
    IsTerminal (String.ofList [c, '=']) (.operator (String.ofList [c, '='])) := by
  obtain ⟨hspace, hopen, hclose⟩ := operator_plain (List.mem_append_right _ hc)
  rw [IsTerminal, String.toList_ofList]
  refine .single hspace fun rest hrest => ?_
  rw [List.singleton_append, Terminal.next?, if_neg hopen, if_neg hclose, if_pos ⟨List.contains_iff_mem.2 hc, rfl⟩]
  rfl

/-- A string goes up to the first quote. -/
theorem next?_string {body : List Char} (h : '"' ∉ body) (rest : List Char) :
    Terminal.next? '"' (body ++ ['"'] ++ rest) =
      some (.string (String.ofList body), body.length + 1) := by
  have hplain : ∀ c ∈ body, (c != '"') = true := by
    intro c hc
    rw [bne_iff_ne]
    rintro rfl
    exact h hc
  have hbody : (body ++ ['"'] ++ rest).takeWhile (· != '"') = body := by
    rw [List.append_assoc, List.takeWhile_append_of_pos hplain]
    simp
  have hnext : Terminal.next? '"' (body ++ ['"'] ++ rest) =
      let found := (body ++ ['"'] ++ rest).takeWhile (· != '"')
      if found.length < (body ++ ['"'] ++ rest).length then
        some (.string (String.ofList found), found.length + 1)
      else none := rfl
  rw [hnext, hbody]
  exact if_pos (by simp)

/-- A string without quotes in it. -/
theorem isTerminal_string {body : String} (h : '"' ∉ body.toList) :
    IsTerminal ("\"" ++ body ++ "\"") (.string body) := by
  have htext : ("\"" ++ body ++ "\"").toList = '"' :: (body.toList ++ ['"']) := by
    simp [String.toList_append]
  rw [IsTerminal, htext]
  refine .single rfl fun rest _ => ?_
  rw [next?_string h, String.ofList_toList]
  simp

/-- The characters that stand for themselves, separate terminals or open a string. -/
def signs : List Char :=
  ['(', ')', '"', ' ', '\t', '\x0c', '\r', '\n'] ++ Terminal.shortOperators ++ Terminal.longOperators

/-- All other characters start names or numbers. -/
theorem next?_of_not_mem_signs {c : Char} (hc : c ∉ signs) (cs : List Char) :
    Terminal.isSpace c = false ∧ Terminal.next? c cs =
      if Terminal.isNameStart c then
        some (.name (String.ofList (c :: cs.takeWhile Terminal.isNameRest)),
          (cs.takeWhile Terminal.isNameRest).length)
      else
        match takeNumeral? (c :: cs) with
        | some (value, rest) =>
          some (.number (String.ofList (c :: cs.take (cs.length - rest.length))) value,
            cs.length - rest.length)
        | none => none := by
  rw [signs, List.mem_append, List.mem_append, not_or, not_or] at hc
  obtain ⟨⟨hsign, hshort⟩, hlong⟩ := hc
  simp only [List.mem_cons, List.not_mem_nil, or_false, not_or] at hsign
  obtain ⟨hopen, hclose, hquote, hblank, htab, hfeed, hreturn, hline⟩ := hsign
  refine ⟨by simp [Terminal.isSpace, hblank, htab, hfeed, hreturn, hline], ?_⟩
  rewrite [Terminal.next?, if_neg hopen, if_neg hclose,
    if_neg (fun h => hlong (List.contains_iff_mem.1 h.1)),
    if_neg (fun h => hshort (List.contains_iff_mem.1 h)), if_neg hquote]
  rfl

theorem not_mem_signs {p : Char → Bool} (hp : signs.all fun c => !p c) {c : Char} (hc : p c) :
    c ∉ signs := by
  intro h
  have := List.all_eq_true.1 hp c h
  rw [hc] at this
  cases this

theorem isTerminal_name {text : String} (h : IsWord text) : IsTerminal text (.name text) := by
  obtain ⟨c, cs, htext, hc, hcs⟩ := h
  have htext' : text = String.ofList (c :: cs) := by rw [← htext, String.ofList_toList]
  have hsigns : c ∉ signs := not_mem_signs (by decide) hc
  rw [IsTerminal, htext, htext']
  refine .single (next?_of_not_mem_signs hsigns []).1 fun rest hrest => ?_
  have hname : (cs ++ rest).takeWhile Terminal.isNameRest = cs := by
    rw [List.takeWhile_append_of_pos hcs]
    cases rest with
    | nil => simp
    | cons d rest =>
      -- Neither a blank nor a parenthesis goes on with a name.
      have hend : Terminal.isNameRest d = false := by
        rcases hrest d rfl with rfl | rfl <;> rfl
      rw [List.takeWhile_cons_of_neg (by rw [hend]; exact Bool.false_ne_true), List.append_nil]
  rw [(next?_of_not_mem_signs hsigns _).2, if_pos hc, hname]

theorem isNameStart_of_isDigit {c : Char} (h : c.isDigit) : Terminal.isNameStart c = false := by
  have hc : 48 ≤ c.toNat ∧ c.toNat ≤ 57 := by
    simpa [Char.isDigit, UInt32.le_iff_toNat_le] using h
  refine Bool.eq_false_iff.2 fun hstart => ?_
  rcases Bool.or_eq_true_iff.1 hstart with halpha | hunder
  · simp only [Char.isAlpha, Char.isUpper, Char.isLower, Bool.or_eq_true, Bool.and_eq_true,
      decide_eq_true_eq, ge_iff_le, UInt32.le_iff_toNat_le] at halpha
    change 65 ≤ c.toNat ∧ _ ∨ 97 ≤ c.toNat ∧ _ at halpha
    omega
  · obtain rfl : c = '_' := eq_of_beq hunder
    cases h

theorem isTerminal_number {text : String} {d : Decimal} (h : Numeral text.toList d) :
    IsTerminal text (.number text d) := by
  obtain ⟨c, hhead, hdigit⟩ := h.head
  obtain ⟨cs, htext⟩ : ∃ cs, text.toList = c :: cs := List.head?_eq_some_iff.1 hhead
  have htext' : text = String.ofList (c :: cs) := by rw [← htext, String.ofList_toList]
  have hsigns : c ∉ signs := not_mem_signs (by decide) hdigit
  rw [IsTerminal, htext, htext']
  refine .single (next?_of_not_mem_signs hsigns []).1 fun rest hrest => ?_
  have htaken : takeNumeral? (c :: (cs ++ rest)) = some (d, rest) := by
    have := h.taken hrest
    rwa [htext] at this
  have hname : Terminal.isNameStart c = false := isNameStart_of_isDigit hdigit
  rw [(next?_of_not_mem_signs hsigns _).2, hname, if_neg Bool.false_ne_true, htaken]
  simp

/-! ## Heads -/

/-- The texts that can stand at the head of a form. -/
def IsHead (head : String) : Prop := ∃ t, IsTerminal head t ∧ Reading.head? t = some head

theorem isHead_word {head : String} (h : IsWord head) : IsHead head :=
  ⟨_, isTerminal_name h, rfl⟩

theorem isHead_short {c : Char} (hc : c ∈ Terminal.shortOperators) : IsHead (String.ofList [c]) :=
  ⟨_, isTerminal_short hc, rfl⟩

theorem isHead_long {c : Char} (hc : c ∈ Terminal.longOperators) :
    IsHead (String.ofList [c, '=']) :=
  ⟨_, isTerminal_long hc, rfl⟩

/-! ## Forms -/

/-- Some terminals are those of a form: they read as the form, at the start and as an operand. -/
structure Parses (ts : List Terminal) (f : Form) : Prop where
  start : ts.foldlM Reading.step? .start = some (.whole f)
  inside : ∀ current outer,
    ts.foldlM Reading.step? (.inside current outer) = some (Reading.finish f (current :: outer))

/-- The terminal that is a form all by itself. -/
theorem Parses.atom {t : Terminal} {f : Form} (h : Reading.atom? t = some f) : Parses [t] f := by
  cases t <;> cases h <;> exact ⟨rfl, fun _ _ => rfl⟩

/-- The operands of a form are read one after the other. -/
theorem foldlM_operands {head : String} {tss : List (List Terminal)} {forms : List Form}
    (h : List.Forall₂ Parses tss forms) (done : List Form) (outer : List OpenForm) :
    tss.flatten.foldlM Reading.step? (.inside ⟨head, done⟩ outer) =
      some (.inside ⟨head, forms.reverse ++ done⟩ outer) := by
  induction h generalizing done with
  | nil => rfl
  | @cons ts f tss forms hts _ ih =>
    rw [List.flatten_cons, List.foldlM_append, hts.inside, Option.bind_eq_bind, Option.bind_some]
    change tss.flatten.foldlM Reading.step? (.inside ⟨head, f :: done⟩ outer) = _
    rw [ih, List.reverse_cons, List.append_assoc]
    rfl

/-- A head and operands in parentheses are a form. -/
theorem Parses.list {head : String} {t : Terminal} (hhead : Reading.head? t = some head)
    {tss : List (List Terminal)} {forms : List Form} (h : List.Forall₂ Parses tss forms)
    (hne : forms ≠ []) :
    Parses (.openParen :: (t :: tss.flatten) ++ [.closeParen]) (.list head forms) := by
  have hinner : ∀ outer, ((t :: tss.flatten) ++ [Terminal.closeParen]).foldlM Reading.step? (.opened outer) =
      some (Reading.finish (.list head forms) outer) := by
    intro outer
    have hstep : Reading.step? (.opened outer) t = some (.inside ⟨head, []⟩ outer) := by
      rw [Reading.step?, hhead]
      rfl
    have hoperands : forms.reverse.isEmpty = false := by simp [hne]
    rw [List.cons_append, List.foldlM_cons, hstep, Option.bind_eq_bind, Option.bind_some,
      List.foldlM_append, foldlM_operands h, Option.bind_eq_bind, Option.bind_some,
      List.append_nil, List.foldlM_cons, Reading.step?, hoperands, if_neg Bool.false_ne_true,
      List.reverse_reverse]
    rfl
  exact ⟨hinner [], fun current outer => hinner (current :: outer)⟩

/-! ## Texts of forms -/

/-- A text that reads as a form. -/
def Writes (text : String) (f : Form) : Prop := ∃ ts, Spells text.toList ts ∧ Parses ts f

namespace Writes

theorem atom {text : String} {t : Terminal} {f : Form} (ht : IsTerminal text t)
    (h : Reading.atom? t = some f) : Writes text f :=
  ⟨[t], ht, .atom h⟩

/-- Texts of forms behind a text, with blanks between them. -/
theorem spells_words {texts : List String} {forms : List Form} (h : List.Forall₂ Writes texts forms)
    {first : String} {ts : List Terminal} (hfirst : Spells first.toList ts) :
    ∃ tss, List.Forall₂ Parses tss forms ∧
      Spells (" ".intercalate (first :: texts)).toList (ts ++ tss.flatten) := by
  induction h generalizing first ts with
  | nil => exact ⟨[], .nil, by simpa using hfirst⟩
  | @cons text f texts forms htext _ ih =>
    obtain ⟨us, hus, hf⟩ := htext
    obtain ⟨tss, hforms, hrest⟩ := ih hus
    refine ⟨us :: tss, .cons hf hforms, ?_⟩
    have htext : (" ".intercalate (first :: text :: texts)).toList =
        first.toList ++ ' ' :: (" ".intercalate (text :: texts)).toList := by
      simp [String.intercalate_cons_cons, String.toList_append]
    rw [htext]
    exact hfirst.blank hrest

/-- A form is written as its head and its operands in parentheses. -/
theorem list {head : String} (hhead : IsHead head) {texts : List String} {forms : List Form}
    (h : List.Forall₂ Writes texts forms) (hne : forms ≠ []) :
    Writes (Node.form (head :: texts)) (.list head forms) := by
  obtain ⟨t, ht, hhead⟩ := hhead
  obtain ⟨tss, hforms, hspells⟩ := spells_words h ht
  refine ⟨_, ?_, .list hhead hforms hne⟩
  have htext : (Node.form (head :: texts)).toList =
      '(' :: (" ".intercalate (head :: texts)).toList ++ [')'] := by
    simp [Node.form, String.toList_append]
  rw [htext]
  exact hspells.parens

theorem ofTerminals_of_foldlM {r : Reading} {placed : List PlacedTerminal} {f : Form} {last : Place}
    (h : (placed.map PlacedTerminal.terminal).foldlM Reading.step? r = some (.whole f)) :
    Form.ofTerminals r last placed .finished = .ok f := by
  induction placed generalizing r last with
  | nil =>
    cases h
    rfl
  | cons t placed ih =>
    rw [List.map_cons, List.foldlM_cons] at h
    obtain ⟨r', hr', h⟩ := Option.bind_eq_some_iff.1 h
    rw [Form.ofTerminals, hr']
    exact ih h

/-- The text of a form reads as the form. -/
theorem ofText {text : String} {f : Form} (h : Writes text f) : Form.ofText text = .ok f := by
  obtain ⟨ts, hts, hf⟩ := h
  obtain ⟨there, placed, hplaced, heq⟩ := hts .start [] (fun c hc => by simp at hc)
  have hend : terminals there [] = ([], .finished) := by rw [terminals]
  rw [List.append_nil, hend, List.append_nil] at heq
  rw [Form.ofText, heq]
  exact ofTerminals_of_foldlM (hplaced ▸ hf.start)

end Writes

end LoxLang
