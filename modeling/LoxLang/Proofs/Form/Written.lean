import LoxLang.Proofs.Form.Spelling
/-!
# Words in parentheses

What is written in prefix form is a single word, or some parts in parentheses with blanks between
them, which may be none. If every word is read as one terminal, the text says what its parts are.
-/

namespace LoxLang

/-- A text as it is put together: a word, or some parts in parentheses. -/
inductive Written where
  | word (text : String)
  | group (parts : List Written)

namespace Written

mutual

/-- The text itself. -/
def text : Written → String
  | word s => s
  | group parts => Node.form (texts parts)

/-- The texts of some parts. -/
def texts : List Written → List String
  | [] => []
  | x :: xs => x.text :: texts xs

end

mutual

/-- The words of a text, parentheses included. -/
def words : Written → List String
  | word s => [s]
  | group parts => "(" :: (allWords parts ++ [")"])

/-- The words of some parts. -/
def allWords : List Written → List String
  | [] => []
  | x :: xs => x.words ++ allWords xs

end

/-- What holds of words, and of a group whenever it holds of its parts, holds of every text. -/
@[elab_as_elim]
theorem induction {P : Written → Prop} (word : ∀ s, P (word s))
    (group : ∀ parts, (∀ x ∈ parts, P x) → P (group parts)) : ∀ x, P x
  | .word s => word s
  | .group parts => group parts fun x _ => induction word group x
termination_by x => sizeOf x
decreasing_by
  have := List.sizeOf_lt_of_mem ‹_›
  simp
  omega

end Written

/-- A text is read in one way only. -/
theorem Spells.unique {cs : List Char} {ts ts' : List Terminal} (h : Spells cs ts)
    (h' : Spells cs ts') : ts = ts' := by
  have hend : Boundary [] := fun c hc => by simp at hc
  obtain ⟨there, placed, rfl, heq⟩ := h .start [] hend
  obtain ⟨there', placed', rfl, heq'⟩ := h' .start [] hend
  have hnone : ∀ here, terminals here [] = ([], .finished) := fun here => by rw [terminals]
  rw [heq, hnone, hnone, Prod.mk.injEq, List.append_nil, List.append_nil] at heq'
  rw [heq'.1]

/-- A text that is read as a single terminal, and not as a parenthesis. -/
def Stands (text : String) : Prop :=
  ∃ t, IsTerminal text t ∧ t.text = text ∧ t ≠ .openParen ∧ t ≠ .closeParen

theorem Stands.ne_paren {text : String} (h : Stands text) : text ≠ "(" ∧ text ≠ ")" := by
  obtain ⟨t, ht, -, hopen, hclose⟩ := h
  have hparen : Spells ['('] [.openParen] := .single rfl fun rest _ => rfl
  have hparen' : Spells [')'] [.closeParen] := .single rfl fun rest _ => rfl
  constructor
  · rintro rfl
    exact hopen (List.singleton_inj.1 (ht.unique hparen))
  · rintro rfl
    exact hclose (List.singleton_inj.1 (ht.unique hparen'))

namespace Written

/-- Every word is read as a single terminal. -/
inductive Sound : Written → Prop
  | word {s} : Stands s → Sound (word s)
  | group {parts} : (∀ x ∈ parts, x.Sound) → Sound (group parts)

/-! ## Words tell parts -/

theorem Sound.head_words {x : Written} (h : x.Sound) : ∃ w ws, x.words = w :: ws ∧ w ≠ ")" := by
  cases h with
  | word hs =>
    exact ⟨_, [], by rw [words], hs.ne_paren.2⟩
  | group => exact ⟨"(", _, by rw [words], by decide⟩

/-- The words up to a closing parenthesis tell the parts, if the words of each part do. -/
theorem allWords_append_inj {xs : List Written}
    (h : ∀ x ∈ xs, ∀ y : Written, y.Sound → ∀ rest rest', x.words ++ rest = y.words ++ rest' →
      x = y ∧ rest = rest') (hxs : ∀ x ∈ xs, x.Sound) {ys : List Written} (hys : ∀ y ∈ ys, y.Sound)
    {rest rest' : List String}
    (heq : allWords xs ++ ")" :: rest = allWords ys ++ ")" :: rest') : xs = ys ∧ rest = rest' := by
  induction xs generalizing ys with
  | nil =>
    cases ys with
    | nil =>
      rw [allWords, List.nil_append, List.nil_append] at heq
      exact ⟨rfl, (List.cons.inj heq).2⟩
    | cons y ys =>
      obtain ⟨w, ws, hw, hclose⟩ := (hys y (by simp)).head_words
      rw [allWords, allWords, hw] at heq
      exact absurd (List.cons.inj heq).1.symm hclose
  | cons x xs ih =>
    cases ys with
    | nil =>
      obtain ⟨w, ws, hw, hclose⟩ := (hxs x (by simp)).head_words
      rw [allWords, allWords, hw] at heq
      exact absurd (List.cons.inj heq).1 hclose
    | cons y ys =>
      rw [allWords, allWords, List.append_assoc, List.append_assoc] at heq
      obtain ⟨rfl, hmore⟩ := h x (by simp) y (hys y (by simp)) _ _ heq
      obtain ⟨rfl, hrest⟩ := ih (fun x hx => h x (by simp [hx])) (fun x hx => hxs x (by simp [hx]))
        (fun y hy => hys y (by simp [hy])) hmore
      exact ⟨rfl, hrest⟩

/-- The words of a text tell where it ends and what its parts are. -/
theorem Sound.words_append_inj {x y : Written} (hx : x.Sound) (hy : y.Sound)
    {rest rest' : List String} (heq : x.words ++ rest = y.words ++ rest') :
    x = y ∧ rest = rest' := by
  induction x using induction generalizing y rest rest' with
  | word s =>
    cases hx with
    | word hs =>
      cases y with
      | word s' =>
        rw [words, words] at heq
        obtain ⟨rfl, hrest⟩ := List.cons.inj heq
        exact ⟨rfl, hrest⟩
      | group ys =>
        rw [words, words] at heq
        exact absurd (List.cons.inj heq).1 hs.ne_paren.1
  | group xs ih =>
    cases hx with
    | group hxs =>
      cases hy with
      | word hs =>
        rw [words, words] at heq
        exact absurd (List.cons.inj heq).1.symm hs.ne_paren.1
      | @group ys hys =>
        rw [words, words, List.cons_append, List.cons_append, List.append_assoc,
          List.append_assoc] at heq
        obtain ⟨rfl, hrest⟩ := allWords_append_inj
          (fun x hx y hy rest rest' => ih x hx (hxs x hx) hy) hxs hys (List.cons.inj heq).2
        exact ⟨rfl, hrest⟩

/-! ## Texts tell words -/

/-- A text with these words, whatever comes before it and behind its end. -/
def Reads (text : String) (words : List String) : Prop :=
  ∃ ts, Spells text.toList ts ∧ ts.map Terminal.text = words

/-- The texts of some parts are read as their words. -/
theorem reads_intercalate {xs : List Written} (h : ∀ x ∈ xs, Reads x.text x.words) :
    Reads (" ".intercalate (texts xs)) (allWords xs) := by
  induction xs with
  | nil =>
    refine ⟨[], fun here rest _ => ⟨here, [], rfl, ?_⟩, by rw [allWords]; rfl⟩
    rw [texts]
    rfl
  | cons x xs ih =>
    obtain ⟨ts, hts, hwords⟩ := h x (by simp)
    cases xs with
    | nil =>
      refine ⟨ts, ?_, by rw [allWords, allWords, hwords, List.append_nil]⟩
      rw [texts, texts]
      simpa using hts
    | cons y ys =>
      obtain ⟨us, hus, hrest⟩ := ih fun x hx => h x (by simp [hx])
      refine ⟨ts ++ us, ?_, by rw [List.map_append, hwords, hrest, ← allWords]⟩
      have htext : (" ".intercalate (texts (x :: y :: ys))).toList =
          x.text.toList ++ ' ' :: (" ".intercalate (texts (y :: ys))).toList := by
        simp [texts, String.intercalate_cons_cons, String.toList_append]
      rw [htext]
      exact hts.blank hus

theorem Sound.reads {x : Written} (h : x.Sound) : Reads x.text x.words := by
  induction x using induction with
  | word s =>
    cases h with
    | word hs =>
      obtain ⟨t, ht, htext, -⟩ := hs
      rw [text, words]
      exact ⟨[t], ht, by rw [List.map_singleton, htext]⟩
  | group xs ih =>
    cases h with
    | group hxs =>
      obtain ⟨ts, hts, hwords⟩ := reads_intercalate fun x hx => ih x hx (hxs x hx)
      have htext : (Node.form (texts xs)).toList =
          '(' :: (" ".intercalate (texts xs)).toList ++ [')'] := by
        simp [Node.form, String.toList_append]
      rw [text, words]
      refine ⟨.openParen :: ts ++ [.closeParen], ?_, by simp [hwords, Terminal.text]⟩
      rw [htext]
      exact hts.parens

/-- No two texts of which every word is a single terminal are written alike. -/
theorem Sound.text_inj {x y : Written} (hx : x.Sound) (hy : y.Sound) (h : x.text = y.text) :
    x = y := by
  obtain ⟨ts, hts, hwords⟩ := hx.reads
  obtain ⟨us, hus, hwords'⟩ := hy.reads
  rw [← h] at hus
  have heq : x.words = y.words := by rw [← hwords, ← hwords', hts.unique hus]
  exact (hx.words_append_inj hy (congrArg (· ++ []) heq)).1

end Written

end LoxLang
