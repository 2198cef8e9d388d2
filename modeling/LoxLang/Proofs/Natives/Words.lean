import LoxLang.Text.Blank
import Mathlib.Data.List.DropRight
/-!
# Words

The words of a text are its longest runs of characters that are not white space. If single spaces
stand between the words, they are also what trimming the text and splitting it at spaces gives.
-/

namespace LoxLang

/-- The words of a text: what stands between white space, unless nothing does. -/
def words (cs : List Char) : List (List Char) := (cs.splitOnP isBlank).filter fun w => !w.isEmpty

/-- A text without white space, of which there is something. -/
def Solid (w : List Char) : Prop := w ≠ [] ∧ ∀ c ∈ w, isBlank c = false

/-- A text of nothing but white space. -/
def Blanks (cs : List Char) : Prop := ∀ c ∈ cs, isBlank c = true

instance (w : List Char) : Decidable (Solid w) :=
  decidable_of_iff (w ≠ [] ∧ w.all (fun c => !isBlank c) = true) (by simp [Solid])

instance (cs : List Char) : Decidable (Blanks cs) :=
  decidable_of_iff (cs.all isBlank = true) List.all_eq_true

section Words

variable {cs ds w : List Char} {c : Char} {i : ℕ}

@[simp]
theorem words_nil : words [] = [] := rfl

/-- White space ends a word. -/
theorem words_append_cons (h : isBlank c = true) (cs ds : List Char) :
    words (cs ++ c :: ds) = words cs ++ words ds := by
  rw [words, List.splitOnP_append_cons _ _ h, List.filter_append]
  rfl

theorem words_cons (h : isBlank c = true) (cs : List Char) : words (c :: cs) = words cs :=
  words_append_cons h [] cs

theorem Solid.words (h : Solid w) : words w = [w] := by
  rw [LoxLang.words, List.splitOnP_eq_singleton h.2, List.filter_cons_of_pos (by simpa using h.1),
    List.filter_nil]

theorem Blanks.words_append (h : Blanks cs) (ds : List Char) : words (cs ++ ds) = words ds := by
  induction cs with
  | nil => rfl
  | cons c cs ih =>
    rw [List.cons_append, words_cons (h c List.mem_cons_self)]
    exact ih fun d hd => h d (List.mem_cons_of_mem c hd)

theorem Blanks.append_words (h : Blanks ds) (cs : List Char) : words (cs ++ ds) = words cs := by
  cases ds with
  | nil => rw [List.append_nil]
  | cons d ds =>
    rw [words_append_cons (h d List.mem_cons_self), ← List.append_nil ds,
      Blanks.words_append (fun c hc => h c (List.mem_cons_of_mem d hc)), words_nil,
      List.append_nil]

theorem words_append (h : ∀ c ∈ cs.getLast?, isBlank c = true) (ds : List Char) :
    words (cs ++ ds) = words cs ++ words ds := by
  rcases List.eq_nil_or_concat cs with rfl | ⟨front, c, rfl⟩
  · rfl
  · have hc : isBlank c = true := h c (by simp)
    rw [List.concat_eq_append, List.append_assoc, List.singleton_append, words_append_cons hc,
      words_append_cons hc, words_nil, List.append_nil]

theorem Solid.words_append (hw : Solid w) (h : ∀ c ∈ ds.head?, isBlank c = true) :
    LoxLang.words (w ++ ds) = w :: LoxLang.words ds := by
  cases ds with
  | nil => rw [List.append_nil, hw.words, words_nil]
  | cons d ds =>
    rw [words_append_cons (h d rfl), words_cons (h d rfl), hw.words]
    rfl

theorem dropWhile_head? {p : Char → Bool} : ∀ c ∈ (cs.dropWhile p).head?, p c = false := by
  intro c hc
  have h := List.head?_dropWhile_not p cs
  rw [hc] at h
  exact h

/-- A text is read word by word: white space is left out, and a word is taken as a whole. -/
theorem words_induction {P : List Char → Prop} (nil : P [])
    (blank : ∀ c cs, isBlank c = true → P cs → P (c :: cs))
    (word : ∀ w cs, Solid w → (∀ c ∈ cs.head?, isBlank c = true) → P cs → P (w ++ cs))
    (cs : List Char) : P cs := by
  induction hn : cs.length using Nat.strong_induction_on generalizing cs with
  | _ n ih =>
    subst hn
    cases cs with
    | nil => exact nil
    | cons c cs =>
      by_cases hc : isBlank c = true
      · exact blank c cs hc (ih _ (Nat.lt_succ_self _) cs rfl)
      · have hword : Solid (c :: cs.takeWhile fun c => !isBlank c) := by
          refine ⟨List.cons_ne_nil _ _, fun d hd => ?_⟩
          rcases List.mem_cons.1 hd with rfl | hd
          · exact Bool.eq_false_iff.2 hc
          · simpa using List.mem_takeWhile_imp hd
        have hrest : ∀ d ∈ (cs.dropWhile fun c => !isBlank c).head?, isBlank d = true :=
          fun d hd => by simpa using dropWhile_head? d hd
        have hshort : (cs.dropWhile fun c => !isBlank c).length < (c :: cs).length :=
          Nat.lt_succ_of_le (List.length_dropWhile_le _ _)
        have h := word _ _ hword hrest (ih _ hshort _ rfl)
        rwa [List.cons_append, List.takeWhile_append_dropWhile] at h

/-- Where a word stands in a text: as far as it can go, up to white space or to an end. -/
structure WordAt (cs front w behind : List Char) : Prop where
  split : cs = front ++ (w ++ behind)
  word : Solid w
  before : ∀ c ∈ front.getLast?, isBlank c = true
  after : ∀ c ∈ behind.head?, isBlank c = true

theorem WordAt.words {front behind : List Char} (h : WordAt cs front w behind) :
    words cs = words front ++ w :: words behind := by
  rw [h.split, words_append h.before, h.word.words_append h.after]

/-- The words of a text in their order: a word comes after those in front of it. -/
theorem getElem?_words_iff : (words cs)[i]? = some w ↔
    ∃ front behind, WordAt cs front w behind ∧ (words front).length = i := by
  constructor
  · intro h
    induction cs using words_induction generalizing i with
    | nil => cases h
    | blank c cs hc ih =>
      rw [words_cons hc] at h
      obtain ⟨front, behind, ⟨rfl, hw, hbefore, hafter⟩, rfl⟩ := ih h
      refine ⟨c :: front, behind, ⟨rfl, hw, fun d hd => ?_, hafter⟩, by rw [words_cons hc]⟩
      cases front with
      | nil =>
        cases hd
        exact hc
      | cons => exact hbefore d hd
    | word w' cs hw' hcs ih =>
      rw [hw'.words_append hcs] at h
      cases i with
      | zero =>
        cases h
        exact ⟨[], cs, ⟨rfl, hw', by simp, hcs⟩, rfl⟩
      | succ i =>
        obtain ⟨front, behind, ⟨rfl, hw, hbefore, hafter⟩, rfl⟩ := ih h
        have hfront : front ≠ [] := by
          rintro rfl
          obtain ⟨c, rest, rfl⟩ := List.exists_cons_of_ne_nil hw.1
          have hc := hw.2 c List.mem_cons_self
          rw [hcs c rfl] at hc
          cases hc
        have hhead : ∀ c ∈ front.head?, isBlank c = true := fun c hc =>
          hcs c (by rw [List.head?_append_of_ne_nil _ hfront]; exact hc)
        refine ⟨w' ++ front, behind, ⟨by rw [List.append_assoc], hw, fun d hd => ?_, hafter⟩, ?_⟩
        · rw [List.getLast?_append_of_ne_nil _ hfront] at hd
          exact hbefore d hd
        · rw [hw'.words_append hhead, List.length_cons]
  · rintro ⟨front, behind, h, rfl⟩
    rw [h.words, List.getElem?_append_right le_rfl, Nat.sub_self]
    rfl

end Words

/-! ## Trimming -/

/-- Trimming takes white space away and nothing else. -/
theorem exists_trim (cs : List Char) :
    ∃ front behind, cs = front ++ (trim cs ++ behind) ∧ Blanks front ∧ Blanks behind := by
  have htrim : trim cs = (cs.dropWhile isBlank).rdropWhile isBlank := rfl
  refine ⟨cs.takeWhile isBlank, (cs.dropWhile isBlank).rtakeWhile isBlank, ?_, ?_, ?_⟩
  · rw [htrim, List.rdropWhile_append_rtakeWhile, List.takeWhile_append_dropWhile]
  · exact fun c hc => List.mem_takeWhile_imp hc
  · exact fun c hc => List.mem_rtakeWhile_imp hc

/-- A text that neither begins nor ends with white space. -/
structure Trimmed (cs : List Char) : Prop where
  ne_nil : cs ≠ []
  head : ∀ c ∈ cs.head?, isBlank c = false
  last : ∀ c ∈ cs.getLast?, isBlank c = false

section Trimmed

variable {cs ds w front behind : List Char} {c : Char} {ws : List (List Char)}

theorem Solid.trimmed (h : Solid w) : Trimmed w :=
  ⟨h.1, fun c hc => h.2 c (List.mem_of_mem_head? hc),
    fun c hc => h.2 c (List.mem_of_mem_getLast? hc)⟩

theorem Trimmed.append_cons (hc : Trimmed cs) (hd : Trimmed ds) (c : Char) :
    Trimmed (cs ++ c :: ds) where
  ne_nil := List.append_ne_nil_of_left_ne_nil hc.ne_nil _
  head := by
    rw [List.head?_append_of_ne_nil _ hc.ne_nil]
    exact hc.head
  last := by
    rw [List.getLast?_append_of_ne_nil _ (List.cons_ne_nil _ _),
      List.getLast?_cons_of_ne_nil hd.ne_nil]
    exact hd.last

theorem trimmed_intercalate (hne : ws ≠ []) (h : ∀ w ∈ ws, Solid w) :
    Trimmed ([c].intercalate ws) := by
  induction ws with
  | nil => exact absurd rfl hne
  | cons w ws ih =>
    have hw := (h w List.mem_cons_self).trimmed
    cases ws with
    | nil => rwa [List.intercalate_singleton]
    | cons w' ws =>
      rw [List.intercalate_cons_cons, List.append_assoc]
      exact hw.append_cons (ih (List.cons_ne_nil _ _) fun w hw => h w (List.mem_cons_of_mem _ hw)) c

theorem dropWhile_eq_self (h : ∀ c ∈ cs.head?, isBlank c = false) : cs.dropWhile isBlank = cs := by
  cases cs with
  | nil => rfl
  | cons c cs => exact List.dropWhile_cons_of_neg (by rw [h c rfl]; exact Bool.false_ne_true)

/-- What neither begins nor ends with white space is what trimming leaves. -/
theorem Trimmed.trim_eq (h : Trimmed cs) (hfront : Blanks front) (hbehind : Blanks behind) :
    trim (front ++ (cs ++ behind)) = cs := by
  have hhead : ∀ c ∈ (cs ++ behind).head?, isBlank c = false := by
    rw [List.head?_append_of_ne_nil _ h.ne_nil]
    exact h.head
  have hlast : ∀ c ∈ cs.reverse.head?, isBlank c = false := by
    rw [List.head?_reverse]
    exact h.last
  have hreverse : ∀ c ∈ behind.reverse, isBlank c = true := fun c hc =>
    hbehind c (List.mem_reverse.1 hc)
  rw [trim, List.dropWhile_append_of_pos hfront, dropWhile_eq_self hhead, List.reverse_append,
    List.dropWhile_append_of_pos hreverse, dropWhile_eq_self hlast, List.reverse_reverse]

end Trimmed

/-! ## Single spaces between words -/

theorem splitOn_eq (separator : Char) (cs : List Char) :
    splitOn separator cs = cs.splitOn separator := by
  induction cs with
  | nil => rfl
  | cons c cs ih =>
    rw [splitOn, List.splitOn_cons_eq_if_modifyHead, ih]
    by_cases hc : c = separator
    · rw [if_pos hc, if_pos (beq_iff_eq.2 hc)]
    · rw [if_neg hc, if_neg (by simpa using hc)]
      cases h : cs.splitOn separator with
      | nil => exact absurd h (List.splitOn_ne_nil _ _)
      | cons => rfl

/-- A text whose words have single spaces between them; whatever white space stands in front of
the first word and behind the last one does not matter. -/
def EvenlySpaced (cs : List Char) : Prop :=
  ∃ front ws behind, cs = front ++ ([' '].intercalate ws ++ behind) ∧ Blanks front ∧
    Blanks behind ∧ ws ≠ [] ∧ ∀ w ∈ ws, Solid w

section Spaced

variable {cs : List Char} {ws : List (List Char)}

theorem words_intercalate (h : ∀ w ∈ ws, Solid w) : words ([' '].intercalate ws) = ws := by
  induction ws with
  | nil => rfl
  | cons w ws ih =>
    have hw := (h w List.mem_cons_self).words
    cases ws with
    | nil => rwa [List.intercalate_singleton]
    | cons w' ws =>
      rw [List.intercalate_cons_cons, List.append_assoc, List.singleton_append,
        words_append_cons (by decide), hw, ih fun w hw => h w (List.mem_cons_of_mem _ hw)]
      rfl

theorem Solid.space_not_mem {w : List Char} (h : Solid w) : ' ' ∉ w := fun hmem =>
  absurd (h.2 _ hmem) (by decide)

/-- Trimming such a text and splitting it at spaces gives its words. -/
theorem EvenlySpaced.splitOn_trim (h : EvenlySpaced cs) : splitOn ' ' (trim cs) = words cs := by
  obtain ⟨front, ws, behind, rfl, hfront, hbehind, hne, hws⟩ := h
  rw [(trimmed_intercalate hne hws).trim_eq hfront hbehind, splitOn_eq,
    List.splitOn_intercalate ' ' (fun w hw => (hws w hw).space_not_mem) hne, hfront.words_append,
    hbehind.append_words, words_intercalate hws]

/-- If splitting gives nothing but words, the text is evenly spaced. -/
theorem evenlySpaced_of_splitOn_trim (h : ∀ w ∈ splitOn ' ' (trim cs), Solid w) :
    EvenlySpaced cs := by
  obtain ⟨front, behind, hcs, hfront, hbehind⟩ := exists_trim cs
  rw [splitOn_eq] at h
  refine ⟨front, (trim cs).splitOn ' ', behind, ?_, hfront, hbehind, List.splitOn_ne_nil _ _, h⟩
  rwa [List.intercalate_splitOn]

end Spaced

end LoxLang
