import LoxLang.Proofs.Decimal.Patterns
import LoxLang.Proofs.Form.Spelling
/-!
# Longest terminals

The terminals of prefix form by their patterns. A text is cut into terminals by longest match, with
blanks left out, up to its end or up to a character that starts none, and there is one way to do so.
-/

namespace LoxLang

namespace Terminal

/-- The operators. -/
def operators : List String := ["<=", ">=", "!=", "==", "<", ">", "+", "-", "*", "/", "!", "="]

/-- A terminal and a text that it can have. -/
inductive Lexeme : Terminal → List Char → Prop
  | openParen : Lexeme .openParen ['(']
  | closeParen : Lexeme .closeParen [')']
  | operator {text : String} : text ∈ operators → Lexeme (.operator text) text.toList
  | number {text : List Char} {value : Decimal} : NumeralText text value →
      Lexeme (.number (String.ofList text) value) text
  | string {body : List Char} : '"' ∉ body →
      Lexeme (.string (String.ofList body)) ('"' :: (body ++ ['"']))
  | name {text : String} : IsWord text → Lexeme (.name text) text.toList

/-- The longest text of a terminal at the front of a text. -/
def Longest (t : Terminal) (front cs : List Char) : Prop :=
  t.Lexeme front ∧ front <+: cs ∧ ∀ (u : Terminal) other, u.Lexeme other → other <+: cs →
    other.length ≤ front.length

end Terminal

/-- A text that starts at a place is cut into terminals by longest match. -/
inductive Lexes : Place → List Char → List PlacedTerminal → Ending → Prop
  | done {here} : Lexes here [] [] .finished
  | space {here c cs ts ending} : Terminal.isSpace c → Lexes (here.next c) cs ts ending →
      Lexes here (c :: cs) ts ending
  | next {here t front rest ts ending} : t.Longest front (front ++ rest) →
      Lexes (here.behind front) rest ts ending →
      Lexes here (front ++ rest) (⟨t, here⟩ :: ts) ending
  | stuck {here c cs} : ¬ Terminal.isSpace c → (∀ (t : Terminal) front, t.Lexeme front → ¬ front <+: c :: cs) →
      Lexes here (c :: cs) [] (.badCharacter here)

namespace Terminal

/-! ## Where numbers start -/

/-- No digit of any script is a blank, a sign, or starts a name. -/
theorem digit_plain {c : Char} (h : (digitValue? c).isSome) : c ∉ signs ∧ isNameStart c = false := by
  have hsigns : signs.all fun c => (digitValue? c).isNone := by decide
  have hzeros : ∀ z ∈ digitZeros, z = 0x30 ∨ 0x660 ≤ z := by decide
  constructor
  · intro hc
    have hnone := List.all_eq_true.1 hsigns c hc
    rw [Option.isNone_iff_eq_none.1 hnone] at h
    cases h
  · rw [digitValue?, Option.isSome_map] at h
    obtain ⟨z, hz⟩ := Option.isSome_iff_exists.1 h
    have hbounds := List.find?_some hz
    simp only [Bool.and_eq_true, decide_eq_true_eq] at hbounds
    have hrange : c.toNat < 58 ∨ 0x660 ≤ c.toNat := by
      rcases hzeros z (List.mem_of_find?_eq_some hz) with rfl | hlarge <;> omega
    refine Bool.eq_false_iff.2 fun hstart => ?_
    rcases Bool.or_eq_true_iff.1 hstart with halpha | hunder
    · simp only [Char.isAlpha, Char.isUpper, Char.isLower, Bool.or_eq_true, Bool.and_eq_true,
        decide_eq_true_eq, ge_iff_le, UInt32.le_iff_toNat_le] at halpha
      change 65 ≤ c.toNat ∧ c.toNat ≤ 90 ∨ 97 ≤ c.toNat ∧ c.toNat ≤ 122 at halpha
      omega
    · obtain rfl : c = '_' := eq_of_beq hunder
      simp at hrange

/-! ## What comes next -/

variable {c : Char} {cs : List Char} {t u : Terminal} {size : ℕ}

theorem operators_eq : operators = (longOperators.map fun c => String.ofList [c, '=']) ++
    shortOperators.map fun c => String.ofList [c] := rfl

theorem lexeme_operator {text : List Char} (h : String.ofList text ∈ operators) :
    (Terminal.operator (String.ofList text)).Lexeme text := by
  have hlexeme := Lexeme.operator h
  rwa [String.toList_ofList] at hlexeme

/-- A closing quote is where the text without quotes ends. -/
theorem takeWhile_quote (h : (cs.takeWhile (· != '"')).length < cs.length) :
    cs.take ((cs.takeWhile (· != '"')).length + 1) = cs.takeWhile (· != '"') ++ ['"'] := by
  induction cs with
  | nil => simp at h
  | cons d cs ih =>
    by_cases hd : d = '"'
    · subst hd
      rfl
    · have hd' : (d != '"') = true := by simpa using hd
      rw [List.takeWhile_cons_of_pos (p := (· != '"')) hd'] at h ⊢
      rw [List.length_cons, List.length_cons] at h
      rw [List.length_cons, List.take_succ_cons, ih (by omega), List.cons_append]

/-- What comes next is a terminal. -/
theorem next?_sound (h : next? c cs = some (t, size)) :
    size ≤ cs.length ∧ t.Lexeme (c :: cs.take size) := by
  unfold next? at h
  split at h
  · next hc =>
    cases h
    rw [hc, List.take_zero]
    exact ⟨Nat.zero_le _, .openParen⟩
  split at h
  · next hc =>
    cases h
    rw [hc, List.take_zero]
    exact ⟨Nat.zero_le _, .closeParen⟩
  split at h
  · next hc =>
    cases h
    obtain ⟨rest, rfl⟩ := List.head?_eq_some_iff.1 hc.2
    have hlong := List.mem_map_of_mem (f := fun c => String.ofList [c, '='])
      (List.contains_iff_mem.1 hc.1)
    exact ⟨by simp, lexeme_operator (operators_eq ▸ List.mem_append_left _ hlong)⟩
  split at h
  · next hc =>
    cases h
    have hshort := List.mem_map_of_mem (f := fun c => String.ofList [c])
      (List.contains_iff_mem.1 hc)
    exact ⟨Nat.zero_le _, lexeme_operator (operators_eq ▸ List.mem_append_right _ hshort)⟩
  split at h
  · next hc =>
    dsimp only at h
    split at h
    · next hclosed =>
      cases h
      rw [takeWhile_quote hclosed, hc]
      refine ⟨hclosed, .string fun hquote => ?_⟩
      simpa using List.mem_takeWhile_imp hquote
    · cases h
  split at h
  · next hstart =>
    cases h
    have hfront := List.takeWhile_prefix isNameRest (l := cs)
    rw [← List.prefix_iff_eq_take.1 hfront]
    refine ⟨hfront.length_le, ?_⟩
    have hword : IsWord (String.ofList (c :: cs.takeWhile isNameRest)) :=
      ⟨c, _, String.toList_ofList, hstart, fun d hd => List.mem_takeWhile_imp hd⟩
    have hlexeme := Lexeme.name hword
    rwa [String.toList_ofList] at hlexeme
  · split at h
    · next value rest hnumeral =>
      cases h
      obtain ⟨text, htext, hvalue⟩ := takeNumeral?_sound hnumeral
      obtain ⟨d, ds, rfl, -⟩ := hvalue.head
      rw [List.cons_append] at htext
      obtain ⟨rfl, rfl⟩ := List.cons.inj htext
      simp only [List.length_append, Nat.add_sub_cancel, List.take_left]
      exact ⟨Nat.le_add_right _ _, .number hvalue⟩
    · cases h

/-- What comes next is at least as long as any terminal at the front. -/
theorem next?_atMost {other : List Char} (h : u.Lexeme other) (hfront : other <+: c :: cs) :
    ∃ t size, next? c cs = some (t, size) ∧ (other.length = size + 1 ∧ u = t ∨
      other.length < size + 1) := by
  obtain ⟨rest, hrest⟩ := hfront
  -- The first character decides what sort of terminal it is, so both are of the same sort.
  cases h with
  | openParen =>
    cases hrest
    exact ⟨_, _, rfl, .inl ⟨rfl, rfl⟩⟩
  | closeParen =>
    cases hrest
    exact ⟨_, _, rfl, .inl ⟨rfl, rfl⟩⟩
  | @operator text hmem =>
    rw [operators_eq] at hmem
    rcases List.mem_append.1 hmem with hlong | hshort
    · obtain ⟨d, hd, rfl⟩ := List.mem_map.1 hlong
      obtain ⟨-, hopen, hclose⟩ := operator_plain (List.mem_append_right _ hd)
      rw [String.toList_ofList] at hrest
      cases hrest
      refine ⟨_, 1, ?_, .inl ⟨by simp, rfl⟩⟩
      rw [next?, if_neg hopen, if_neg hclose, if_pos ⟨List.contains_iff_mem.2 hd, rfl⟩]
    · obtain ⟨d, hd, rfl⟩ := List.mem_map.1 hshort
      obtain ⟨-, hopen, hclose⟩ := operator_plain (List.mem_append_left _ hd)
      rw [String.toList_ofList] at hrest
      cases hrest
      rw [next?, if_neg hopen, if_neg hclose]
      split
      · exact ⟨_, 1, rfl, .inr (by simp)⟩
      · rw [if_pos (List.contains_iff_mem.2 hd)]
        exact ⟨_, 0, rfl, .inl ⟨by simp, rfl⟩⟩
  | @number text value hvalue =>
    obtain ⟨d, ds, rfl, hdigit⟩ := hvalue.head
    rw [List.cons_append] at hrest
    cases hrest
    obtain ⟨hsigns, hstart⟩ := digit_plain hdigit
    obtain ⟨value', rest', htaken, hcases⟩ := takeNumeral?_atMost hvalue rest
    rw [List.cons_append] at htaken
    rw [(next?_of_not_mem_signs hsigns _).2, hstart, if_neg Bool.false_ne_true, htaken]
    refine ⟨_, _, rfl, ?_⟩
    rw [List.length_append, List.length_cons]
    rcases hcases with ⟨rfl, rfl⟩ | hlt
    · refine .inl ⟨by omega, ?_⟩
      simp
    · exact .inr (by omega)
  | @string body hbody =>
    obtain ⟨rfl, rfl⟩ := List.cons.inj hrest
    exact ⟨_, _, next?_string hbody rest, .inl ⟨by simp, rfl⟩⟩
  | @name text hword =>
    obtain ⟨d, ds, htext, hstart, hds⟩ := hword
    rw [htext, List.cons_append] at hrest
    rw [htext]
    obtain ⟨rfl, rfl⟩ := List.cons.inj hrest
    have hsigns : d ∉ signs := not_mem_signs (by decide) hstart
    have htaken : (ds ++ rest).takeWhile isNameRest = ds ++ rest.takeWhile isNameRest :=
      List.takeWhile_append_of_pos hds
    rw [(next?_of_not_mem_signs hsigns _).2, if_pos hstart, htaken]
    refine ⟨_, _, rfl, ?_⟩
    cases hmore : rest.takeWhile isNameRest with
    | nil => exact .inl ⟨by simp, by rw [List.append_nil, ← htext, String.ofList_toList]⟩
    | cons => exact .inr (by simp)

/-- The longest terminal at the front is the one that comes next. -/
theorem longest_iff {front : List Char} :
    t.Longest front (c :: cs) ↔ ∃ size, next? c cs = some (t, size) ∧ front = c :: cs.take size := by
  constructor
  · rintro ⟨hlexeme, hfront, hlongest⟩
    obtain ⟨t', size, hnext, hcases⟩ := next?_atMost hlexeme hfront
    obtain ⟨hsize, hlexeme'⟩ := next?_sound hnext
    rcases hcases with ⟨hlength, rfl⟩ | hlt
    · refine ⟨size, hnext, ?_⟩
      rw [List.prefix_iff_eq_take.1 hfront, hlength, List.take_succ_cons]
    · -- What comes next would be longer.
      have hfront : c :: cs.take size <+: c :: cs :=
        List.prefix_cons_inj c |>.2 (List.take_prefix _ _)
      have hle := hlongest t' _ hlexeme' hfront
      rw [List.length_cons, List.length_take, Nat.min_eq_left hsize] at hle
      omega
  · rintro ⟨size, hnext, rfl⟩
    obtain ⟨hsize, hlexeme⟩ := next?_sound hnext
    refine ⟨hlexeme, List.prefix_cons_inj c |>.2 (List.take_prefix _ _), fun u other hu hother => ?_⟩
    obtain ⟨t', size', hnext', hcases⟩ := next?_atMost hu hother
    cases hnext.symm.trans hnext'
    rw [List.length_cons, List.length_take, Nat.min_eq_left hsize]
    omega

/-- No terminal starts with a blank. -/
theorem Lexeme.front {front : List Char} (h : t.Lexeme front) :
    ∃ c cs, front = c :: cs ∧ isSpace c = false := by
  cases h with
  | openParen | closeParen | string => exact ⟨_, _, rfl, rfl⟩
  | operator hmem =>
    rw [operators_eq] at hmem
    rcases List.mem_append.1 hmem with hlong | hshort
    · obtain ⟨d, hd, rfl⟩ := List.mem_map.1 hlong
      exact ⟨d, _, String.toList_ofList, (operator_plain (List.mem_append_right _ hd)).1⟩
    · obtain ⟨d, hd, rfl⟩ := List.mem_map.1 hshort
      exact ⟨d, _, String.toList_ofList, (operator_plain (List.mem_append_left _ hd)).1⟩
  | number hvalue =>
    obtain ⟨d, ds, rfl, hdigit⟩ := hvalue.head
    exact ⟨d, ds, rfl, (next?_of_not_mem_signs (digit_plain hdigit).1 []).1⟩
  | name hword =>
    obtain ⟨d, ds, htext, hstart, -⟩ := hword
    exact ⟨d, ds, htext, (next?_of_not_mem_signs (not_mem_signs (by decide) hstart) []).1⟩

end Terminal

/-- The longest terminal at the front is the first one that is found. -/
theorem terminals_longest {t : Terminal} {front rest : List Char}
    (h : t.Longest front (front ++ rest)) (here : Place) :
    terminals here (front ++ rest) = (⟨t, here⟩ :: (terminals (here.behind front) rest).1,
      (terminals (here.behind front) rest).2) := by
  obtain ⟨c, cs, rfl, hspace⟩ := h.1.front
  rw [List.cons_append] at h ⊢
  obtain ⟨size, hnext, hfront⟩ := Terminal.longest_iff.1 h
  have htake : cs = (cs ++ rest).take size := List.tail_eq_of_cons_eq hfront
  have hdrop : (cs ++ rest).drop size = rest := by
    have happend := List.take_append_drop size (cs ++ rest)
    rw [← htake] at happend
    exact List.append_cancel_left happend
  rw [terminals, hspace, if_neg Bool.false_ne_true, hnext]
  dsimp only
  rw [← htake, hdrop]
  rfl

/-- The terminals that are found are the ones by longest match. -/
theorem lexes_iff {here : Place} {cs : List Char} {ts : List PlacedTerminal} {ending : Ending} :
    Lexes here cs ts ending ↔ terminals here cs = (ts, ending) := by
  constructor
  · intro h
    induction h with
    | done => rw [terminals]
    | space hspace _ ih => rw [terminals_space hspace, ih]
    | next hlongest _ ih => rw [terminals_longest hlongest, ih]
    | @stuck here c cs hspace hnone =>
      have hnext : Terminal.next? c cs = none := by
        refine Option.eq_none_iff_forall_ne_some.2 ?_
        rintro ⟨t, size⟩ hnext
        exact hnone t _ (Terminal.next?_sound hnext).2
          (List.prefix_cons_inj c |>.2 (List.take_prefix _ _))
      rw [terminals, if_neg hspace, hnext]
  · fun_induction terminals here cs generalizing ts ending with
    | case1 =>
      rintro ⟨⟩
      exact .done
    | case2 here c cs hspace ih => exact fun h => .space hspace (ih h)
    | case3 here c cs hspace hnone =>
      rintro ⟨⟩
      refine .stuck hspace fun t front ht hfront => ?_
      obtain ⟨_, _, hnext, -⟩ := Terminal.next?_atMost ht hfront
      cases hnone.symm.trans hnext
    | case4 here c cs hspace t size hnext us there hrest ih =>
      rintro ⟨⟩
      have hsplit : c :: cs = (c :: cs.take size) ++ cs.drop size := by
        rw [List.cons_append, List.take_append_drop]
      have hlongest := Terminal.longest_iff.2 ⟨size, hnext, rfl⟩
      rw [hsplit] at hlongest ⊢
      exact .next hlongest (ih hrest)

end LoxLang
