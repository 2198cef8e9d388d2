import LoxLang.Proofs.Decimal.Texts
import LoxLang.Proofs.Natives.Slices
import LoxLang.Proofs.Natives.Words
/-!
# Fields

A field is a number if it has the form of one, else a text. The fields of a text are its words
just if the words have single spaces between them.
-/

namespace LoxLang

/-! ## Numbers -/

/-- A text of the form of a number, with the number: perhaps a minus sign, digits, and perhaps more
digits behind a point. -/
inductive NumberText : List Char → Float → Prop
  | unsigned {whole fraction : List Char} {ws fs : List ℕ} : whole ≠ [] → Digits whole ws →
      Digits fraction fs →
      NumberText (whole ++ pointed fraction) (Decimal.ofDigits ws fs 0).toFloat
  | negated {whole fraction : List Char} {ws fs : List ℕ} : whole ≠ [] → Digits whole ws →
      Digits fraction fs →
      NumberText ('-' :: (whole ++ pointed fraction)) (-(Decimal.ofDigits ws fs 0).toFloat)

section Number

variable {cs whole fraction : List Char} {ws fs : List ℕ} {x : Float} {c : Char}

theorem takePlain?_whole (hne : whole ≠ []) (hwhole : Digits whole ws)
    (hfraction : Digits fraction fs) :
    takePlain? (whole ++ pointed fraction) = some (ws, fs, []) := by
  have hnothing : ∀ c ∈ ([] : List Char).head?, digitValue? c = none ∧ c ≠ '.' := nofun
  have h := takePlain?_append hne hwhole hfraction hnothing
  rwa [List.append_nil] at h

/-- What is taken for a number is a text of that form. -/
theorem plainNumber?_iff : plainNumber? cs = some x ↔ NumberText cs x := by
  constructor
  · intro h
    unfold plainNumber? at h
    split at h
    next negative rest hsign =>
      split at h
      · next ws fs hplain =>
        obtain ⟨whole, fraction, hrest, hne, hwhole, hfraction⟩ := takePlain?_eq_some hplain
        rw [List.append_nil] at hrest
        subst hrest
        split at hsign
        · cases hsign
          cases h
          exact .negated hne hwhole hfraction
        · cases hsign
          cases h
          exact .unsigned hne hwhole hfraction
      · cases h
  · rintro (⟨hne, hwhole, hfraction⟩ | ⟨hne, hwhole, hfraction⟩)
    · unfold plainNumber?
      split
      next negative rest hsign =>
        split at hsign
        · next heq =>
          -- The first character is a digit, so it is no minus sign.
          obtain ⟨c, digits, rfl⟩ := List.exists_cons_of_ne_nil hne
          obtain ⟨rfl, -⟩ := List.cons.inj heq
          cases hwhole with
          | cons hc _ =>
            have hminus : digitValue? '-' = none := by decide
            rw [hminus] at hc
            cases hc
        · cases hsign
          rw [takePlain?_whole hne hwhole hfraction]
          rfl
    · simp only [plainNumber?, takePlain?_whole hne hwhole hfraction, if_true]

/-- No digit is white space. -/
theorem isBlank_of_digitValue? {d : ℕ} (h : digitValue? c = some d) : isBlank c = false := by
  have hdisjoint : ∀ z ∈ digitZeros, ∀ r ∈ blankRanges, z + 10 ≤ r.1 ∨ r.2 < z := by decide
  obtain ⟨z, hz, -⟩ := Option.map_eq_some_iff.1 h
  have hc := List.find?_some hz
  simp only [Bool.and_eq_true, decide_eq_true_eq] at hc
  rw [isBlank, List.any_eq_false]
  intro r hr
  simp only [Bool.and_eq_true, decide_eq_true_eq, not_and, not_le]
  have := hdisjoint z (List.mem_of_find?_eq_some hz) r hr
  omega

theorem Digits.nonblank (h : Digits cs ws) : ∀ c ∈ cs, isBlank c = false := by
  induction h with
  | nil => simp
  | cons hd _ ih => exact List.forall_mem_cons.2 ⟨isBlank_of_digitValue? hd, ih⟩

theorem solid_unsigned (hne : whole ≠ []) (hwhole : Digits whole ws)
    (hfraction : Digits fraction fs) : Solid (whole ++ pointed fraction) := by
  refine ⟨List.append_ne_nil_of_left_ne_nil hne _, fun c hc => ?_⟩
  rcases List.mem_append.1 hc with hc | hc
  · exact hwhole.nonblank c hc
  · rw [pointed] at hc
    split at hc
    · cases hc
    · rcases List.mem_cons.1 hc with rfl | hc
      · decide
      · exact hfraction.nonblank c hc

theorem NumberText.solid (h : NumberText cs x) : Solid cs := by
  cases h with
  | unsigned hne hwhole hfraction => exact solid_unsigned hne hwhole hfraction
  | negated hne hwhole hfraction =>
    refine ⟨List.cons_ne_nil _ _, fun c hc => ?_⟩
    rcases List.mem_cons.1 hc with rfl | hc
    · decide
    · exact (solid_unsigned hne hwhole hfraction).2 c hc

end Number

/-! ## The values of fields -/

/-- What a field stands for: a number if it has the form of one, and itself otherwise. -/
inductive StandsFor (w : List Char) : Value → Prop
  | number {x : Float} : NumberText w x → StandsFor w (.number x)
  | text : (∀ x, ¬ NumberText w x) → StandsFor w (.string (String.ofList w))

section Values

variable {w w' : List Char} {v : Value}

theorem standsFor_fieldValue (w : List Char) : StandsFor w (Native.fieldValue w) := by
  rw [Native.fieldValue]
  split
  · next x hx => exact .number (plainNumber?_iff.1 hx)
  · next hx =>
    refine .text fun x h => ?_
    rw [plainNumber?_iff.2 h] at hx
    cases hx

theorem StandsFor.eq_fieldValue (h : StandsFor w v) : v = Native.fieldValue w := by
  cases h with
  | number hx => rw [Native.fieldValue, plainNumber?_iff.2 hx]
  | text hx =>
    have hnone : plainNumber? w = none := by
      cases h : plainNumber? w with
      | none => rfl
      | some x => exact absurd (plainNumber?_iff.1 h) (hx x)
    rw [Native.fieldValue, hnone]

/-- What stands for the same as a word is a word. -/
theorem StandsFor.solid (h : StandsFor w v) (h' : StandsFor w' v) (hw : Solid w') : Solid w := by
  cases h with
  | number hx => exact hx.solid
  | text _ =>
    generalize hu : String.ofList w = u at h'
    cases h' with
    | text _ =>
      obtain rfl := String.ofList_injective hu
      exact hw

end Values

/-! ## Fields by their number -/

namespace Native

/-- The words of a text are found by their number: each stands for what it reads as, and where
there is none, the number is out of range. -/
structure FindsWords (r : Float) (s : String) : Prop where
  inside : ∀ x i w, Whole x i → 0 ≤ i → (words s.toList)[i.toNat]? = some w →
    ∃ v, strat.apply r [.string s, .number x] = .ok v ∧ StandsFor w v
  outside : ∀ x i, Whole x i → i < 0 ∨ (words s.toList).length ≤ i →
    strat.apply r [.string s, .number x] = .error (.rejected (.outOfRange i))

section Strat

variable {r : Float} {s : String} {x : Float} {i : ℤ} {k : ℕ} {w : List Char}

theorem strat_apply (hx : Whole x i) : strat.apply r [.string s, .number x] =
    if i < 0 then .error (.rejected (.outOfRange i))
    else
      match (fields s)[i.toNat]? with
      | some field => .ok (fieldValue field)
      | none => .error (.rejected (.outOfRange i)) := by
  rw [apply, indexArgument_whole (i := 1) rfl hx]
  by_cases hi : i < 0
  · rw [if_pos hi]
    change (if i < 0 then _ else _ : Except NativeError Value) = _
    rw [if_pos hi]
    rfl
  · rw [if_neg hi]
    change (if i < 0 then _ else _ : Except NativeError Value) = _
    rw [if_neg hi]
    rfl

theorem mem_words_solid (h : w ∈ words s.toList) : Solid w := by
  obtain ⟨i, hi⟩ := List.mem_iff_getElem?.1 h
  obtain ⟨_, _, hw, -⟩ := getElem?_words_iff.1 hi
  exact hw.word

theorem length_fields_le (s : String) : (fields s).length ≤ s.length + 1 := by
  obtain ⟨front, behind, hs, -, -⟩ := exists_trim s.toList
  have hlength := congrArg List.length hs
  have hcount := List.count_le_length (a := ' ') (l := trim s.toList)
  rw [List.length_append, List.length_append, String.length_toList] at hlength
  rw [fields, length_splitOn]
  omega

end Strat

/-- The fields of a text are its words if these have single spaces between them, and only then. -/
theorem strat_finds_words (r : Float) (s : String) :
    (EvenlySpaced s.toList → FindsWords r s) ∧
      (s.length < 2 ^ 53 → FindsWords r s → EvenlySpaced s.toList) := by
  constructor
  · intro h
    have hfields : fields s = words s.toList := h.splitOn_trim
    refine ⟨fun x i w hx hi hw => ?_, fun x i hx hi => ?_⟩
    · rw [strat_apply hx, if_neg hi.not_gt, hfields, hw]
      exact ⟨_, rfl, standsFor_fieldValue w⟩
    · rw [strat_apply hx, hfields]
      split
      · rfl
      · rw [List.getElem?_eq_none (by omega)]
  · intro hs h
    refine evenlySpaced_of_splitOn_trim fun w hw => ?_
    obtain ⟨k, hk⟩ := List.mem_iff_getElem?.1 hw
    obtain ⟨hlt, -⟩ := List.getElem?_eq_some_iff.1 hk
    have hlength : k < s.length + 1 := hlt.trans_le (length_fields_le s)
    have hx : Whole (Float.ofNat k) k := whole_ofNat (by omega)
    have hvalue : strat.apply r [.string s, .number (Float.ofNat k)] = .ok (fieldValue w) := by
      rw [strat_apply hx, if_neg (by omega), Int.toNat_natCast, fields, hk]
    -- The field is not out of range, so there is a word of its number, and both read the same.
    have hinside : k < (words s.toList).length := by
      by_contra hk'
      rw [h.outside _ k hx (.inr (by omega))] at hvalue
      cases hvalue
    obtain ⟨v, hv, hread⟩ := h.inside _ k _ hx (by omega) (List.getElem?_eq_getElem hinside)
    rw [hvalue] at hv
    cases hv
    exact (standsFor_fieldValue w).solid hread (mem_words_solid (List.getElem_mem hinside))

/-- A number between single spaces. -/
theorem strat_finds_words_signed :
    ∃ v, strat.apply 0 [.string "\tx -2.5 y\n", .number 1] = .ok v ∧ StandsFor "-2.5".toList v := by
  have hspaced : EvenlySpaced "\tx -2.5 y\n".toList :=
    ⟨['\t'], ["x".toList, "-2.5".toList, "y".toList], ['\n'], rfl, by decide, by decide,
      by decide, by decide⟩
  exact ((strat_finds_words 0 "\tx -2.5 y\n").1 hspaced).inside 1 1 _
    (whole_ofNat (n := 1) (by norm_num)) (by decide) (by decide)

/-- Between two spaces there is a field that is no word, and it takes the number of the next one. -/
theorem not_findsWords_twoSpaces :
    strat.apply 0 [.string "a  b", .number 1] = .ok (.string "") ∧
      (words "a  b".toList)[1]? = some "b".toList ∧ ¬ FindsWords 0 "a  b" := by
  have hvalue : strat.apply 0 [.string "a  b", .number 1] = .ok (.string "") := by decide +kernel
  have hword : (words "a  b".toList)[1]? = some "b".toList := by decide
  refine ⟨hvalue, hword, fun h => ?_⟩
  obtain ⟨v, hv, hread⟩ := h.inside 1 1 _ (whole_ofNat (n := 1) (by norm_num)) (by decide) hword
  rw [hvalue] at hv
  cases hv
  have htext : fieldValue "b".toList = .string "b" := by decide +kernel
  have heq := hread.eq_fieldValue.trans htext
  exact absurd heq (by decide)

end Native

end LoxLang
