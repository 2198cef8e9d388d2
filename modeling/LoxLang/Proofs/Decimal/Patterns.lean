import LoxLang.Proofs.Decimal.Texts
/-!
# The pattern of numerals

A numeral is written as digits, with digits behind a point or without, and with an exponent or
without. What is taken off the front of a text fits that pattern, and whatever else fits is shorter.
-/

namespace LoxLang

/-- An exponent that may be there, and its value. -/
inductive ExponentText : List Char → ℤ → Prop
  | none : ExponentText [] 0
  | unsigned {mark digits ds} : mark = 'e' ∨ mark = 'E' → digits ≠ [] → Digits digits ds →
      ExponentText (mark :: digits) (digitsValue ds)
  | plus {mark digits ds} : mark = 'e' ∨ mark = 'E' → digits ≠ [] → Digits digits ds →
      ExponentText (mark :: '+' :: digits) (digitsValue ds)
  | minus {mark digits ds} : mark = 'e' ∨ mark = 'E' → digits ≠ [] → Digits digits ds →
      ExponentText (mark :: '-' :: digits) (-(digitsValue ds))

/-- A numeral and its value. -/
inductive NumeralText : List Char → Decimal → Prop
  | mk {whole fraction exponent ws fs e} : whole ≠ [] → Digits whole ws → Digits fraction fs →
      ExponentText exponent e →
      NumeralText (whole ++ pointed fraction ++ exponent) (Decimal.ofDigits ws fs e)

/-! ## Digits -/

/-- At least as many digits are taken as there are. -/
theorem takeDigits_atMost {cs : List Char} {ds : List ℕ} (h : Digits cs ds) (rest : List Char) :
    takeDigits (cs ++ rest) = (ds, rest) ∨ (takeDigits (cs ++ rest)).2.length < rest.length := by
  induction h with
  | nil =>
    cases rest with
    | nil => exact .inl rfl
    | cons c rest =>
      rw [List.nil_append, takeDigits]
      cases digitValue? c with
      | none => exact .inl rfl
      | some d =>
        have hlength := length_takeDigits rest
        refine .inr ?_
        dsimp only
        rw [List.length_cons]
        omega
  | cons hc _ ih =>
    rw [List.cons_append, takeDigits, hc]
    refine ih.imp (fun h => ?_) id
    rw [h]

theorem takeDigits_ne_nil {cs : List Char} {ds : List ℕ} (h : Digits cs ds) (hne : cs ≠ [])
    (rest : List Char) : (takeDigits (cs ++ rest)).1 ≠ [] := by
  cases h with
  | nil => exact absurd rfl hne
  | cons hc =>
    rw [List.cons_append, takeDigits, hc]
    exact List.cons_ne_nil _ _

/-! ## Exponents -/

/-- A sign that may be there, and the rest. -/
def takeSign : List Char → Bool × List Char
  | '-' :: rest => (true, rest)
  | '+' :: rest => (false, rest)
  | rest => (false, rest)

theorem takeExponent_cons {mark : Char} (h : mark = 'e' ∨ mark = 'E') (after : List Char) :
    takeExponent (mark :: after) =
      match takeDigits (takeSign after).2 with
      | ([], _) => (0, mark :: after)
      | (ds, rest) =>
        (if (takeSign after).1 then -(digitsValue ds : ℤ) else digitsValue ds, rest) := by
  unfold takeExponent
  dsimp only
  rw [if_pos h]
  rfl

/-- What is taken as an exponent is one. -/
theorem takeExponent_sound (cs : List Char) :
    ∃ exponent, cs = exponent ++ (takeExponent cs).2 ∧ ExponentText exponent (takeExponent cs).1 := by
  cases cs with
  | nil => exact ⟨[], rfl, .none⟩
  | cons mark after =>
    by_cases hmark : mark = 'e' ∨ mark = 'E'
    · rw [takeExponent_cons hmark]
      cases htaken : takeDigits (takeSign after).2 with
      | mk ds rest =>
        cases ds with
        | nil => exact ⟨[], rfl, .none⟩
        | cons d ds =>
          obtain ⟨digits, hdigits, hds, -⟩ := takeDigits_eq htaken
          have hne : digits ≠ [] := by
            rintro rfl
            cases hds
          dsimp only
          unfold takeSign at hdigits ⊢
          split at hdigits
          · dsimp only at hdigits
            subst hdigits
            exact ⟨mark :: '-' :: digits, rfl, .minus hmark hne hds⟩
          · dsimp only at hdigits
            subst hdigits
            exact ⟨mark :: '+' :: digits, rfl, .plus hmark hne hds⟩
          · dsimp only at hdigits
            subst hdigits
            exact ⟨mark :: digits, rfl, .unsigned hmark hne hds⟩
    · refine ⟨[], ?_, ?_⟩ <;> unfold takeExponent <;> dsimp only <;> rw [if_neg hmark]
      · rfl
      · exact .none

/-- At least as many digits are taken behind a sign as there are. -/
theorem takeExponent_digits {mark : Char} (hmark : mark = 'e' ∨ mark = 'E') (negative : Bool)
    {after digits rest : List Char} {ds : List ℕ} (hsign : takeSign after = (negative, digits ++ rest))
    (hne : digits ≠ []) (h : Digits digits ds) :
    takeExponent (mark :: after) =
        (if negative then -(digitsValue ds : ℤ) else digitsValue ds, rest) ∨
      (takeExponent (mark :: after)).2.length < rest.length := by
  rw [takeExponent_cons hmark, hsign]
  have hsome := takeDigits_ne_nil h hne rest
  have hmost := takeDigits_atMost h rest
  dsimp only at hsome hmost ⊢
  generalize takeDigits (digits ++ rest) = taken at hsome hmost ⊢
  obtain ⟨_ | ⟨d, ds'⟩, rest'⟩ := taken
  · exact absurd rfl hsome
  · refine hmost.imp (fun heq => ?_) id
    cases heq
    rfl

/-- At least as much is taken as an exponent as there is of one. -/
theorem takeExponent_atMost {exponent rest : List Char} {e : ℤ} (h : ExponentText exponent e) :
    takeExponent (exponent ++ rest) = (e, rest) ∨
      (takeExponent (exponent ++ rest)).2.length < rest.length := by
  cases h with
  | none =>
    obtain ⟨exponent, hrest, hexponent⟩ := takeExponent_sound rest
    rw [List.nil_append]
    generalize takeExponent rest = taken at hrest hexponent ⊢
    obtain ⟨e, rest'⟩ := taken
    subst hrest
    cases hexponent with
    | none => exact .inl rfl
    | unsigned | plus | minus =>
      refine .inr ?_
      simp only [List.length_append, List.length_cons]
      omega
  | @unsigned mark digits ds hmark hne hdigits =>
    refine takeExponent_digits hmark false ?_ hne hdigits
    cases hdigits with
    | nil => exact absurd rfl hne
    | @cons c _ _ _ hc =>
      -- A digit is no sign.
      have hminus : c ≠ '-' := by
        rintro rfl
        cases hc
      have hplus : c ≠ '+' := by
        rintro rfl
        cases hc
      rw [List.cons_append]
      simp [takeSign, hminus, hplus]
  | plus hmark hne hdigits => exact takeExponent_digits hmark false rfl hne hdigits
  | minus hmark hne hdigits => exact takeExponent_digits hmark true rfl hne hdigits

/-- An exponent starts with its mark. -/
theorem ExponentText.head {exponent : List Char} {e : ℤ} (h : ExponentText exponent e)
    (hne : exponent ≠ []) (rest : List Char) :
    ∀ c ∈ (exponent ++ rest).head?, digitValue? c = Option.none ∧ c ≠ '.' := by
  cases h with
  | none => exact absurd rfl hne
  | unsigned hmark | plus hmark | minus hmark =>
    intro c hc
    cases hc
    rcases hmark with rfl | rfl <;> decide

/-! ## Numerals -/

/-- Behind the digits there may be a point with more digits. -/
theorem takePlain?_of_digits {cs rest : List Char} {d : ℕ} {ds : List ℕ}
    (h : takeDigits cs = (d :: ds, rest)) :
    ∃ fs rest', takePlain? cs = some (d :: ds, fs, rest') ∧
      (fs = [] ∧ rest' = rest ∨ rest'.length < rest.length) := by
  unfold takePlain?
  rw [h]
  split
  · next heq => cases heq
  · next rest' _ heq =>
    cases heq
    cases hmore : takeDigits rest' with
    | mk fs rest'' =>
      cases fs with
      | nil => exact ⟨[], _, rfl, .inl ⟨rfl, rfl⟩⟩
      | cons f fs =>
        have hlength := length_takeDigits rest'
        rw [hmore] at hlength
        refine ⟨f :: fs, rest'', rfl, .inr ?_⟩
        simp only [List.length_cons] at hlength ⊢
        omega
  · next heq =>
    cases heq
    exact ⟨[], rest, rfl, .inl ⟨rfl, rfl⟩⟩

/-- At least as much is taken as a numeral without an exponent as there is of one. -/
theorem takePlain?_atMost {whole fraction : List Char} {ws fs : List ℕ} (hne : whole ≠ [])
    (hwhole : Digits whole ws) (hfraction : Digits fraction fs) (rest : List Char) :
    ∃ ws' fs' rest', takePlain? (whole ++ pointed fraction ++ rest) = some (ws', fs', rest') ∧
      (ws' = ws ∧ fs' = fs ∧ rest' = rest ∨ rest'.length < rest.length) := by
  by_cases hf : fraction = []
  · subst hf
    cases hfraction
    rw [pointed, if_pos rfl, List.append_nil]
    have hsome := takeDigits_ne_nil hwhole hne rest
    have hmost := takeDigits_atMost hwhole rest
    cases htaken : takeDigits (whole ++ rest) with
    | mk ds rest₁ =>
      rw [htaken] at hsome hmost
      cases ds with
      | nil => exact absurd rfl hsome
      | cons d ds =>
        obtain ⟨fs', rest', hplain, hcases⟩ := takePlain?_of_digits htaken
        refine ⟨_, fs', rest', hplain, ?_⟩
        rcases hmost with heq | hlt
        · cases heq
          exact hcases.imp (fun h => ⟨rfl, h⟩) id
        · refine .inr ?_
          rcases hcases with ⟨-, rfl⟩ | hlt'
          · exact hlt
          · exact hlt'.trans hlt
  · have hpoint : ∀ c ∈ ('.' :: (fraction ++ rest)).head?, digitValue? c = none := by
      rintro c hc
      cases hc
      decide
    obtain ⟨d, ds, rfl⟩ := hwhole.ne_nil hne
    have hsome := takeDigits_ne_nil hfraction hf rest
    have hmost := takeDigits_atMost hfraction rest
    rw [pointed, if_neg hf, List.append_assoc, List.cons_append, takePlain?,
      takeDigits_append hwhole hpoint]
    cases htaken : takeDigits (fraction ++ rest) with
    | mk fs' rest' =>
      rw [htaken] at hsome hmost
      cases fs' with
      | nil => exact absurd rfl hsome
      | cons f fs' =>
        simp only [htaken]
        refine ⟨_, _, _, rfl, hmost.imp (fun heq => ?_) id⟩
        cases heq
        exact ⟨rfl, rfl, rfl⟩

theorem takeNumeral?_of_plain {cs rest : List Char} {ws fs : List ℕ}
    (h : takePlain? cs = some (ws, fs, rest)) :
    takeNumeral? cs =
      some (Decimal.ofDigits ws fs (takeExponent rest).1, (takeExponent rest).2) := by
  rw [takeNumeral?, h]
  rfl

/-- What is taken as a numeral is one. -/
theorem takeNumeral?_sound {cs rest : List Char} {value : Decimal}
    (h : takeNumeral? cs = some (value, rest)) :
    ∃ text, cs = text ++ rest ∧ NumeralText text value := by
  obtain ⟨⟨ws, fs, rest₁⟩, hplain, -⟩ := Option.bind_eq_some_iff.1 h
  rw [takeNumeral?_of_plain hplain, Option.some.injEq, Prod.mk.injEq] at h
  obtain ⟨rfl, rfl⟩ := h
  obtain ⟨whole, fraction, rfl, hne, hwhole, hfraction⟩ := takePlain?_eq_some hplain
  obtain ⟨exponent, hrest, hexponent⟩ := takeExponent_sound rest₁
  refine ⟨_, ?_, .mk hne hwhole hfraction hexponent⟩
  rw [List.append_assoc _ exponent, ← hrest]

/-- At least as much is taken as a numeral as there is of one. -/
theorem takeNumeral?_atMost {text : List Char} {value : Decimal} (h : NumeralText text value)
    (rest : List Char) :
    ∃ value' rest', takeNumeral? (text ++ rest) = some (value', rest') ∧
      (value' = value ∧ rest' = rest ∨ rest'.length < rest.length) := by
  obtain @⟨whole, fraction, exponent, ws, fs, e, hne, hwhole, hfraction, hexponent⟩ := h
  obtain ⟨ws', fs', rest₁, hplain, hcases⟩ :=
    takePlain?_atMost hne hwhole hfraction (exponent ++ rest)
  rw [List.append_assoc _ exponent]
  refine ⟨_, _, takeNumeral?_of_plain hplain, ?_⟩
  rcases hcases with ⟨rfl, rfl, rfl⟩ | hlt
  · exact (takeExponent_atMost hexponent).imp (fun heq => by rw [heq]; exact ⟨rfl, rfl⟩) id
  · -- Only more digits or a point go further, and no exponent starts with these.
    have hnone : exponent = [] := by
      by_contra hsome
      rw [takePlain?_append hne hwhole hfraction (hexponent.head hsome rest), Option.some.injEq,
        Prod.mk.injEq, Prod.mk.injEq] at hplain
      rw [← hplain.2.2] at hlt
      exact lt_irrefl _ hlt
    subst hnone
    obtain ⟨exponent', hrest, -⟩ := takeExponent_sound rest₁
    have hlength := congrArg List.length hrest
    rw [List.length_append] at hlength
    rw [List.nil_append] at hlt
    exact .inr (by omega)

/-- A numeral starts with a digit. -/
theorem NumeralText.head {text : List Char} {value : Decimal} (h : NumeralText text value) :
    ∃ c cs, text = c :: cs ∧ (digitValue? c).isSome := by
  obtain @⟨whole, fraction, exponent, ws, fs, e, hne, hwhole, -, -⟩ := h
  cases hwhole with
  | nil => exact absurd rfl hne
  | cons hc => exact ⟨_, _, rfl, by rw [hc]; rfl⟩

end LoxLang
