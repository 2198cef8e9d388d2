import LoxLang.Proofs.Decimal.Texts
import LoxLang.Proofs.Decimal.Whole
/-!
# Numbers as literals and as they are shown

A number is written as a literal just as it is shown, with two exceptions: the sign of negative zero
is shown only, and whole numbers of more than sixteen digits have all of these as literals only. The
texts do differ then, because what is not written as a whole number has a point or an exponent.
-/

namespace LoxLang

/-! ## Texts of whole numbers and of others -/

/-- A text that has a point or an exponent. -/
def Pointed (cs : List Char) : Prop := '.' ∈ cs ∨ 'e' ∈ cs

theorem Layout.pointed_plain (ds : List Char) (e : ℤ) : '.' ∈ Layout.plain ds e := by
  unfold Layout.plain
  split <;> simp

theorem Layout.pointed_text (l : Layout) (d : Decimal) : Pointed (l.text d) := by
  unfold Layout.text
  split
  · exact .inl (by simp)
  · dsimp only
    split
    · exact .inl (Layout.pointed_plain _ _)
    · exact .inr (by simp [Layout.scientific])

/-- The text of a finite double has a point or an exponent. -/
theorem pointed_floatText {x : Float} {e : Exact} (h : Exact.ofFloat? x = some e) :
    Pointed (floatText x).toList := by
  rw [floatText, h]
  dsimp only
  rw [String.toList_ofList]
  have hmagnitude := numberLayout.pointed_text (Decimal.shortest e (if e.negative then -x else x))
  generalize numberLayout.text _ = cs at hmagnitude ⊢
  split
  · exact hmagnitude.imp (List.mem_cons_of_mem _) (List.mem_cons_of_mem _)
  · exact hmagnitude

/-- The text of a whole number has neither. -/
theorem not_pointed_intText (n : ℤ) : ¬ Pointed (intText n).toList := by
  have hdigits : ∀ c ∈ (intText n).toList, c.isDigit ∨ c = '-' := by
    intro c hc
    rw [intText, String.toList_ofList] at hc
    split at hc
    · rcases List.mem_cons.1 hc with rfl | hc
      · exact .inr rfl
      · exact .inl (AllDigits.toDigits _ c hc)
    · exact .inl (AllDigits.toDigits _ c hc)
  rintro (h | h)
  · rcases hdigits _ h with h | h <;> revert h <;> decide
  · rcases hdigits _ h with h | h <;> revert h <;> decide

theorem intText_ne_floatText {x : Float} {e : Exact} (h : Exact.ofFloat? x = some e) (n : ℤ) :
    intText n ≠ floatText x := by
  intro heq
  exact not_pointed_intText n (heq ▸ pointed_floatText h)

/-! ## Whole numbers among the doubles -/

namespace Exact

variable {x : Exact}

theorem natAbs_truncate (x : Exact) : x.truncate.natAbs = x.wholePart := by
  rw [truncate]
  split <;> simp

/-- A number without a fraction is what is left of it. -/
theorem value_eq_truncate (h : x.isWhole) : x.value = x.truncate := by
  have hdvd : x.denominator ∣ x.numerator := Nat.dvd_of_mod_eq_zero (eq_of_beq h)
  have hden : (x.denominator : ℚ) ≠ 0 := by simp [denominator]
  have hquotient : (x.numerator / x.denominator : ℚ) = x.wholePart := (Nat.cast_div hdvd hden).symm
  rw [value, magnitude_eq, hquotient, truncate]
  split <;> simp

/-- A number that is whole has no fraction. -/
theorem isWhole_of_value_eq {n : ℤ} (h : x.value = n) : x.isWhole := by
  have hden : (x.denominator : ℚ) ≠ 0 := by simp [denominator]
  have hpos : (0 : ℚ) ≤ x.mantissa * 2 ^ x.exponent := by positivity
  have hmagnitude : (x.mantissa * 2 ^ x.exponent : ℚ) = n.natAbs := by
    rw [Nat.cast_natAbs, Int.cast_abs, ← h, value, abs_mul, abs_of_nonneg hpos]
    split <;> simp
  rw [magnitude_eq, div_eq_iff hden] at hmagnitude
  have hnumerator : x.numerator = n.natAbs * x.denominator := by exact_mod_cast hmagnitude
  rw [isWhole, hnumerator, Nat.mul_mod_left]
  rfl

end Exact

/-- Which whole number a double is, if it is one. -/
theorem whole_iff {x : Float} {e : Exact} (h : Exact.ofFloat? x = some e) {n : ℤ} :
    Whole x n ↔ e.isWhole ∧ e.truncate = n := by
  constructor
  · rintro ⟨e', he', hn⟩
    obtain rfl : e = e' := Option.some.inj (h.symm.trans he')
    have hwhole := Exact.isWhole_of_value_eq hn
    exact ⟨hwhole, by exact_mod_cast (Exact.value_eq_truncate hwhole).symm.trans hn⟩
  · rintro ⟨hwhole, rfl⟩
    exact ⟨e, h, Exact.value_eq_truncate hwhole⟩

/-! ## Zeros -/

theorem ofFloat?_neg_zero : Exact.ofFloat? (-0) = some ⟨true, 0, 0⟩ := by decide +kernel

/-- A double without digits is one of the zeros. -/
theorem zero_cases {x : Float} {e : Exact} (h : Exact.ofFloat? x = some e) (hm : e.mantissa = 0) :
    e = ⟨false, 0, 0⟩ ∨ x = -0 ∧ e = ⟨true, 0, 0⟩ := by
  rw [Exact.ofFloat?] at h
  split at h
  · cases h
  · cases h
  · next s hs =>
    cases h
    cases s with
    | positive => exact .inl rfl
    | negative =>
      refine .inr ⟨?_, rfl⟩
      rw [← pack_unpack_toModel x, hs]
      decide +kernel
  · next hpos _ =>
    cases h
    exact absurd hm hpos.ne'

/-! ## The two texts -/

namespace Value

variable {x : Float} {e : Exact}

/-- Zero as a literal has no sign. -/
theorem numberLiteral_zero {negative : Bool} (h : Exact.ofFloat? x = some ⟨negative, 0, 0⟩) :
    numberLiteral x = "0" := by
  rw [numberLiteral, h]
  cases negative <;> rfl

/-- Zero is shown with its sign. -/
theorem numberShown_zero {negative : Bool} (h : Exact.ofFloat? x = some ⟨negative, 0, 0⟩) :
    numberShown x = if negative then "-0" else "0" := by
  rw [numberShown, h]
  rfl

theorem numberShown_eq (h : Exact.ofFloat? x = some e) (hm : e.mantissa ≠ 0) :
    numberShown x =
      if e.isWhole ∧ e.wholePart < 10 ^ 16 then intText e.truncate else floatText x := by
  rw [numberShown, h]
  dsimp only
  rw [if_neg hm]
  simp [Nat.pow_eq]

theorem numberLiteral_eq (h : Exact.ofFloat? x = some e) :
    numberLiteral x = if e.isWhole then intText e.truncate else floatText x := by
  rw [numberLiteral, h]

/-- Two texts of a number other than zero differ only if it is whole and has more than sixteen
digits. -/
theorem numberLiteral_eq_shown_iff (h : Exact.ofFloat? x = some e) (hm : e.mantissa ≠ 0) :
    numberLiteral x = numberShown x ↔ (e.isWhole → e.wholePart < 10 ^ 16) := by
  rw [numberLiteral_eq h, numberShown_eq h hm]
  by_cases hwhole : e.isWhole
  · by_cases hsmall : e.wholePart < 10 ^ 16
    · rw [if_pos hwhole, if_pos ⟨hwhole, hsmall⟩]
      exact iff_of_true rfl fun _ => hsmall
    · rw [if_pos hwhole, if_neg fun hboth => hsmall hboth.2]
      exact iff_of_false (intText_ne_floatText h _) fun himp => hsmall (himp hwhole)
  · rw [if_neg hwhole, if_neg fun hboth => hwhole hboth.1]
    exact iff_of_true rfl fun hw => absurd hw hwhole

/-- How large a double is if it is a whole number. -/
theorem whole_lt_iff (h : Exact.ofFloat? x = some e) (limit : ℕ) :
    (∀ n : ℤ, Whole x n → |n| < limit) ↔ (e.isWhole → e.wholePart < limit) := by
  have hsize : |e.truncate| = e.wholePart := by rw [Int.abs_eq_natAbs, Exact.natAbs_truncate]
  constructor
  · intro hall hwhole
    have := hall e.truncate ((whole_iff h).2 ⟨hwhole, rfl⟩)
    rw [hsize] at this
    exact_mod_cast this
  · intro hsmall n hn
    obtain ⟨hwhole, rfl⟩ := (whole_iff h).1 hn
    rw [hsize]
    exact_mod_cast hsmall hwhole

/-- A number is written as a literal as it is shown if and only if it is not negative zero and, if
it is a whole number, has at most sixteen digits. Infinities and NaN are written alike. -/
theorem literalText_eq_shown_iff (x : Float) :
    (number x).literalText = (number x).shown ↔
      x ≠ -0 ∧ ∀ n : ℤ, Whole x n → |n| < 10 ^ 16 := by
  change numberLiteral x = numberShown x ↔ _
  cases h : Exact.ofFloat? x with
  | none =>
    have hnone : ∀ n, ¬ Whole x n := by
      rintro n ⟨e, he, -⟩
      rw [h] at he
      cases he
    have hzero : x ≠ -0 := by
      rintro rfl
      rw [ofFloat?_neg_zero] at h
      cases h
    simp [numberLiteral, numberShown, h, hnone, hzero]
  | some e =>
    have hlarge : (∀ n : ℤ, Whole x n → |n| < 10 ^ 16) ↔ (e.isWhole → e.wholePart < 10 ^ 16) := by
      exact_mod_cast whole_lt_iff h (10 ^ 16)
    rw [hlarge]
    have hneg : x = -0 → e = ⟨true, 0, 0⟩ := by
      rintro rfl
      rw [ofFloat?_neg_zero] at h
      exact (Option.some.inj h).symm
    by_cases hm : e.mantissa = 0
    · obtain rfl | ⟨rfl, rfl⟩ := zero_cases h hm
      · rw [numberLiteral_zero h, numberShown_zero h]
        exact iff_of_true rfl ⟨fun hx => absurd (hneg hx) (by decide), fun _ => by decide⟩
      · rw [numberLiteral_zero h, numberShown_zero h]
        exact iff_of_false (by decide) fun hboth => hboth.1 rfl
    · rw [numberLiteral_eq_shown_iff h hm, iff_and_self]
      rintro - hx
      rw [hneg hx] at hm
      exact hm rfl

theorem tenToSixteen_differs :
    (number 1e16).literalText = "10000000000000000" ∧ (number 1e16).shown = "1e+16" ∧
      (number 1e16).literalText ≠ (number 1e16).shown := by
  decide +kernel

end Value

end LoxLang
