import Mathlib.Algebra.Order.Field.Power
import Mathlib.Data.Int.Log
import Mathlib.Data.Rat.Floor
import Mathlib.Tactic.FieldSimp
import Mathlib.Tactic.GCongr
import Mathlib.Tactic.Linarith
import Mathlib.Tactic.NormNum
import Mathlib.Tactic.Positivity
import Mathlib.Tactic.Ring
/-!
# Rounding

A positive number is rounded to a double by its value alone: however it is given, as an integer times
a power of two or as a quotient, the mantissa that is rounded and its exponent are the same.
-/

namespace LoxLang

open Float.Model Float.Model.UnpackedFloat

/-- What the two bits behind a mantissa say of the number that it was cut off from. -/
def Represents (x : ℚ) : ExtendedMantissa → Prop
  | ⟨m, false, false⟩ => x = m
  | ⟨m, false, true⟩ => (m : ℚ) < x ∧ x < m + 1 / 2
  | ⟨m, true, false⟩ => x = m + 1 / 2
  | ⟨m, true, true⟩ => (m : ℚ) + 1 / 2 < x ∧ x < m + 1

namespace Represents

variable {x : ℚ} {em em' : ExtendedMantissa}

theorem bounds (h : Represents x em) : (em.mantissa : ℚ) ≤ x ∧ x < em.mantissa + 1 := by
  obtain ⟨m, r, s⟩ := em
  cases r <;> cases s <;> simp only [Represents] at h <;> constructor <;> linarith

/-- A number has one mantissa and one pair of bits only. -/
theorem unique (h : Represents x em) (h' : Represents x em') : em = em' := by
  obtain ⟨hlo, hhi⟩ := h.bounds
  obtain ⟨hlo', hhi'⟩ := h'.bounds
  have hm : em.mantissa = em'.mantissa := by
    have h₁ : (em.mantissa : ℚ) < em'.mantissa + 1 := lt_of_le_of_lt hlo hhi'
    have h₂ : (em'.mantissa : ℚ) < em.mantissa + 1 := lt_of_le_of_lt hlo' hhi
    norm_cast at h₁ h₂
    omega
  obtain ⟨m, r, s⟩ := em
  obtain ⟨m', r', s'⟩ := em'
  obtain rfl : m = m' := hm
  cases r <;> cases s <;> cases r' <;> cases s' <;> simp only [Represents] at h h' <;>
    first | rfl | (exfalso; linarith)

theorem ofExact (m : ℕ) : Represents m (.ofMantissaAndAccuracy m .exact) := rfl

/-- A bit that is cut off is not forgotten. -/
theorem shiftRightOne (h : Represents x em) : Represents (x / 2) em.shiftRightOne := by
  obtain ⟨m, r, s⟩ := em
  have hdiv : ((m % 2 : ℕ) : ℚ) + 2 * ((m / 2 : ℕ) : ℚ) = m := by
    exact_mod_cast Nat.mod_add_div m 2
  rcases Nat.mod_two_eq_zero_or_one m with hm | hm <;> rw [hm] at hdiv <;> push_cast at hdiv <;>
    cases r <;> cases s <;> simp only [Represents] at h <;>
    simp [Represents, ExtendedMantissa.shiftRightOne, hm] <;> (try constructor) <;> linarith

theorem shiftRight (h : Represents x em) (n : ℕ) : Represents (x / 2 ^ n) (em >>> n) := by
  change Represents _ (n.repeat ExtendedMantissa.shiftRightOne em)
  induction n with
  | zero => simpa [Nat.repeat] using h
  | succ n ih =>
    rw [pow_succ, ← div_div]
    exact ih.shiftRightOne

/-- The quotient of two whole numbers, cut off. -/
theorem ofQuotient (num : ℕ) {den : ℕ} (hd : 0 < den) :
    Represents ((num : ℚ) / den)
      (.ofMantissaAndAccuracy (num / den) (accuracyOfFraction (num % den) den)) := by
  have hden : (0 : ℚ) < den := by exact_mod_cast hd
  have hlt : ((num % den : ℕ) : ℚ) < den := by exact_mod_cast Nat.mod_lt num hd
  have hsplit : (num : ℚ) / den = (num / den : ℕ) + ((num % den : ℕ) : ℚ) / den := by
    rw [eq_comm, add_div' _ _ _ hden.ne', div_left_inj' hden.ne']
    exact_mod_cast Nat.div_add_mod' num den
  rw [hsplit]
  generalize num / den = q at *
  generalize num % den = r at *
  unfold accuracyOfFraction
  split
  · next h => simp [h, ExtendedMantissa.ofMantissaAndAccuracy, Represents]
  · next h =>
    have hpos : (0 : ℚ) < r := by exact_mod_cast Nat.pos_of_ne_zero h
    have hfraction : (0 : ℚ) < r / den ∧ (r : ℚ) / den < 1 :=
      ⟨div_pos hpos hden, (div_lt_one hden).2 hlt⟩
    cases hc : compare (2 * r) den with
    | lt =>
      have hhalf : (r : ℚ) / den < 1 / 2 := by
        rw [div_lt_div_iff₀ hden two_pos]
        exact_mod_cast (by have := Nat.compare_eq_lt.1 hc; omega)
      exact ⟨by linarith, by linarith⟩
    | eq =>
      have hhalf : (r : ℚ) / den = 1 / 2 := by
        rw [div_eq_div_iff hden.ne' two_ne_zero]
        exact_mod_cast (by have := Nat.compare_eq_eq.1 hc; omega)
      change _ = _
      rw [hhalf]
    | gt =>
      have hhalf : 1 / 2 < (r : ℚ) / den := by
        rw [div_lt_div_iff₀ two_pos hden]
        exact_mod_cast (by have := Nat.compare_eq_gt.1 hc; omega)
      exact ⟨by linarith, by linarith⟩

end Represents

/-! ## The exponent -/

/-- The exponent of the last bit that a double of about this size has. -/
def grain (v : ℚ) : ℤ := max (Int.log 2 v - 52) (-1074)

theorem targetExponent_eq (m : ℕ) (e : ℤ) :
    Format.binary64.targetExponent (totalExponent m e) = max (m.log2 + e - 52) (-1074) := by
  have hmin : Format.binary64.minExponent = -1074 := rfl
  have hbits : (Format.binary64.mantissaBits : ℤ) = 53 := rfl
  rw [Format.targetExponent, totalExponent, hmin, hbits]
  congr 1
  ring

/-- A number lies between two powers of two as its mantissa does. -/
theorem log_of_bounds {v : ℚ} {m : ℕ} {e : ℤ} (hm : m ≠ 0) (hlo : (m : ℚ) ≤ v / 2 ^ e)
    (hhi : v / 2 ^ e < m + 1) : Int.log 2 v = m.log2 + e := by
  have hpow : (0 : ℚ) < 2 ^ e := zpow_pos two_pos e
  have hpos : 0 < v := by
    have hmpos : (0 : ℚ) < m := by exact_mod_cast Nat.pos_of_ne_zero hm
    exact (div_pos_iff_of_pos_right hpow).1 (lt_of_lt_of_le hmpos hlo)
  have hle : (m.log2 : ℤ) + e ≤ Int.log 2 v := by
    rw [← Int.zpow_le_iff_le_log one_lt_two hpos, Nat.cast_ofNat, zpow_add₀ two_ne_zero,
      ← le_div_iff₀ hpow]
    refine le_trans ?_ hlo
    exact_mod_cast Nat.log2_self_le hm
  have hlt : Int.log 2 v < m.log2 + 1 + e := by
    rw [← Int.lt_zpow_iff_log_lt one_lt_two hpos, Nat.cast_ofNat, zpow_add₀ two_ne_zero,
      ← div_lt_iff₀ hpow]
    refine lt_of_lt_of_le hhi ?_
    exact_mod_cast Nat.lt_log2_self
  omega

/-- A mantissa that is fine enough is cut off where the size of the number says. -/
theorem shiftToTargetExponent_eq {v : ℚ} (hv : 0 < v) {m : ℕ} {e : ℤ} {acc : Accuracy}
    (h : Represents (v / 2 ^ e) (.ofMantissaAndAccuracy m acc)) (he : e ≤ grain v) :
    ∃ em, Represents (v / 2 ^ grain v) em ∧
      shiftToTargetExponent Format.binary64 m e acc = (em, grain v) := by
  have hpow : (0 : ℚ) < 2 ^ e := zpow_pos two_pos e
  have hm : (ExtendedMantissa.ofMantissaAndAccuracy m acc).mantissa = m := by
    rcases acc with _ | (_ | _ | _) <;> rfl
  obtain ⟨hlo, hhi⟩ := h.bounds
  rw [hm] at hlo hhi
  -- Cutting off stops at the grain: it is never finer than the size of the number asks for.
  have hgrain : max e (max (m.log2 + e - 52) (-1074)) = grain v := by
    unfold grain at he ⊢
    by_cases hz : m = 0
    · have hlog : Int.log 2 v < e := by
        rw [← Int.lt_zpow_iff_log_lt one_lt_two hv, Nat.cast_ofNat]
        rw [hz, Nat.cast_zero, zero_add, div_lt_one hpow] at hhi
        exact hhi
      have hzero : (m.log2 : ℤ) = 0 := by rw [hz]; rfl
      omega
    · have hlog := log_of_bounds hz hlo hhi
      omega
  have hamount : e + ((max (m.log2 + e - 52) (-1074) - e).toNat : ℤ) = grain v := by omega
  refine ⟨_, ?_, Prod.ext rfl ?_⟩
  · rw [shiftToTargetExponent, targetExponent_eq]
    have hrep := h.shiftRight (max (m.log2 + e - 52) (-1074) - e).toNat
    rw [div_div, ← zpow_natCast, ← zpow_add₀ two_ne_zero, hamount] at hrep
    exact hrep
  · rw [shiftToTargetExponent, targetExponent_eq]
    exact hamount

/-- A positive number is rounded to a double, given as a mantissa that is fine enough and what was
cut off from it. -/
inductive RoundsTo (v : ℚ) : UnpackedFloat → Prop
  | intro {m : ℕ} {e : ℤ} {acc : Accuracy} :
      Represents (v / 2 ^ e) (.ofMantissaAndAccuracy m acc) → e ≤ grain v →
      RoundsTo v (roundWithAccuracy Format.binary64 .positive m e acc)

/-- However a number is given, it is rounded to the same double. -/
theorem RoundsTo.unique {v : ℚ} (hv : 0 < v) {u u' : UnpackedFloat} (h : RoundsTo v u)
    (h' : RoundsTo v u') : u = u' := by
  obtain ⟨hrep, he⟩ := h
  obtain ⟨hrep', he'⟩ := h'
  obtain ⟨em, hem, heq⟩ := shiftToTargetExponent_eq hv hrep he
  obtain ⟨em', hem', heq'⟩ := shiftToTargetExponent_eq hv hrep' he'
  obtain rfl := hem.unique hem'
  rw [roundWithAccuracy, roundWithAccuracy, heq, heq']

/-! ## Products and quotients -/

namespace RoundsTo

variable {m₁ m₂ : ℕ} {e₁ e₂ : ℤ}

theorem mul (h₁ : 0 < m₁) (h₂ : 0 < m₂)
    (he : e₁ + e₂ ≤ grain (m₁ * 2 ^ e₁ * (m₂ * 2 ^ e₂))) :
    RoundsTo (m₁ * 2 ^ e₁ * (m₂ * 2 ^ e₂))
      (mul Format.binary64 (.finite .positive m₁ e₁ h₁) (.finite .positive m₂ e₂ h₂)) := by
  refine RoundsTo.intro ?_ he
  have hvalue : (m₁ * 2 ^ e₁ * (m₂ * 2 ^ e₂) : ℚ) / 2 ^ (e₁ + e₂) = (m₁ * m₂ : ℕ) := by
    rw [zpow_add₀ two_ne_zero]
    push_cast
    field_simp
  rw [hvalue]
  exact .ofExact _

/-- A quotient of two mantissas is at least this large. -/
theorem le_log_div (h₁ : 0 < m₁) (h₂ : 0 < m₂) (e₁ e₂ : ℤ) :
    (m₁.log2 : ℤ) + e₁ - (m₂.log2 + 1 + e₂) ≤ Int.log 2 (m₁ * 2 ^ e₁ / (m₂ * 2 ^ e₂) : ℚ) := by
  have hpow : ∀ e : ℤ, (0 : ℚ) < 2 ^ e := fun e => zpow_pos two_pos e
  have hm₁ : (0 : ℚ) < m₁ := by exact_mod_cast h₁
  have hm₂ : (0 : ℚ) < m₂ := by exact_mod_cast h₂
  have hle₁ : (2 : ℚ) ^ m₁.log2 ≤ m₁ := by exact_mod_cast Nat.log2_self_le h₁.ne'
  have hle₂ : (m₂ : ℚ) ≤ 2 ^ (m₂.log2 + 1) := by exact_mod_cast Nat.lt_log2_self.le
  rw [← Int.zpow_le_iff_le_log one_lt_two (by positivity), Nat.cast_ofNat, zpow_sub₀ two_ne_zero,
    zpow_add₀ two_ne_zero, zpow_add₀ two_ne_zero, zpow_add₀ two_ne_zero, zpow_one]
  rw [pow_succ] at hle₂
  rw [zpow_natCast, zpow_natCast]
  gcongr

theorem div (h₁ : 0 < m₁) (h₂ : 0 < m₂) : RoundsTo (m₁ * 2 ^ e₁ / (m₂ * 2 ^ e₂))
    (div Format.binary64 (.finite .positive m₁ e₁ h₁) (.finite .positive m₂ e₂ h₂)) := by
  have hm₂ : (0 : ℚ) < m₂ := by exact_mod_cast h₂
  have htarget : Format.binary64.targetExponent (totalExponent m₁ e₁ - totalExponent m₂ e₂) =
      max (m₁.log2 + e₁ - (m₂.log2 + 1 + e₂) - 52) (-1074) := by
    have hmin : Format.binary64.minExponent = -1074 := rfl
    have hbits : (Format.binary64.mantissaBits : ℤ) = 53 := rfl
    rw [Format.targetExponent, totalExponent, totalExponent, hmin, hbits]
    congr 1
    ring
  have hlog := le_log_div h₁ h₂ e₁ e₂
  -- The dividend is moved up just so far that the quotient has a mantissa that is fine enough.
  have hamount : min (e₁ - e₂) (max (m₁.log2 + e₁ - (m₂.log2 + 1 + e₂) - 52) (-1074)) =
      e₁ - e₂ - ((e₁ - e₂ - min (e₁ - e₂)
        (max (m₁.log2 + e₁ - (m₂.log2 + 1 + e₂) - 52) (-1074))).toNat : ℤ) := by
    omega
  change RoundsTo _ (roundWithAccuracy Format.binary64 .positive
    (divCore Format.binary64 m₁ e₁ m₂ e₂).1 (divCore Format.binary64 m₁ e₁ m₂ e₂).2.1
    (divCore Format.binary64 m₁ e₁ m₂ e₂).2.2)
  refine RoundsTo.intro ?_ ?_
  · dsimp only [divCore]
    rw [htarget]
    generalize (e₁ - e₂ - min (e₁ - e₂)
      (max (m₁.log2 + e₁ - (m₂.log2 + 1 + e₂) - 52) (-1074))).toNat = k at hamount ⊢
    rw [hamount]
    have hvalue : (m₁ * 2 ^ e₁ / (m₂ * 2 ^ e₂) : ℚ) / 2 ^ (e₁ - e₂ - (k : ℤ)) =
        ((m₁ <<< k : ℕ) : ℚ) / m₂ := by
      rw [Nat.shiftLeft_eq, zpow_sub₀ two_ne_zero, zpow_sub₀ two_ne_zero, zpow_natCast]
      push_cast
      field_simp
    rw [hvalue]
    exact .ofQuotient _ h₂
  · dsimp only [divCore]
    rw [htarget]
    unfold grain
    omega

end RoundsTo

/-- Nothing is cut off from a mantissa that is as long as its exponent allows. -/
theorem roundWithAccuracy_exact {m : ℕ} {e : ℤ} (hm : 0 < m)
    (he : max (m.log2 + e - 52) (-1074) = e) :
    roundWithAccuracy Format.binary64 .positive m e .exact = .finite .positive m e hm := by
  have hshift : shiftToTargetExponent Format.binary64 m e .exact = (⟨m, false, false⟩, e) := by
    rw [shiftToTargetExponent, targetExponent_eq, he, shiftToExponent, sub_self]
    exact Prod.ext rfl (add_zero e)
  have hrounded : (⟨m, false, false⟩ : ExtendedMantissa).roundedMantissa = m := rfl
  rw [roundWithAccuracy, hshift]
  dsimp only
  rw [hrounded, hshift]
  exact dif_neg hm.ne'

/-- A number that is a double is rounded to it. -/
theorem RoundsTo.self {m : ℕ} {e : ℤ} (hm : 0 < m) (he : max (m.log2 + e - 52) (-1074) = e) :
    RoundsTo (m * 2 ^ e) (.finite .positive m e hm) := by
  have hpow : (2 : ℚ) ^ e ≠ 0 := (zpow_pos two_pos e).ne'
  have hvalue : (m * 2 ^ e : ℚ) / 2 ^ e = m := mul_div_cancel_right₀ _ hpow
  rw [← roundWithAccuracy_exact hm he]
  refine .intro ?_ ?_
  · rw [hvalue]
    exact .ofExact m
  · rw [grain, log_of_bounds hm.ne' hvalue.ge (by rw [hvalue]; exact lt_add_one _)]
    omega

end LoxLang
