import LoxLang.Decimal.Shortest
import LoxLang.Proofs.Decimal.Parts
import LoxLang.Proofs.Decimal.Rounding
/-!
# The nearest double

A decimal reads as the double that its amount is rounded to, whichever of the ways to compute it is
taken. So decimals of one amount read alike, and a decimal that is a double reads as that double.
-/

namespace LoxLang

open Float.Model Float.Model.UnpackedFloat

/-! ## Numbers out of range -/

/-- Rounding to the nearest mantissa cuts nothing off. -/
theorem le_roundedMantissa (em : ExtendedMantissa) : em.mantissa ≤ em.roundedMantissa := by
  unfold ExtendedMantissa.roundedMantissa Accuracy.roundToNearestEven
  split <;> omega

/-- A mantissa does not vanish when its exponent is brought to size. -/
theorem shiftToTargetExponent_pos {r : ℕ} (hr : 0 < r) {g : ℤ} (hg : -1074 ≤ g) :
    ∃ em e, shiftToTargetExponent Format.binary64 r g .exact = (em, e) ∧ 0 < em.mantissa ∧ g ≤ e := by
  refine ⟨_, _, rfl, ?_, by simp⟩
  rw [targetExponent_eq]
  have hamount : (max (r.log2 + g - 52) (-1074) - g).toNat ≤ r.log2 := by omega
  generalize (max (r.log2 + g - 52) (-1074) - g).toNat = k at *
  have hsize : (1 : ℚ) ≤ r / 2 ^ k := by
    rw [le_div_iff₀ (by positivity), one_mul]
    exact_mod_cast (Nat.pow_le_pow_right two_pos hamount).trans (Nat.log2_self_le hr.ne')
  have hlt := hsize.trans_lt ((Represents.ofExact r).shiftRight k).bounds.2
  exact Nat.pos_of_ne_zero fun h => by simp [h] at hlt

/-- A number that is too large for the doubles is written as infinity. -/
theorem RoundsTo.pack_large {v : ℚ} {u : UnpackedFloat} (h : RoundsTo v u) (hpos : 0 < v)
    (hv : 1024 ≤ Int.log 2 v) : Float.Model.pack u = Float.Model.pack (.infinity .positive) := by
  obtain ⟨hrep, he⟩ := h
  obtain ⟨em, hem, heq⟩ := shiftToTargetExponent_eq hpos hrep he
  have hgrain : 972 ≤ grain v ∧ grain v ≤ Int.log 2 v := by
    unfold grain
    omega
  have hone : 0 < em.mantissa := by
    have hsize : (1 : ℚ) ≤ v / 2 ^ grain v := by
      rw [le_div_iff₀ (zpow_pos two_pos _), one_mul]
      exact (zpow_le_zpow_right₀ one_le_two hgrain.2).trans (Int.zpow_log_le_self one_lt_two hpos)
    have hlt := hsize.trans_lt hem.bounds.2
    exact Nat.pos_of_ne_zero fun h => by simp [h] at hlt
  -- A mantissa that was rounded up may be too long, so it is cut off a second time.
  obtain ⟨final, e, hfinal, hmantissa, hexponent⟩ :=
    shiftToTargetExponent_pos (hone.trans_le (le_roundedMantissa em)) (g := grain v) (by omega)
  have hexp : 2 ^ Format.binary64.exponentBits ≤
      (e + Format.binary64.exponentBias + Format.binary64.mantissaBitsWithoutImplicit).toNat + 1 := by
    change 2048 ≤ (e + 1023 + 52).toNat + 1
    omega
  simp only [roundWithAccuracy, heq, hfinal, dif_neg hmantissa.ne', Float.Model.pack,
    UnpackedFloat.pack, if_pos hexp]

/-- A number below half of the least double is rounded to zero. -/
theorem RoundsTo.zero {v : ℚ} (hpos : 0 < v) (hv : v / 2 ^ (-1074 : ℤ) < 1 / 2) :
    RoundsTo v (.zero .positive) := by
  have hround : roundWithAccuracy Format.binary64 .positive 0 (-1074) (.inexact .lt) =
      .zero .positive := rfl
  rw [← hround]
  refine .intro ⟨?_, ?_⟩ (le_max_right _ _)
  · rw [Nat.cast_zero]
    exact div_pos hpos (zpow_pos two_pos _)
  · rw [Nat.cast_zero, zero_add]
    exact hv

/-! ## From decimals to doubles -/

/-- A positive number is rounded to this double. -/
def Rounded (v : ℚ) (x : Float) : Prop := ∃ u, RoundsTo v u ∧ x.toModel = .pack u

theorem Rounded.unique {v : ℚ} (hv : 0 < v) {x y : Float} (hx : Rounded v x) (hy : Rounded v y) :
    x = y := by
  obtain ⟨u, hu, hxu⟩ := hx
  obtain ⟨u', hu', hyu⟩ := hy
  obtain rfl := hu.unique hv hu'
  cases x
  cases y
  exact congrArg Float.ofModel (hxu.trans hyu.symm)

/-- A double is rounded to itself. -/
theorem Rounded.self {x : Float} {m : ℕ} {e : ℤ} {hm : 0 < m}
    (hx : x.toModel.unpack = .finite .positive m e hm) : Rounded (m * 2 ^ e) x := by
  refine ⟨_, RoundsTo.self hm (unpack_canonical hx), ?_⟩
  have hpack := pack_unpack_of_valid x.toModel.valid
  change UnpackedFloat.pack Format.binary64 x.toModel.unpack = x.toModel.toBits.toBitVec at hpack
  rw [hx] at hpack
  simp only [Float.Model.pack, hpack]

/-! ## Decimals of any size -/

section Scientific

variable {m : ℕ} (hm : 0 < m) {e : ℤ}

include hm

theorem scientific_pos : (0 : ℚ) < m * 10 ^ e :=
  mul_pos (by exact_mod_cast hm) (zpow_pos (by norm_num) e)

/-- A decimal with a large exponent is infinity. -/
theorem rounded_large (he : 1024 ≤ e) : Rounded (m * 10 ^ e) ⟨.pack (.infinity .positive)⟩ := by
  have hm' : (1 : ℚ) ≤ m := by exact_mod_cast hm
  have hpos : (0 : ℚ) < m * 10 ^ e := scientific_pos hm
  have hlog : 1024 ≤ Int.log 2 (m * 10 ^ e : ℚ) := by
    rw [← Int.zpow_le_iff_le_log one_lt_two hpos]
    calc (2 : ℚ) ^ (1024 : ℤ) ≤ 10 ^ (1024 : ℤ) :=
          zpow_le_zpow_left₀ (by norm_num) (by norm_num) (by norm_num)
      _ ≤ 10 ^ e := zpow_le_zpow_right₀ (by norm_num) he
      _ ≤ m * 10 ^ e := le_mul_of_one_le_left (zpow_pos (by norm_num) e).le hm'
  have hvalue : (m * 10 ^ e : ℚ) / 2 ^ (0 : ℤ) = (m * 10 ^ e.toNat : ℕ) := by
    rw [zpow_zero, div_one]
    push_cast
    rw [← zpow_natCast, Int.toNat_of_nonneg (by omega)]
  have hrounds : RoundsTo (m * 10 ^ e) (roundWithAccuracy Format.binary64 .positive
      (m * 10 ^ e.toNat) 0 .exact) := by
    refine .intro ?_ ?_
    · rw [hvalue]
      exact .ofExact _
    · unfold grain
      omega
  exact ⟨_, hrounds, (hrounds.pack_large hpos hlog).symm⟩

/-- A decimal with an exponent that its digits do not make up for is zero. -/
theorem roundsTo_small (he : e < -(2048 + (m.log2 : ℤ))) :
    RoundsTo (m * 10 ^ e) (.zero .positive) := by
  have hmle : (m : ℚ) ≤ 2 ^ (m.log2 + 1 : ℤ) := by exact_mod_cast Nat.lt_log2_self.le
  have hexp : (10 : ℚ) ^ e ≤ 2 ^ e := by
    have hinv : (2 : ℚ) ^ (-e) ≤ 10 ^ (-e) :=
      zpow_le_zpow_left₀ (by omega) two_pos.le (by norm_num)
    rw [zpow_neg, zpow_neg] at hinv
    exact (inv_le_inv₀ (zpow_pos two_pos e) (zpow_pos (by norm_num) e)).1 hinv
  refine .zero (scientific_pos hm) ?_
  calc (m * 10 ^ e : ℚ) / 2 ^ (-1074 : ℤ) ≤ 2 ^ (m.log2 + 1 : ℤ) * 2 ^ e / 2 ^ (-1074 : ℤ) := by
        gcongr
    _ = 2 ^ (m.log2 + 1 + e + 1074) := by
        rw [div_eq_mul_inv, ← zpow_neg, ← zpow_add₀ two_ne_zero, ← zpow_add₀ two_ne_zero, neg_neg]
    _ ≤ 2 ^ (-2 : ℤ) := zpow_le_zpow_right₀ one_le_two (by omega)
    _ < 1 / 2 := by norm_num

/-- A whole decimal is a product. -/
theorem roundsTo_product (he : 0 ≤ e) {h₁ : 0 < m <<< 53} {h₂ : 0 < 10 ^ e.toNat} :
    RoundsTo (m * 10 ^ e) (mul Format.binary64 (.finite .positive (m <<< 53) (-53) h₁)
      (.finite .positive (10 ^ e.toNat) 0 h₂)) := by
  have hm' : (1 : ℚ) ≤ m := by exact_mod_cast hm
  have hvalue : (m * 10 ^ e : ℚ) =
      (m <<< 53 : ℕ) * 2 ^ (-53 : ℤ) * ((10 ^ e.toNat : ℕ) * 2 ^ (0 : ℤ)) := by
    rw [Nat.shiftLeft_eq, zpow_neg, zpow_zero, mul_one]
    push_cast
    rw [← zpow_natCast 10, Int.toNat_of_nonneg he]
    field_simp
  have hlog : 0 ≤ Int.log 2 (m * 10 ^ e : ℚ) := by
    rw [← Int.zpow_le_iff_le_log one_lt_two (scientific_pos hm), zpow_zero]
    exact one_le_mul_of_one_le_of_one_le hm' (one_le_zpow₀ (by norm_num) he)
  have hfine : (-53 : ℤ) + 0 ≤ grain (m * 10 ^ e) := by
    unfold grain
    omega
  rw [hvalue] at hfine ⊢
  exact .mul _ _ hfine

/-- Any other decimal is a quotient. -/
theorem roundsTo_quotient (he : e ≤ 0) {h₂ : 0 < 10 ^ (-e).toNat} :
    RoundsTo (m * 10 ^ e) (div Format.binary64 (.finite .positive m 0 hm)
      (.finite .positive (10 ^ (-e).toNat) 0 h₂)) := by
  have hvalue : (m * 10 ^ e : ℚ) = m * 2 ^ (0 : ℤ) / ((10 ^ (-e).toNat : ℕ) * 2 ^ (0 : ℤ)) := by
    push_cast
    rw [← zpow_natCast 10, Int.toNat_of_nonneg (by omega), zpow_neg, mul_one, mul_one,
      div_inv_eq_mul]
  rw [hvalue]
  exact .div _ _

/-- Decimals of any size are rounded, also those that are too large or too small for the doubles. -/
theorem rounded_ofScientific (e : ℤ) :
    Rounded (m * 10 ^ e) ⟨.pack (.ofScientific Format.binary64 m e)⟩ := by
  rw [UnpackedFloat.ofScientific, dif_neg hm.ne']
  split
  · next hlarge =>
    have he : (2048 : ℤ) < e := hlarge
    exact rounded_large hm (by omega)
  split
  · next hsmall => exact ⟨_, roundsTo_small hm hsmall, rfl⟩
  split
  · next he => exact ⟨_, roundsTo_product hm he, rfl⟩
  · next he => exact ⟨_, roundsTo_quotient hm (by omega), rfl⟩

end Scientific

/-! ## Numbers with full mantissas -/

/-- A double with a full mantissa, which is the given number. -/
def Full (x : Float) (v : ℚ) : Prop :=
  ∃ m e, ∃ hm : 0 < m, x.toModel.unpack = .finite .positive m e hm ∧ m.log2 = 52 ∧ v = m * 2 ^ e

theorem targetExponent_ofNat {m : ℕ} (hm : m.log2 ≤ 52) :
    Format.binary64.targetExponent (totalExponent m 0) = m.log2 - 52 := by
  rw [targetExponent_eq]
  omega

/-- A whole number that fits into a mantissa is a double. -/
theorem full_ofNat {m : ℕ} (hm : 0 < m) (hlt : m < 2 ^ 53) : Full m.toUInt64.toFloat m := by
  have hlog : m.log2 ≤ 52 := Nat.lt_succ_iff.1 ((Nat.log2_lt hm.ne').2 hlt)
  have hlong : (m <<< (52 - m.log2)).log2 = 52 := by
    rw [Nat.shiftLeft_eq]
    refine log2_eq_of_bounds ?_ ?_
    · calc 2 ^ 52 = 2 ^ m.log2 * 2 ^ (52 - m.log2) := by rw [← pow_add, Nat.add_sub_cancel' hlog]
        _ ≤ m * 2 ^ (52 - m.log2) := Nat.mul_le_mul_right _ (Nat.log2_self_le hm.ne')
    · calc m * 2 ^ (52 - m.log2) < 2 ^ (m.log2 + 1) * 2 ^ (52 - m.log2) :=
            Nat.mul_lt_mul_of_pos_right Nat.lt_log2_self (by positivity)
        _ = 2 ^ (52 + 1) := by
            rw [← pow_add]
            congr 1
            omega
  have hvalue : (m : ℚ) = (m <<< (52 - m.log2) : ℕ) * 2 ^ (-(52 - m.log2 : ℕ) : ℤ) := by
    rw [Nat.shiftLeft_eq, zpow_neg, zpow_natCast]
    push_cast
    field_simp
  have hpos : 0 < m <<< (52 - m.log2) := by
    rw [Nat.shiftLeft_eq]
    positivity
  refine ⟨_, _, hpos, ?_, hlong, hvalue⟩
  rw [← unpack_pack .positive hpos hlong (by omega) (by omega), ← roundWithAccuracy_exact hpos (by omega)]
  have hword : m.toUInt64.toNat = m := UInt64.toNat_ofNat_of_lt' (hlt.trans (by decide))
  have hcompare : compare (m : ℤ) 0 = .gt := Int.compare_eq_gt.2 (by exact_mod_cast hm)
  change (Float.Model.pack (UnpackedFloat.normalize Format.binary64 (m.toUInt64.toNat : ℤ) 0 .positive)).unpack = _
  rw [hword, UnpackedFloat.normalize, hcompare]
  change (Float.Model.pack (UnpackedFloat.round Format.binary64 .positive m 0)).unpack = _
  rw [UnpackedFloat.round, targetExponent_ofNat hlog]
  dsimp only [decreaseExponent]
  have hamount : (0 - ((m.log2 : ℤ) - 52)).toNat = 52 - m.log2 := by omega
  rw [hamount, zero_sub]

/-- Whether a double has a full mantissa and is a power of ten. -/
def isFullPower (x : Float) (k : ℕ) : Bool :=
  match x.toModel.unpack with
  | .finite .positive m e _ => m.log2 == 52 && m * 2 ^ e.toNat == 10 ^ k * 2 ^ (-e).toNat
  | _ => false

theorem isFullPower_table :
    ∀ k : Fin Float.exactlyRepresentablePowersOfTen.size,
      isFullPower Float.exactlyRepresentablePowersOfTen[k] k := by
  decide +kernel

/-- The powers of ten in the table are what they should be. -/
theorem full_power {k : ℕ} (hk : k < Float.exactlyRepresentablePowersOfTen.size) :
    Full Float.exactlyRepresentablePowersOfTen[k] (10 ^ k) := by
  have h := isFullPower_table ⟨k, hk⟩
  unfold isFullPower at h
  split at h
  · next m e hm hx =>
    rw [Bool.and_eq_true, beq_iff_eq, beq_iff_eq] at h
    refine ⟨m, e, hm, hx, h.1, ?_⟩
    have hvalue : (m : ℚ) * 2 ^ e.toNat = 10 ^ k * 2 ^ (-e).toNat := by exact_mod_cast h.2
    have hsplit : (2 : ℚ) ^ e = 2 ^ e.toNat / 2 ^ (-e).toNat := by
      rw [← zpow_natCast, ← zpow_natCast, ← zpow_sub₀ two_ne_zero]
      congr 1
      omega
    rw [hsplit, ← mul_div_assoc, hvalue, mul_div_cancel_right₀ _ (by positivity)]
  · cases h

theorem Full.mul {x y : Float} {v w : ℚ} (hx : Full x v) (hy : Full y w) : Rounded (v * w) (x * y) := by
  obtain ⟨m₁, e₁, h₁, hx, hlog₁, rfl⟩ := hx
  obtain ⟨m₂, e₂, h₂, hy, hlog₂, rfl⟩ := hy
  have hpow : ∀ e : ℤ, (0 : ℚ) < 2 ^ e := fun e => zpow_pos two_pos e
  have hlog : 104 + e₁ + e₂ ≤ Int.log 2 (m₁ * 2 ^ e₁ * (m₂ * 2 ^ e₂) : ℚ) := by
    have hle₁ : (2 : ℚ) ^ 52 ≤ m₁ := by exact_mod_cast hlog₁ ▸ Nat.log2_self_le h₁.ne'
    have hle₂ : (2 : ℚ) ^ 52 ≤ m₂ := by exact_mod_cast hlog₂ ▸ Nat.log2_self_le h₂.ne'
    have hm₁ : (0 : ℚ) < m₁ := by exact_mod_cast h₁
    have hm₂ : (0 : ℚ) < m₂ := by exact_mod_cast h₂
    rw [← Int.zpow_le_iff_le_log one_lt_two (by positivity)]
    calc (2 : ℚ) ^ (104 + e₁ + e₂) = 2 ^ 52 * 2 ^ e₁ * (2 ^ 52 * 2 ^ e₂) := by
          rw [zpow_add₀ two_ne_zero, zpow_add₀ two_ne_zero]
          ring
      _ ≤ m₁ * 2 ^ e₁ * (m₂ * 2 ^ e₂) := by gcongr
  have hfine : e₁ + e₂ ≤ grain (m₁ * 2 ^ e₁ * (m₂ * 2 ^ e₂)) := by
    unfold grain
    omega
  refine ⟨_, .mul h₁ h₂ hfine, ?_⟩
  rw [← hx, ← hy]
  rfl

theorem Full.div {x y : Float} {v w : ℚ} (hx : Full x v) (hy : Full y w) : Rounded (v / w) (x / y) := by
  obtain ⟨m₁, e₁, h₁, hx, -, rfl⟩ := hx
  obtain ⟨m₂, e₂, h₂, hy, -, rfl⟩ := hy
  refine ⟨_, .div h₁ h₂, ?_⟩
  rw [← hx, ← hy]
  rfl

/-- The number that a decimal stands for. -/
def Decimal.amount (d : Decimal) : ℚ := d.coefficient * 10 ^ d.exponent

/-- A decimal reads as the double that it is rounded to, whichever way it is computed. -/
theorem Decimal.rounded {d : Decimal} (h : 0 < d.coefficient) : Rounded d.amount d.toFloat := by
  unfold Decimal.amount Decimal.toFloat Float.ofScientific
  split
  -- The coefficient and the power of ten are doubles themselves: only their product or quotient
  -- is rounded.
  · next hsmall =>
    have hnumber := full_ofNat h hsmall.1
    have hpower := full_power (Nat.lt_succ_of_le hsmall.2)
    dsimp only
    split
    · next hneg =>
      have hvalue : (d.coefficient * 10 ^ d.exponent : ℚ) =
          d.coefficient / 10 ^ d.exponent.natAbs := by
        have hexponent : d.exponent = -(d.exponent.natAbs : ℤ) := by
          have := of_decide_eq_true hneg
          omega
        rw [div_eq_mul_inv, ← zpow_natCast, ← zpow_neg, ← hexponent]
      rw [hvalue]
      exact hnumber.div hpower
    · next hneg =>
      have hvalue : (d.coefficient * 10 ^ d.exponent : ℚ) =
          d.coefficient * 10 ^ d.exponent.natAbs := by
        have hexponent : (d.exponent.natAbs : ℤ) = d.exponent := by
          have := of_decide_eq_false (Bool.eq_false_iff.2 hneg)
          omega
        rw [← zpow_natCast, hexponent]
      rw [hvalue]
      exact hnumber.mul hpower
  · dsimp only
    have hexponent : (if decide (d.exponent < 0) then Int.negOfNat d.exponent.natAbs
        else Int.ofNat d.exponent.natAbs) = d.exponent := by
      rw [Int.negOfNat_eq, Int.ofNat_eq_natCast]
      split
      · next hneg =>
        have := of_decide_eq_true hneg
        omega
      · next hneg =>
        have := of_decide_eq_false (Bool.eq_false_iff.2 hneg)
        omega
    rw [hexponent]
    exact rounded_ofScientific h d.exponent

theorem Full.zero_mul {y : Float} {w : ℚ} (hy : Full y w) :
    (Nat.toUInt64 0).toFloat * y = ⟨.pack (.zero .positive)⟩ := by
  obtain ⟨m, e, hm, hy, -, -⟩ := hy
  have hzero : (Nat.toUInt64 0).toFloat.toModel.unpack = .zero .positive := rfl
  change (⟨.pack (UnpackedFloat.mul Format.binary64 _ _)⟩ : Float) = _
  rw [hzero, hy]
  rfl

theorem Full.zero_div {y : Float} {w : ℚ} (hy : Full y w) :
    (Nat.toUInt64 0).toFloat / y = ⟨.pack (.zero .positive)⟩ := by
  obtain ⟨m, e, hm, hy, -, -⟩ := hy
  have hzero : (Nat.toUInt64 0).toFloat.toModel.unpack = .zero .positive := rfl
  change (⟨.pack (UnpackedFloat.div Format.binary64 _ _)⟩ : Float) = _
  rw [hzero, hy]
  rfl

namespace Decimal

/-- A decimal without digits reads as zero. -/
theorem toFloat_zero (e : ℤ) : Decimal.toFloat ⟨0, e⟩ = 0 := by
  unfold Decimal.toFloat Float.ofScientific
  split
  · next hsmall =>
    have hpower := full_power (Nat.lt_succ_of_le hsmall.2)
    dsimp only
    split
    · exact hpower.zero_div.trans pack_zero
    · exact hpower.zero_mul.trans pack_zero
  · exact pack_zero

theorem coefficient_pos_iff {d : Decimal} : 0 < d.coefficient ↔ 0 < d.amount := by
  rw [amount, mul_pos_iff_of_pos_right (zpow_pos (by norm_num) _), Nat.cast_pos]

/-- Decimals of one amount read alike. -/
theorem toFloat_congr {d d' : Decimal} (h : d.amount = d'.amount) : d.toFloat = d'.toFloat := by
  rcases Nat.eq_zero_or_pos d.coefficient with hd | hd
  · have hd' : d'.coefficient = 0 := by
      by_contra hne
      have hpos := coefficient_pos_iff.1 (Nat.pos_of_ne_zero hne)
      rw [← h, ← coefficient_pos_iff, hd] at hpos
      exact absurd hpos (lt_irrefl 0)
    obtain ⟨c, e⟩ := d
    obtain ⟨c', e'⟩ := d'
    obtain rfl : c = 0 := hd
    obtain rfl : c' = 0 := hd'
    rw [toFloat_zero, toFloat_zero]
  · have hpos := coefficient_pos_iff.1 hd
    have hd' : 0 < d'.coefficient := coefficient_pos_iff.2 (h ▸ hpos)
    exact (rounded hd).unique hpos (h ▸ rounded hd')

/-- A decimal that is a double reads as that double. -/
theorem toFloat_exact {d : Decimal} {x : Float} {m : ℕ} {e : ℤ} {hm : 0 < m}
    (hx : x.toModel.unpack = .finite .positive m e hm)
    (h : d.amount = m * 2 ^ e) : d.toFloat = x := by
  have hpos : (0 : ℚ) < m * 2 ^ e := mul_pos (by exact_mod_cast hm) (zpow_pos two_pos e)
  have hd := rounded (coefficient_pos_iff.2 (h ▸ hpos))
  exact (h ▸ hd).unique hpos (.self hx)

end Decimal

theorem RoundsTo.unsigned {v : ℚ} {u : UnpackedFloat} (h : RoundsTo v u) : Unsigned ⟨.pack u⟩ := by
  obtain ⟨-, -⟩ := h
  unfold roundWithAccuracy
  dsimp only
  split
  · rw [pack_zero]
    exact .zero
  · exact unsigned_pack _

/-- A decimal reads as zero, as a positive double or as infinity. -/
theorem Decimal.toFloat_unsigned (d : Decimal) : Unsigned d.toFloat := by
  rcases Nat.eq_zero_or_pos d.coefficient with h | h
  · obtain ⟨c, e⟩ := d
    obtain rfl : c = 0 := h
    rw [toFloat_zero]
    exact .zero
  · obtain ⟨u, hu, hx⟩ := rounded h
    obtain ⟨x, hd⟩ : ∃ x, d.toFloat = x := ⟨_, rfl⟩
    rw [hd] at hx ⊢
    obtain ⟨x⟩ := x
    obtain rfl : x = .pack u := hx
    exact hu.unsigned

end LoxLang
