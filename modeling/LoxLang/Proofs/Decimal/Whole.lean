import LoxLang.Decimal.Exact
import LoxLang.Proofs.Decimal.Nearest
/-!
# Whole numbers

The whole numbers below `2 ^ 53` are doubles, and a sum or a difference of two of them is computed
without an error. What is left of a double without its fraction is a double too.
-/

namespace LoxLang

open Float.Model Float.Model.UnpackedFloat

/-- The number that a finite double is. -/
def Exact.value (x : Exact) : ℚ :=
  (if x.negative then -1 else 1) * (x.mantissa * 2 ^ x.exponent)

/-- A number without its fraction. -/
def towardZero (v : ℚ) : ℤ := if 0 ≤ v then ⌊v⌋ else ⌈v⌉

/-- A double is this whole number. -/
def Whole (x : Float) (n : ℤ) : Prop := ∃ e, Exact.ofFloat? x = some e ∧ e.value = n

/-! ## Cutting off -/

namespace Exact

theorem value_positive (m : ℕ) (e : ℤ) :
    value ⟨Sign.positive == .negative, m, e⟩ = m * 2 ^ e := by
  have hsign : (Sign.positive == .negative) = false := rfl
  rw [value, hsign, if_neg Bool.false_ne_true, one_mul]

theorem value_negative (m : ℕ) (e : ℤ) :
    value ⟨Sign.negative == .negative, m, e⟩ = -(m * 2 ^ e) := by
  have hsign : (Sign.negative == .negative) = true := rfl
  rw [value, hsign, if_pos rfl, neg_one_mul]

theorem value_zero (negative : Bool) (e : ℤ) : value ⟨negative, 0, e⟩ = 0 := by
  rw [value, Nat.cast_zero, zero_mul, mul_zero]

theorem magnitude_eq (x : Exact) :
    (x.mantissa * 2 ^ x.exponent : ℚ) = x.numerator / x.denominator := by
  rw [numerator, denominator, Nat.pow_eq, Nat.pow_eq]
  push_cast
  rcases le_total 0 x.exponent with he | he
  · obtain ⟨n, hn⟩ := Int.eq_ofNat_of_zero_le he
    simp [hn]
  · obtain ⟨n, hn⟩ : ∃ n : ℕ, x.exponent = -n := ⟨(-x.exponent).toNat, by omega⟩
    simp [hn, div_eq_mul_inv]

theorem wholePart_eq (x : Exact) : (x.wholePart : ℤ) = ⌊(x.mantissa * 2 ^ x.exponent : ℚ)⌋ := by
  rw [magnitude_eq, wholePart]
  exact (Rat.floor_natCast_div_natCast _ _).symm

/-- Cutting off rounds toward zero. -/
theorem truncate_eq (x : Exact) : x.truncate = towardZero x.value := by
  have hpos : (0 : ℚ) ≤ x.mantissa * 2 ^ x.exponent := by positivity
  rw [truncate, wholePart_eq, towardZero, value]
  cases x.negative with
  | false => rw [if_neg Bool.false_ne_true, if_neg Bool.false_ne_true, one_mul, if_pos hpos]
  | true =>
    rw [if_pos rfl, if_pos rfl, neg_one_mul, ← Int.ceil_neg]
    split
    · next h =>
      have hzero : (x.mantissa * 2 ^ x.exponent : ℚ) = 0 := le_antisymm (by linarith) hpos
      rw [hzero, neg_zero, Int.ceil_zero, Int.floor_zero]
    · rfl

end Exact

theorem towardZero_intCast (n : ℤ) : towardZero n = n := by
  rw [towardZero, Int.floor_intCast, Int.ceil_intCast, ite_self]

/-! ## Doubles that are whole numbers -/

namespace Whole

variable {x y : Float} {n n' : ℤ}

theorem unique (h : Whole x n) (h' : Whole x n') : n = n' := by
  obtain ⟨e, he, hn⟩ := h
  obtain ⟨e', he', hn'⟩ := h'
  obtain rfl : e = e' := Option.some.inj (he.symm.trans he')
  exact_mod_cast hn.symm.trans hn'

theorem of_zero {s : Sign} (h : x.toModel.unpack = .zero s) : Whole x 0 := by
  refine ⟨_, by rw [Exact.ofFloat?, h], ?_⟩
  rw [Exact.value_zero, Int.cast_zero]

theorem of_positive {m : ℕ} {e : ℤ} {hm : 0 < m} (h : x.toModel.unpack = .finite .positive m e hm)
    (hn : (m * 2 ^ e : ℚ) = n) : Whole x n := by
  refine ⟨_, by rw [Exact.ofFloat?, h], ?_⟩
  rw [Exact.value_positive, hn]

theorem of_negative {m : ℕ} {e : ℤ} {hm : 0 < m} (h : x.toModel.unpack = .finite .negative m e hm)
    (hn : -(m * 2 ^ e : ℚ) = n) : Whole x n := by
  refine ⟨_, by rw [Exact.ofFloat?, h], ?_⟩
  rw [Exact.value_negative, hn]

/-- A whole number that is not negative is one of the zeros or a positive double. -/
theorem cases_natCast {n : ℕ} (h : Whole x n) :
    (n = 0 ∧ ∃ s, x.toModel.unpack = .zero s) ∨
      0 < n ∧ ∃ m e, ∃ hm : 0 < m, x.toModel.unpack = .finite .positive m e hm ∧
        (m * 2 ^ e : ℚ) = n := by
  obtain ⟨x', hx, hv⟩ := h
  rw [Exact.ofFloat?] at hx
  split at hx
  · cases hx
  · cases hx
  · next s hs =>
    cases hx
    rw [Exact.value_zero] at hv
    exact .inl ⟨by exact_mod_cast hv.symm, s, hs⟩
  · next s m e hm hs =>
    cases hx
    have hpos : (0 : ℚ) < m * 2 ^ e := mul_pos (by exact_mod_cast hm) (zpow_pos two_pos e)
    cases s with
    | positive =>
      rw [Exact.value_positive, Int.cast_natCast] at hv
      exact .inr ⟨by rw [hv] at hpos; exact_mod_cast hpos, m, e, hm, hs, hv⟩
    | negative =>
      rw [Exact.value_negative, Int.cast_natCast] at hv
      have hnonneg : (0 : ℚ) ≤ n := n.cast_nonneg
      exact absurd hpos (by rw [not_lt]; linarith)

end Whole

/-- A positive whole number is rounded to itself. -/
theorem rounded_ofNat {n : ℕ} (hn : 0 < n) : Rounded n (Float.ofNat n) := by
  have h := Decimal.rounded (d := ⟨n, 0⟩) hn
  rwa [Decimal.amount, zpow_zero, mul_one] at h

theorem full_natCast {n : ℕ} (hn : 0 < n) (hlt : n < 2 ^ 53) : Full (Float.ofNat n) n := by
  obtain ⟨m, e, hm, hx, hlog, hv⟩ := full_ofNat hn hlt
  have hself := Rounded.self hx
  rw [← hv] at hself
  rw [← (rounded_ofNat hn).unique (by exact_mod_cast hn) hself] at hx
  exact ⟨m, e, hm, hx, hlog, hv⟩

theorem whole_ofNat {n : ℕ} (hn : n < 2 ^ 53) : Whole (Float.ofNat n) n := by
  rcases Nat.eq_zero_or_pos n with rfl | hpos
  · exact .of_zero (s := .positive) rfl
  · obtain ⟨m, e, hm, hx, -, hv⟩ := full_natCast hpos hn
    exact .of_positive hx (by rw [← hv, Int.cast_natCast])

theorem whole_neg_ofNat {n : ℕ} (hn : n < 2 ^ 53) : Whole (-Float.ofNat n) (-n) := by
  rcases Nat.eq_zero_or_pos n with rfl | hpos
  · exact .of_zero (s := .negative) rfl
  · obtain ⟨m, e, hm, hx, hlog, hv⟩ := full_natCast hpos hn
    have hlo : -1074 ≤ e := unpack_canonical hx ▸ le_max_right _ _
    have hhi : e < 1 := by
      have hlong : (2 : ℚ) ^ 52 ≤ m := by exact_mod_cast hlog ▸ Nat.log2_self_le hm.ne'
      have hshort : (n : ℚ) < 2 ^ 53 := by exact_mod_cast hn
      have hlt : (2 : ℚ) ^ 52 * 2 ^ e < 2 ^ 52 * 2 ^ (1 : ℤ) := by
        calc (2 : ℚ) ^ 52 * 2 ^ e ≤ m * 2 ^ e := by gcongr
          _ = n := hv.symm
          _ < 2 ^ 52 * 2 ^ (1 : ℤ) := by linarith
      exact (zpow_lt_zpow_iff_right₀ one_lt_two).1 (lt_of_mul_lt_mul_left hlt (by positivity))
    have hneg : (-Float.ofNat n).toModel.unpack = .finite .negative m e hm := by
      rw [← unpack_pack .negative hm hlog hlo (by omega)]
      change (Float.Model.pack (UnpackedFloat.neg (Float.ofNat n).toModel.unpack)).unpack = _
      rw [hx]
      rfl
    exact .of_negative hneg (by rw [← hv]; push_cast; rfl)

/-- A double with a negative exponent is not large. -/
theorem wholePart_lt {x : Float} {e : Exact} (h : Exact.ofFloat? x = some e) (he : e.exponent < 0) :
    e.wholePart < 2 ^ 53 := by
  have hmantissa : e.mantissa < 2 ^ 53 := by
    rw [Exact.ofFloat?] at h
    split at h
    · cases h
    · cases h
    · cases h
      exact absurd he (lt_irrefl 0)
    · next m e' hm hx =>
      cases h
      have hcanonical := unpack_canonical hx
      dsimp only at he ⊢
      exact (Nat.log2_lt hm.ne').1 (by omega)
  calc e.wholePart ≤ e.numerator := Nat.div_le_self _ _
    _ = e.mantissa := by
      rw [Exact.numerator, Int.toNat_of_nonpos he.le]
      exact Nat.mul_one _
    _ < 2 ^ 53 := hmantissa

/-- The fraction of a finite double can be cut off. -/
theorem exists_whole_towardZero {x : Float} {e : Exact} (h : Exact.ofFloat? x = some e) :
    ∃ y, Whole y (towardZero e.value) := by
  rcases le_or_gt 0 e.exponent with he | he
  · obtain ⟨k, hk⟩ := Int.eq_ofNat_of_zero_le he
    have hvalue : e.value = (((if e.negative then -1 else 1) * (e.mantissa * 2 ^ k) : ℤ) : ℚ) := by
      rw [Exact.value, hk]
      push_cast
      rfl
    exact ⟨x, e, h, by rw [hvalue, towardZero_intCast]⟩
  · have hsmall := wholePart_lt h he
    rw [← Exact.truncate_eq, Exact.truncate]
    split
    · exact ⟨_, whole_neg_ofNat hsmall⟩
    · exact ⟨_, whole_ofNat hsmall⟩

/-- A double that is a positive whole number is what the number is rounded to. -/
theorem Whole.eq_ofNat {x : Float} {n : ℕ} (h : Whole x n) (hn : 0 < n) : x = Float.ofNat n := by
  rcases h.cases_natCast with ⟨rfl, -⟩ | ⟨-, m, e, hm, hx, hv⟩
  · exact absurd hn (lt_irrefl 0)
  · exact (hv ▸ Rounded.self hx).unique (by exact_mod_cast hn) (rounded_ofNat hn)

/-- If some double is a whole number, the double that it is rounded to is. -/
theorem Whole.ofNat_self {x : Float} {n : ℕ} (h : Whole x n) : Whole (Float.ofNat n) n := by
  rcases Nat.eq_zero_or_pos n with rfl | hn
  · exact whole_ofNat (by norm_num)
  · rwa [← h.eq_ofNat hn]

/-- A double without a sign is no negative number. -/
theorem Unsigned.whole_nonneg {x : Float} (hx : Unsigned x) {n : ℤ} (h : Whole x n) : 0 ≤ n := by
  cases hx with
  | zero => exact (h.unique (.of_zero (s := .positive) rfl)).ge
  | finite hfinite =>
    obtain ⟨e, he, hv⟩ := h
    rw [Exact.ofFloat?, hfinite] at he
    cases he
    rw [Exact.value_positive] at hv
    exact_mod_cast hv ▸ mul_nonneg (Nat.cast_nonneg _) (zpow_pos two_pos _).le
  | infinity =>
    obtain ⟨e, he, -⟩ := h
    cases he

/-! ## Sums and differences -/

/-- A mantissa is brought to size before it is rounded. -/
theorem RoundsTo.round {m : ℕ} (hm : 0 < m) (e : ℤ) :
    RoundsTo (m * 2 ^ e) (round Format.binary64 .positive m e) := by
  have hvalue : ∀ k : ℕ, (m * 2 ^ e : ℚ) / 2 ^ (e - k) = (m <<< k : ℕ) := by
    intro k
    rw [Nat.shiftLeft_eq, zpow_sub₀ two_ne_zero, zpow_natCast]
    push_cast
    field_simp
  have hlog : Int.log 2 (m * 2 ^ e : ℚ) = m.log2 + e := by
    have hself : (m * 2 ^ e : ℚ) / 2 ^ e = m := mul_div_cancel_right₀ _ (by positivity)
    exact log_of_bounds hm.ne' hself.ge (by rw [hself]; exact lt_add_one _)
  rw [UnpackedFloat.round, targetExponent_eq]
  dsimp only [decreaseExponent]
  refine .intro ?_ ?_
  · rw [hvalue]
    exact .ofExact _
  · rw [grain, hlog]
    omega

theorem Rounded.of_normalize {z : Float} {n : ℕ} (hn : 0 < n) {e : ℤ}
    (hz : z.toModel = .pack (UnpackedFloat.normalize Format.binary64 n e .positive)) :
    Rounded (n * 2 ^ e) z := by
  have hcompare : compare (n : ℤ) 0 = .gt := Int.compare_eq_gt.2 (by exact_mod_cast hn)
  refine ⟨_, .round hn e, ?_⟩
  rw [hz, UnpackedFloat.normalize, hcompare]
  rfl

/-- A mantissa that is lengthened to go with a lesser exponent. -/
theorem aligned_value (m : ℕ) {e e' : ℤ} (h : e' ≤ e) :
    ((m <<< (e - e').toNat : ℕ) * 2 ^ e' : ℚ) = m * 2 ^ e := by
  obtain ⟨k, hk⟩ := Int.eq_ofNat_of_zero_le (Int.sub_nonneg.2 h)
  obtain rfl : e = e' + k := by omega
  rw [hk, Int.toNat_natCast, Nat.shiftLeft_eq, zpow_add₀ two_ne_zero, zpow_natCast]
  push_cast
  ring

section Finite

variable {x y : Float} {m₁ m₂ : ℕ} {e₁ e₂ : ℤ} {h₁ : 0 < m₁} {h₂ : 0 < m₂}
  (hx : x.toModel.unpack = .finite .positive m₁ e₁ h₁)
  (hy : y.toModel.unpack = .finite .positive m₂ e₂ h₂)

include hx hy

theorem Rounded.add : Rounded (m₁ * 2 ^ e₁ + m₂ * 2 ^ e₂) (x + y) := by
  have hsum : 0 < m₁ <<< (e₁ - min e₁ e₂).toNat + m₂ <<< (e₂ - min e₁ e₂).toNat := by
    rw [Nat.shiftLeft_eq]
    positivity
  have hrounded := Rounded.of_normalize (z := x + y) hsum (e := min e₁ e₂) <| by
    change Float.Model.pack (UnpackedFloat.add _ x.toModel.unpack y.toModel.unpack) = _
    rw [hx, hy, UnpackedFloat.add, Nat.cast_add]
    rfl
  rwa [Nat.cast_add, add_mul, aligned_value m₁ (min_le_left _ _),
    aligned_value m₂ (min_le_right _ _)] at hrounded

theorem Rounded.sub (hlt : (m₂ * 2 ^ e₂ : ℚ) < m₁ * 2 ^ e₁) :
    Rounded (m₁ * 2 ^ e₁ - m₂ * 2 ^ e₂) (x - y) := by
  rw [← aligned_value m₁ (min_le_left e₁ e₂), ← aligned_value m₂ (min_le_right e₁ e₂)] at hlt ⊢
  have hmantissa : m₂ <<< (e₂ - min e₁ e₂).toNat < m₁ <<< (e₁ - min e₁ e₂).toNat := by
    exact_mod_cast lt_of_mul_lt_mul_right hlt (zpow_pos two_pos _).le
  have hrounded := Rounded.of_normalize (z := x - y) (Nat.sub_pos_of_lt hmantissa)
    (e := min e₁ e₂) <| by
    change Float.Model.pack (UnpackedFloat.sub _ x.toModel.unpack y.toModel.unpack) = _
    rw [hx, hy, UnpackedFloat.sub, Nat.cast_sub hmantissa.le]
    rfl
  rwa [Nat.cast_sub hmantissa.le, sub_mul] at hrounded

end Finite

/-! ## Whole numbers -/

section Unpacked

variable {x y z : Float}

theorem add_eq_of_unpack
    (h : UnpackedFloat.add Format.binary64 x.toModel.unpack y.toModel.unpack = z.toModel.unpack) :
    x + y = z :=
  (congrArg (fun u => (⟨.pack u⟩ : Float)) h).trans (pack_unpack_toModel z)

theorem sub_eq_of_unpack
    (h : UnpackedFloat.sub Format.binary64 x.toModel.unpack y.toModel.unpack = z.toModel.unpack) :
    x - y = z :=
  (congrArg (fun u => (⟨.pack u⟩ : Float)) h).trans (pack_unpack_toModel z)

end Unpacked

namespace Whole

variable {x y : Float} {a b : ℕ}

theorem of_pack_zero {s : Sign} (h : x.toModel = .pack (.zero s)) : Whole x 0 := by
  refine of_zero (s := s) ?_
  rw [h]
  cases s <;> rfl

theorem add (hx : Whole x a) (hy : Whole y b) (h : a + b < 2 ^ 53) :
    Whole (x + y) (a + b : ℕ) := by
  rcases hx.cases_natCast with ⟨rfl, s, hx'⟩ | ⟨ha, m₁, e₁, h₁, hx', hv₁⟩ <;>
    rcases hy.cases_natCast with ⟨rfl, s', hy'⟩ | ⟨hb, m₂, e₂, h₂, hy', hv₂⟩
  · have hsum : (x + y).toModel =
        .pack (UnpackedFloat.add _ x.toModel.unpack y.toModel.unpack) := rfl
    rw [hx', hy', UnpackedFloat.add, ← apply_ite UnpackedFloat.zero] at hsum
    exact of_pack_zero hsum
  · rwa [zero_add, add_eq_of_unpack (z := y) (by rw [hx', hy']; rfl)]
  · rwa [add_zero, add_eq_of_unpack (z := x) (by rw [hx', hy']; rfl)]
  · have hrounded := Rounded.add hx' hy'
    rw [hv₁, hv₂, ← Nat.cast_add] at hrounded
    have hpos := Nat.add_pos_left ha b
    rw [hrounded.unique (by exact_mod_cast hpos) (rounded_ofNat hpos)]
    exact whole_ofNat h

theorem sub (hx : Whole x a) (hy : Whole y b) (hle : b ≤ a) (hlimit : a < 2 ^ 53) :
    Whole (x - y) (a - b : ℕ) := by
  have hdiff : (x - y).toModel =
      .pack (UnpackedFloat.sub _ x.toModel.unpack y.toModel.unpack) := rfl
  rcases hx.cases_natCast with ⟨rfl, s, hx'⟩ | ⟨ha, m₁, e₁, h₁, hx', hv₁⟩ <;>
    rcases hy.cases_natCast with ⟨rfl, s', hy'⟩ | ⟨hb, m₂, e₂, h₂, hy', hv₂⟩
  · rw [hx', hy', UnpackedFloat.sub, ← apply_ite UnpackedFloat.zero] at hdiff
    exact of_pack_zero hdiff
  · omega
  · rwa [Nat.sub_zero, sub_eq_of_unpack (z := x) (by rw [hx', hy']; rfl)]
  · rcases hle.eq_or_lt with rfl | hlt
    · obtain rfl : x = y := (hx.eq_ofNat hb).trans (hy.eq_ofNat hb).symm
      rw [hx', UnpackedFloat.sub] at hdiff
      dsimp only at hdiff
      rw [Int.sub_self] at hdiff
      rw [Nat.sub_self]
      exact of_pack_zero hdiff
    · have hrounded := Rounded.sub hx' hy' (by rw [hv₁, hv₂]; exact_mod_cast hlt)
      rw [hv₁, hv₂, ← Nat.cast_sub hle] at hrounded
      have hpos := Nat.sub_pos_of_lt hlt
      rw [hrounded.unique (by exact_mod_cast hpos) (rounded_ofNat hpos)]
      exact whole_ofNat ((Nat.sub_le a b).trans_lt hlimit)

end Whole

theorem whole_neg_one : Whole (-1) (-1) := whole_neg_ofNat (by norm_num : 1 < 2 ^ 53)

end LoxLang
