import Mathlib
/-!
# Doubles and their parts

A double is packed from a sign, a mantissa and an exponent and unpacked again. Unpacked mantissas are
full, unless the exponent is the least there is, and a full mantissa comes back as it was packed.
-/

namespace LoxLang

open Float.Model Float.Model.UnpackedFloat

theorem ofNat_ne_allOnes {n : ℕ} (h : ¬ 2 ^ Format.binary64.exponentBits ≤ n + 1) :
    BitVec.ofNat 11 n ≠ -1#11 := by
  have hlt : ¬ 2048 ≤ n + 1 := h
  intro heq
  have hmod : n % 2048 = 2047 := congrArg BitVec.toNat heq
  omega

/-- The first bit of a full mantissa, which is not written. -/
theorem toNat_one_append (b : BitVec 52) : (1#1 ++ b).toNat = 2 ^ 52 + b.toNat := by
  rw [BitVec.toNat_append, Nat.shiftLeft_eq, Nat.mul_comm, ← Nat.two_pow_add_eq_or_of_lt b.isLt]
  rfl

theorem log2_eq_of_bounds {m k : ℕ} (hlo : 2 ^ k ≤ m) (hhi : m < 2 ^ (k + 1)) : m.log2 = k := by
  rw [Nat.log2_eq_log_two]
  exact Nat.log_eq_of_pow_le_of_lt_pow hlo hhi

theorem pack_zero : (⟨.pack (.zero .positive)⟩ : Float) = 0 := by decide +kernel

theorem pack_infinity : (⟨.pack (.infinity .positive)⟩ : Float) = Float.inf := by decide +kernel

/-- A double is made of its parts. -/
theorem pack_unpack_toModel (x : Float) : (⟨.pack x.toModel.unpack⟩ : Float) = x := by
  obtain ⟨⟨⟨b⟩, hb⟩⟩ := x
  have hpack : UnpackedFloat.pack Format.binary64 (UnpackedFloat.unpack Format.binary64 b) = b :=
    pack_unpack_of_valid hb
  simp only [Float.Model.pack, Float.Model.unpack, hpack]

/-! ## Full mantissas -/

section Full

variable {m : ℕ} {e : ℤ}

theorem pack_full (s : Sign) (hm : 0 < m) (hlog : m.log2 = 52) (hlo : -1074 ≤ e) (hhi : e ≤ 971) :
    UnpackedFloat.pack Format.binary64 (.finite s m e hm) =
      packComponents Format.binary64 s (BitVec.ofNat 11 (e + 1075).toNat) (BitVec.ofNat 52 m) := by
  have hfinite : ¬ 2 ^ Format.binary64.exponentBits ≤ (e + 1075).toNat + 1 := by
    change ¬ 2048 ≤ _
    omega
  have hexp : (e + Format.binary64.exponentBias + Format.binary64.mantissaBitsWithoutImplicit).toNat
      = (e + 1075).toNat := by
    change (e + 1023 + 52).toNat = _
    congr 1
    ring
  rw [UnpackedFloat.pack]
  dsimp only
  rw [hexp, if_neg hfinite, if_pos (by rw [hlog]; rfl)]

/-- A double with a full mantissa has the parts that it was made of. -/
theorem unpack_pack (s : Sign) (hm : 0 < m) (hlog : m.log2 = 52) (hlo : -1074 ≤ e) (hhi : e ≤ 971) :
    (Float.Model.pack (.finite s m e hm)).unpack = .finite s m e hm := by
  have hle : 2 ^ 52 ≤ m := hlog ▸ Nat.log2_self_le hm.ne'
  have hlt : m < 2 ^ 53 := by
    have := @Nat.lt_log2_self m
    rwa [hlog] at this
  have hones : BitVec.ofNat 11 (e + 1075).toNat ≠ -1#11 := ofNat_ne_allOnes <| by
    change ¬ 2048 ≤ _
    omega
  have hzero : BitVec.ofNat 11 (e + 1075).toNat ≠ 0#11 := by
    intro h
    have := congrArg BitVec.toNat h
    simp at this
    omega
  have hmantissa : (1#1 ++ BitVec.ofNat 52 m).toNat = m := by
    rw [toNat_one_append, BitVec.toNat_ofNat]
    omega
  have hexponent : ((BitVec.ofNat 11 (e + 1075).toNat).toNat : ℤ) - ((1023 : ℕ) + (52 : ℕ)) = e := by
    rw [BitVec.toNat_ofNat]
    omega
  change UnpackedFloat.unpack Format.binary64 (UnpackedFloat.pack Format.binary64 _) = _
  rw [pack_full s hm hlog hlo hhi, UnpackedFloat.unpack]
  simp only [unpackExponent_packComponents, unpackMantissa_packComponents, unpackSign_packComponents,
    Sign.ofBitVec_toBitVec]
  rw [if_neg hones, if_neg hzero]
  congr 1

/-- The mantissa of a double is full, unless the exponent is the least there is. -/
theorem unpack_canonical {x : Float.Model} {s : Sign} {hm : 0 < m}
    (h : x.unpack = .finite s m e hm) : max (m.log2 + e - 52) (-1074) = e := by
  change UnpackedFloat.unpack Format.binary64 _ = _ at h
  rw [UnpackedFloat.unpack] at h
  dsimp only at h
  split at h
  · split at h <;> cases h
  have hlt : (@unpackMantissa Format.binary64 x.toBits.toBitVec).toNat < 2 ^ 52 :=
    BitVec.isLt _
  split at h
  · next hzero =>
    split at h
    · cases h
    · cases h
      have hlog := (Nat.log2_lt hm.ne').2 hlt
      have hexponent : ((BitVec.toNat 0#11 : ℕ) : ℤ) -
          ((Format.binary64.exponentBias : ℤ) + ((52 : ℕ) : ℤ)) + 1 = -1074 := by
        decide
      rw [hzero, hexponent]
      omega
  · next hzero =>
    cases h
    have hpos : 0 < (@unpackExponent Format.binary64 x.toBits.toBitVec).toNat :=
      Nat.pos_of_ne_zero fun h => hzero (BitVec.eq_of_toNat_eq h)
    have hfull := toNat_one_append (@unpackMantissa Format.binary64 x.toBits.toBitVec)
    have hlog : (1#1 ++ @unpackMantissa Format.binary64 x.toBits.toBitVec).toNat.log2 = 52 :=
      log2_eq_of_bounds (hfull ▸ Nat.le_add_right _ _) (by rw [hfull]; omega)
    have hbias : (Format.binary64.exponentBias : ℤ) = 1023 := by decide
    rw [hlog, hbias]
    omega

end Full

/-! ## Doubles without a sign -/

/-- The doubles that numerals can stand for. -/
inductive Unsigned : Float → Prop
  | zero : Unsigned 0
  | finite {x : Float} {m : ℕ} {e : ℤ} {hm : 0 < m} :
      x.toModel.unpack = .finite .positive m e hm → Unsigned x
  | infinity : Unsigned Float.inf

theorem unsigned_packComponents {e : BitVec 11} (he : e ≠ -1#11) (m : BitVec 52) {x : Float}
    (hx : x.toModel.unpack =
      UnpackedFloat.unpack Format.binary64 (packComponents Format.binary64 .positive e m)) :
    Unsigned x := by
  rw [UnpackedFloat.unpack] at hx
  simp only [unpackExponent_packComponents, unpackMantissa_packComponents,
    unpackSign_packComponents, Sign.ofBitVec_toBitVec, if_neg he] at hx
  split at hx
  · split at hx
    · rw [← pack_unpack_toModel x, hx, pack_zero]
      exact .zero
    · exact .finite hx
  · exact .finite hx

/-- Whatever its mantissa and its exponent are, what is packed is a double. -/
theorem unsigned_pack {m : ℕ} {e : ℤ} (hm : 0 < m) :
    Unsigned ⟨.pack (.finite .positive m e hm)⟩ := by
  by_cases hlarge : 2 ^ Format.binary64.exponentBits ≤
      (e + Format.binary64.exponentBias + Format.binary64.mantissaBitsWithoutImplicit).toNat + 1
  · have hinfinity : Float.Model.pack (.finite .positive m e hm) = .pack (.infinity .positive) := by
      simp only [Float.Model.pack, UnpackedFloat.pack, if_pos hlarge]
    rw [hinfinity, pack_infinity]
    exact .infinity
  · have hones := ofNat_ne_allOnes hlarge
    by_cases hlog : m.log2 + 1 = Format.binary64.mantissaBits
    · refine unsigned_packComponents hones (BitVec.ofNat 52 m) ?_
      change UnpackedFloat.unpack _ (UnpackedFloat.pack _ _) = _
      simp only [UnpackedFloat.pack, if_neg hlarge, if_pos hlog]
    · refine unsigned_packComponents (e := 0#11) (by decide) (BitVec.ofNat 52 m) ?_
      change UnpackedFloat.unpack _ (UnpackedFloat.pack _ _) = _
      simp only [UnpackedFloat.pack, if_neg hlarge, if_neg hlog]

end LoxLang
