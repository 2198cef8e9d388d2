import LoxLang.Decimal.Layout
import LoxLang.Text.Numeral
import LoxLang.Token.Scan
import LoxLang.Proofs.Decimal.Nearest
/-!
# Number texts that read back

What a layout writes for a decimal is a numeral of the same amount, and the decimal that is laid out
for a double reads as that double. So every finite double that is not negative reads back from its
literal.
-/

namespace LoxLang

/-- What can follow a word in prefix form: nothing, a blank or a closing parenthesis. -/
def Boundary (rest : List Char) : Prop := ∀ c ∈ rest.head?, c = ' ' ∨ c = ')'

/-- A text of ASCII digits. -/
def AllDigits (cs : List Char) : Prop := ∀ c ∈ cs, c.isDigit

/-! ## Runs of digits -/

theorem digitValue?_of_isDigit {c : Char} (h : c.isDigit) :
    digitValue? c = some (c.toNat - '0'.toNat) := by
  have hc : 48 ≤ c.toNat ∧ c.toNat < 58 := by
    simp only [Char.isDigit, Bool.and_eq_true, decide_eq_true_eq] at h
    exact ⟨h.1, Nat.lt_succ_of_le h.2⟩
  unfold digitValue? digitZeros
  rw [List.find?_cons_of_pos (by simpa using hc)]
  rfl

/-- A text of digits of any script, with their values. -/
def Digits (cs : List Char) (ds : List ℕ) : Prop :=
  List.Forall₂ (fun c d => digitValue? c = some d) cs ds

theorem AllDigits.digits {cs : List Char} (h : AllDigits cs) : Digits cs (Item.digitValues cs) := by
  induction cs with
  | nil => exact .nil
  | cons c cs ih =>
    exact .cons (digitValue?_of_isDigit (h c (by simp))) (ih fun d hd => h d (by simp [hd]))

/-- A run of digits is taken up to the first character that is none. -/
theorem takeDigits_append {cs rest : List Char} {ds : List ℕ} (h : Digits cs ds)
    (hrest : ∀ c ∈ rest.head?, digitValue? c = none) : takeDigits (cs ++ rest) = (ds, rest) := by
  induction h with
  | nil =>
    cases rest with
    | nil => rfl
    | cons c rest =>
      rw [List.nil_append, takeDigits, hrest c rfl]
  | cons hc _ ih => rw [List.cons_append, takeDigits, hc, ih]

/-- What is taken as digits are digits, and what follows them is none. -/
theorem takeDigits_eq {cs rest : List Char} {ds : List ℕ} (h : takeDigits cs = (ds, rest)) :
    ∃ digits, cs = digits ++ rest ∧ Digits digits ds ∧ ∀ c ∈ rest.head?, digitValue? c = none := by
  induction cs generalizing ds with
  | nil =>
    cases h
    exact ⟨[], rfl, .nil, by simp⟩
  | cons c cs ih =>
    rw [takeDigits] at h
    split at h
    · next d hd =>
      cases h
      obtain ⟨digits, hcs, hdigits, hrest⟩ := ih rfl
      exact ⟨c :: digits, by rw [List.cons_append, ← hcs], .cons hd hdigits, hrest⟩
    · next hc =>
      cases h
      refine ⟨[], rfl, .nil, fun d hd => ?_⟩
      cases hd
      exact hc

theorem foldl_digitValues (cs : List Char) :
    (Item.digitValues cs).foldl (fun n d => 10 * n + d) 0 = Nat.ofDigitChars 10 cs 0 := by
  rw [Nat.ofDigitChars_eq_foldl, Item.digitValues, List.foldl_map]

theorem ofDigits_digitValues (whole fraction : List Char) (e : ℤ) :
    Decimal.ofDigits (Item.digitValues whole) (Item.digitValues fraction) e =
      ⟨Nat.ofDigitChars 10 (whole ++ fraction) 0, e - fraction.length⟩ := by
  rw [Decimal.ofDigits, Item.digitValues, Item.digitValues, ← List.map_append]
  change Decimal.mk ((Item.digitValues (whole ++ fraction)).foldl _ 0) _ = _
  rw [foldl_digitValues, List.length_map]

theorem Boundary.digitValue? {rest : List Char} (h : Boundary rest) :
    ∀ c ∈ rest.head?, digitValue? c = none := by
  intro c hc
  rcases h c hc with rfl | rfl <;> decide

/-! ## Numerals -/

/-- A text that reads as the given decimal wherever a word of prefix form ends. -/
structure Numeral (cs : List Char) (d : Decimal) : Prop where
  head : ∃ c ∈ cs.head?, c.isDigit
  taken : ∀ {rest}, Boundary rest → takeNumeral? (cs ++ rest) = some (d, rest)

/-- The part of a numeral behind its point, with the point; there is none without digits. -/
def pointed (fraction : List Char) : List Char := if fraction = [] then [] else '.' :: fraction

theorem Digits.ne_nil {cs : List Char} {ds : List ℕ} (h : Digits cs ds) (hne : cs ≠ []) :
    ∃ d ds', ds = d :: ds' := by
  cases h with
  | nil => exact absurd rfl hne
  | cons _ _ => exact ⟨_, _, rfl⟩

/-- A numeral without an exponent is taken up to what is neither a digit nor a point. -/
theorem takePlain?_append {whole fraction rest : List Char} {ws fs : List ℕ} (hne : whole ≠ [])
    (hwhole : Digits whole ws) (hfraction : Digits fraction fs)
    (hrest : ∀ c ∈ rest.head?, digitValue? c = none ∧ c ≠ '.') :
    takePlain? (whole ++ pointed fraction ++ rest) = some (ws, fs, rest) := by
  obtain ⟨d, ds, rfl⟩ := hwhole.ne_nil hne
  have hdigit : ∀ c ∈ rest.head?, digitValue? c = none := fun c hc => (hrest c hc).1
  by_cases hf : fraction = []
  · rw [hf] at hfraction
    cases hfraction
    rw [hf, pointed, if_pos rfl, List.append_nil, takePlain?, takeDigits_append hwhole hdigit]
    split
    · next h => cases h
    · next h =>
      injection h with _ h
      exact absurd rfl (hrest '.' (by rw [h]; rfl)).2
    · next h =>
      cases h
      rfl
  · obtain ⟨f, fs, rfl⟩ := hfraction.ne_nil hf
    have hpoint : ∀ c ∈ ('.' :: (fraction ++ rest)).head?, digitValue? c = none := by
      rintro c hc
      obtain rfl : '.' = c := by simpa using hc
      decide
    rw [pointed, if_neg hf, List.append_assoc, List.cons_append, takePlain?,
      takeDigits_append hwhole hpoint]
    simp only [takeDigits_append hfraction hdigit]

/-- What is taken as a numeral without an exponent has digits, and more of them if it has a
point. -/
theorem takePlain?_eq_some {cs rest : List Char} {ws fs : List ℕ}
    (h : takePlain? cs = some (ws, fs, rest)) :
    ∃ whole fraction, cs = whole ++ pointed fraction ++ rest ∧ whole ≠ [] ∧ Digits whole ws ∧
      Digits fraction fs := by
  have hne : ∀ {digits : List Char} {ds : List ℕ}, Digits digits ds → ds ≠ [] → digits ≠ [] := by
    rintro digits ds hdigits hds rfl
    cases hdigits
    exact hds rfl
  rw [takePlain?] at h
  split at h
  · cases h
  · next whole rest hsome heq =>
    obtain ⟨digits, rfl, hdigits, -⟩ := takeDigits_eq heq
    have hdigits' := hne hdigits fun hds => hsome (by rw [← hds])
    split at h
    · cases h
      exact ⟨digits, [], by simp [pointed], hdigits', hdigits, .nil⟩
    · next fraction rest' hfraction heq' =>
      cases h
      obtain ⟨digits', rfl, hmore, -⟩ := takeDigits_eq heq'
      have hpointed : pointed digits' = '.' :: digits' :=
        if_neg (hne hmore fun hds => hfraction (by rw [← hds]))
      exact ⟨digits, digits', by simp [hpointed], hdigits', hdigits, hmore⟩
  · next whole rest hsome _ heq =>
    cases h
    obtain ⟨digits, rfl, hdigits, -⟩ := takeDigits_eq heq
    exact ⟨digits, [], by simp [pointed], hne hdigits fun hds => hsome (by rw [← hds]), hdigits,
      .nil⟩

theorem takeExponent_boundary {rest : List Char} (h : Boundary rest) :
    takeExponent rest = (0, rest) := by
  cases rest with
  | nil => rfl
  | cons c rest =>
    rcases h c rfl with rfl | rfl <;> rfl

/-- The sign of an exponent as it is written. -/
def exponentSign (e : ℤ) : Char := if e < 0 then '-' else '+'

theorem takeExponent_append {e : ℤ} {cs rest : List Char} (hne : cs ≠ []) (hcs : AllDigits cs)
    (hvalue : Nat.ofDigitChars 10 cs 0 = e.natAbs) (hrest : Boundary rest) :
    takeExponent ('e' :: exponentSign e :: (cs ++ rest)) = (e, rest) := by
  obtain ⟨d, ds, hds⟩ := hcs.digits.ne_nil hne
  have hdigits : digitsValue (d :: ds) = e.natAbs := by
    rw [← hds, digitsValue, foldl_digitValues, hvalue]
  have hdigit := hrest.digitValue?
  by_cases he : e < 0
  · rw [exponentSign, if_pos he]
    simp only [takeExponent, true_or, if_true, takeDigits_append hcs.digits hdigit, hds, hdigits]
    congr 1
    omega
  · rw [exponentSign, if_neg he]
    simp only [takeExponent, true_or, if_true, takeDigits_append hcs.digits hdigit, hds, hdigits]
    simp only [Bool.false_eq_true, if_false]
    congr 1
    omega

namespace Numeral

variable {whole fraction : List Char}

theorem head_append {cs : List Char} (hne : whole ≠ []) (hwhole : AllDigits whole) :
    ∃ c ∈ (whole ++ cs).head?, c.isDigit := by
  cases whole with
  | nil => exact absurd rfl hne
  | cons c whole => exact ⟨c, rfl, hwhole c (by simp)⟩

/-- Digits with a point among them, or none. -/
theorem positional (hne : whole ≠ []) (hwhole : AllDigits whole) (hfraction : AllDigits fraction) :
    Numeral (whole ++ pointed fraction)
      ⟨Nat.ofDigitChars 10 (whole ++ fraction) 0, -fraction.length⟩ where
  head := head_append hne hwhole
  taken := by
    intro rest hrest
    have hend : ∀ c ∈ rest.head?, digitValue? c = none ∧ c ≠ '.' := fun c hc =>
      ⟨hrest.digitValue? c hc, by rcases hrest c hc with rfl | rfl <;> decide⟩
    rw [takeNumeral?, takePlain?_append hne hwhole.digits hfraction.digits hend]
    simp only [Option.bind_eq_bind, Option.bind_some, takeExponent_boundary hrest,
      ofDigits_digitValues, zero_sub]
    rfl

/-- Digits with an exponent behind them. -/
theorem exponential (hne : whole ≠ []) (hwhole : AllDigits whole) (hfraction : AllDigits fraction)
    {e : ℤ} {cs : List Char} (hcs : cs ≠ []) (hdigits : AllDigits cs)
    (hvalue : Nat.ofDigitChars 10 cs 0 = e.natAbs) :
    Numeral (whole ++ pointed fraction ++ 'e' :: exponentSign e :: cs)
      ⟨Nat.ofDigitChars 10 (whole ++ fraction) 0, e - fraction.length⟩ where
  head := by
    rw [List.append_assoc]
    exact head_append hne hwhole
  taken := by
    intro rest hrest
    have hend : ∀ c ∈ ('e' :: exponentSign e :: (cs ++ rest)).head?,
        digitValue? c = none ∧ c ≠ '.' := by
      intro c hc
      obtain rfl : 'e' = c := by simpa using hc
      exact ⟨by decide, by decide⟩
    rw [takeNumeral?, List.append_assoc, List.cons_append, List.cons_append,
      takePlain?_append hne hwhole.digits hfraction.digits hend]
    simp only [Option.bind_eq_bind, Option.bind_some,
      takeExponent_append hcs hdigits hvalue hrest, ofDigits_digitValues]
    rfl

end Numeral

/-! ## Layouts -/

theorem AllDigits.append {cs ds : List Char} (hc : AllDigits cs) (hd : AllDigits ds) :
    AllDigits (cs ++ ds) := by
  intro c h
  rcases List.mem_append.1 h with h | h
  · exact hc c h
  · exact hd c h

theorem AllDigits.zeros (n : ℕ) : AllDigits (List.replicate n '0') := by
  intro c hc
  rw [List.eq_of_mem_replicate hc]
  rfl

theorem AllDigits.toDigits (n : ℕ) : AllDigits (Nat.toDigits 10 n) := fun _ h =>
  Nat.isDigit_of_mem_toDigits (by norm_num) le_rfl h

theorem ofDigitChars_padLeft (n : ℕ) (ds : List Char) :
    Nat.ofDigitChars 10 (Layout.padLeft n ds) 0 = Nat.ofDigitChars 10 ds 0 := by
  rw [Layout.padLeft, Nat.ofDigitChars_append, Nat.ofDigitChars_replicate_zero, mul_zero]

theorem ofDigitChars_zeros_right (ds : List Char) (n : ℕ) :
    Nat.ofDigitChars 10 (ds ++ List.replicate n '0') 0 = Nat.ofDigitChars 10 ds 0 * 10 ^ n := by
  rw [Nat.ofDigitChars_append, Nat.ofDigitChars_replicate_zero, mul_comm]

variable {ds : List Char} (hne : ds ≠ []) (hds : AllDigits ds) (e : ℤ)

include hne hds

/-- A number below one: zeros stand between the point and the digits. -/
theorem numeral_fraction {zeros : ℕ} :
    ∃ d, Numeral ('0' :: '.' :: (List.replicate zeros '0' ++ ds)) d ∧
      d.amount = Nat.ofDigitChars 10 ds 0 * 10 ^ (-(zeros + ds.length) : ℤ) := by
  have hfraction : AllDigits (List.replicate zeros '0' ++ ds) := (AllDigits.zeros _).append hds
  have hpoint : '0' :: '.' :: (List.replicate zeros '0' ++ ds) =
      ['0'] ++ pointed (List.replicate zeros '0' ++ ds) := by
    rw [pointed, if_neg (by simp [hne])]
    rfl
  have hcoefficient : Nat.ofDigitChars 10 (['0'] ++ (List.replicate zeros '0' ++ ds)) 0 =
      Nat.ofDigitChars 10 ds 0 := by
    have hzero : Nat.ofDigitChars 10 ['0'] 0 = 0 := rfl
    rw [Nat.ofDigitChars_append, Nat.ofDigitChars_append, Nat.ofDigitChars_replicate_zero, hzero,
      mul_zero]
  rw [hpoint]
  refine ⟨_, .positional (by simp) (AllDigits.zeros 1) hfraction, ?_⟩
  rw [Decimal.amount, hcoefficient, List.length_append, List.length_replicate]
  push_cast
  rfl

/-- A whole number: zeros fill up the places before the point. -/
theorem numeral_whole {zeros : ℕ} :
    ∃ d, Numeral (ds ++ List.replicate zeros '0' ++ ['.', '0']) d ∧
      d.amount = Nat.ofDigitChars 10 ds 0 * 10 ^ (zeros : ℤ) := by
  have hpoint : ['.', '0'] = pointed ['0'] := rfl
  have hzeros : ds ++ List.replicate zeros '0' ++ ['0'] = ds ++ List.replicate (zeros + 1) '0' := by
    rw [List.append_assoc, ← List.replicate_succ']
  have hpow : (10 : ℚ) ^ (zeros + 1) * 10 ^ (-1 : ℤ) = 10 ^ (zeros : ℤ) := by
    rw [← zpow_natCast, ← zpow_add₀ (by norm_num)]
    congr 1
    push_cast
    ring
  rw [hpoint]
  refine ⟨_, .positional (by simp [hne]) (hds.append (.zeros _)) (.zeros 1), ?_⟩
  rw [Decimal.amount, hzeros, ofDigitChars_zeros_right]
  push_cast
  rw [mul_assoc]
  exact congrArg _ hpow

/-- The point stands among the digits. -/
theorem numeral_split {size : ℕ} (hpos : 0 < size) (hsize : size < ds.length) :
    ∃ d, Numeral (ds.take size ++ '.' :: ds.drop size) d ∧
      d.amount = Nat.ofDigitChars 10 ds 0 * 10 ^ ((size : ℤ) - ds.length) := by
  have hfraction : ds.drop size ≠ [] := by
    rw [Ne, List.drop_eq_nil_iff]
    omega
  have hwhole : ds.take size ≠ [] := by
    rw [Ne, List.take_eq_nil_iff]
    rintro (h | h)
    · omega
    · exact hne h
  have hpoint : '.' :: ds.drop size = pointed (ds.drop size) := by rw [pointed, if_neg hfraction]
  rw [hpoint]
  refine ⟨_, .positional hwhole (fun c hc => hds c (List.mem_of_mem_take hc))
    (fun c hc => hds c (List.mem_of_mem_drop hc)), ?_⟩
  rw [Decimal.amount, List.take_append_drop, List.length_drop]
  dsimp only
  congr 2
  omega

/-- A positional text reads as the digits whose first one has the given exponent. -/
theorem numeral_plain : ∃ d, Numeral (Layout.plain ds e) d ∧
    d.amount = Nat.ofDigitChars 10 ds 0 * 10 ^ (e + 1 - ds.length) := by
  unfold Layout.plain
  split
  · next he =>
    have hexponent : e + 1 - (ds.length : ℤ) = -((-e - 1).toNat + ds.length) := by omega
    rw [hexponent]
    exact numeral_fraction hne hds
  · next he =>
    dsimp only
    by_cases hlong : ds.length ≤ e.toNat + 1
    · have hexponent : e + 1 - (ds.length : ℤ) = (e.toNat + 1 - ds.length : ℕ) := by omega
      rw [hexponent, List.take_of_length_le hlong, List.drop_of_length_le hlong, if_pos rfl]
      exact numeral_whole hne hds
    · have hexponent : e + 1 - (ds.length : ℤ) = ((e.toNat + 1 : ℕ) : ℤ) - ds.length := by omega
      have hnone : e.toNat + 1 - ds.length = 0 := by omega
      have hfraction : ds.drop (e.toNat + 1) ≠ [] := by
        rw [Ne, List.drop_eq_nil_iff]
        exact hlong
      rw [hexponent, hnone, List.replicate_zero, List.append_nil, if_neg hfraction]
      exact numeral_split hne hds (Nat.succ_pos _) (by omega)

theorem numeral_scientific (l : Layout) : ∃ d, Numeral (l.scientific ds e) d ∧
    d.amount = Nat.ofDigitChars 10 ds 0 * 10 ^ (e + 1 - ds.length) := by
  obtain ⟨d, rest, rfl⟩ := List.exists_cons_of_ne_nil hne
  have hfirst : AllDigits [d] := fun c hc => hds c (by simp_all)
  have hrest : AllDigits rest := fun c hc => hds c (by simp [hc])
  have hdigits : AllDigits (Layout.padLeft l.exponentDigits (Nat.toDigits 10 e.natAbs)) :=
    (AllDigits.zeros _).append (.toDigits _)
  have hvalue : Nat.ofDigitChars 10
      (Layout.padLeft l.exponentDigits (Nat.toDigits 10 e.natAbs)) 0 = e.natAbs := by
    rw [ofDigitChars_padLeft, Nat.ofDigitChars_ten_toDigits]
  have hexponent : Layout.padLeft l.exponentDigits (Nat.toDigits 10 e.natAbs) ≠ [] := by
    simp [Layout.padLeft, Nat.toDigits_ne_nil]
  refine ⟨_, .exponential (by simp) hfirst hrest hexponent hdigits hvalue, ?_⟩
  rw [Decimal.amount, List.singleton_append]
  congr 2
  push_cast [List.length_cons]
  ring

omit hne hds

/-- Only zeros are stripped off the end. -/
theorem stripped_append_zeros (cs : List Char) :
    ∃ k, cs = (cs.reverse.dropWhile (· == '0')).reverse ++ List.replicate k '0' := by
  have hzeros : ∀ c ∈ cs.reverse.takeWhile (· == '0'), c = '0' := fun c hc => by
    simpa using List.mem_takeWhile_imp hc
  have hsplit := congrArg List.reverse
    (List.takeWhile_append_dropWhile (p := (· == '0')) (l := cs.reverse))
  rw [List.reverse_append, List.reverse_reverse, List.eq_replicate_of_mem hzeros,
    List.reverse_replicate] at hsplit
  exact ⟨_, hsplit.symm⟩

/-- What a layout writes for a decimal reads as a decimal of the same amount. -/
theorem Layout.numeral_text (l : Layout) {d : Decimal} (hd : d.coefficient ≠ 0) :
    ∃ d', Numeral (l.text d) d' ∧ d'.amount = d.amount := by
  obtain ⟨k, hk⟩ := stripped_append_zeros (Nat.toDigits 10 d.coefficient)
  rw [Layout.text, if_neg hd]
  dsimp only
  -- Of the digits that are left, only their number and their value matter.
  generalize ((Nat.toDigits 10 d.coefficient).reverse.dropWhile (· == '0')).reverse = ds at hk ⊢
  have hcoefficient : Nat.ofDigitChars 10 ds 0 * 10 ^ k = d.coefficient := by
    rw [← ofDigitChars_zeros_right, ← hk, Nat.ofDigitChars_ten_toDigits]
  have hne : ds ≠ [] := by
    rintro rfl
    rw [Nat.ofDigitChars_nil, zero_mul] at hcoefficient
    exact hd hcoefficient.symm
  have hds : AllDigits ds := fun c hc =>
    AllDigits.toDigits d.coefficient c (by rw [hk]; exact List.mem_append_left _ hc)
  have hlength : (Nat.toDigits 10 d.coefficient).length = ds.length + k := by
    rw [hk, List.length_append, List.length_replicate]
  have hamount : ∀ e : ℤ, e = d.exponent + (Nat.toDigits 10 d.coefficient).length - 1 →
      (Nat.ofDigitChars 10 ds 0 * 10 ^ (e + 1 - ds.length) : ℚ) = d.amount := by
    rintro e rfl
    have hexponent : d.exponent + (Nat.toDigits 10 d.coefficient).length - 1 + 1 - ds.length =
        k + d.exponent := by
      rw [hlength]
      push_cast
      ring
    rw [hexponent, zpow_add₀ (by norm_num), zpow_natCast, ← mul_assoc, Decimal.amount]
    congr 1
    exact_mod_cast hcoefficient
  split
  · obtain ⟨d', hd', ha⟩ := numeral_plain hne hds _
    exact ⟨d', hd', ha.trans (hamount _ rfl)⟩
  · obtain ⟨d', hd', ha⟩ := numeral_scientific hne hds _ l
    exact ⟨d', hd', ha.trans (hamount _ rfl)⟩

/-! ## Shortest decimals -/

/-- All digits of a double make up the double. -/
theorem amount_full (m : ℕ) (e : ℤ) : (Exact.full ⟨false, m, e⟩).amount = m * 2 ^ e := by
  rw [Decimal.amount, Exact.full, Exact.numerator, Nat.pow_eq, Nat.pow_eq]
  dsimp only
  rcases le_total 0 e with he | he
  · obtain ⟨n, rfl⟩ := Int.eq_ofNat_of_zero_le he
    simp
  · obtain ⟨n, rfl⟩ : ∃ n : ℕ, e = -n := ⟨(-e).toNat, by omega⟩
    have hten : (10 : ℚ) ^ n = 5 ^ n * 2 ^ n := by rw [← mul_pow]; norm_num
    simp [hten]
    field_simp

/-- The shortest decimal of a double reads as the double. -/
theorem toFloat_shortest {x : Float} {m : ℕ} {e : ℤ} {hm : 0 < m}
    (hx : x.toModel.unpack = .finite .positive m e hm) :
    (Decimal.shortest ⟨false, m, e⟩ x).toFloat = x := by
  have hzero : x.toModel.unpack ≠ .zero .positive ∧ x.toModel.unpack ≠ .zero .negative := by
    rw [hx]
    exact ⟨nofun, nofun⟩
  have hback : ∀ d : Decimal, (d.toFloat == x) = true → d.toFloat = x := by
    intro d h
    obtain ⟨-, -, h | ⟨-, h⟩ | ⟨-, h⟩⟩ := Float.beq_iff_ne_nan_and_eq.1 h
    · exact h
    · exact absurd (by rw [h]; rfl) hzero.2
    · exact absurd (by rw [h]; rfl) hzero.1
  have hfull : (Exact.full ⟨false, m, e⟩).toFloat = x :=
    Decimal.toFloat_exact hx (amount_full m e)
  rw [Decimal.shortest, if_neg hm.ne']
  dsimp only
  cases hfind : (List.range 17).findSome? fun (n : ℕ) =>
    Exact.readingBack? ⟨false, m, e⟩ x (Exact.order ⟨false, m, e⟩ - (n : ℤ)) with
  | none => exact hfull
  | some d =>
    obtain ⟨n, -, hn⟩ := List.exists_of_findSome?_eq_some hfind
    exact hback d (by simpa using List.find?_some hn)

theorem coefficient_shortest_ne_zero {x : Float} {m : ℕ} {e : ℤ} {hm : 0 < m}
    (hx : x.toModel.unpack = .finite .positive m e hm) :
    (Decimal.shortest ⟨false, m, e⟩ x).coefficient ≠ 0 := by
  intro h
  have hzero : x = 0 := by
    rw [← toFloat_shortest hx, ← Decimal.toFloat_zero (Decimal.shortest ⟨false, m, e⟩ x).exponent,
      ← h]
  have hparts : (0 : Float).toModel.unpack = .zero .positive := rfl
  rw [hzero, hparts] at hx
  cases hx

/-! ## Literals -/

theorem numeral_toDigits (n : ℕ) : Numeral (Nat.toDigits 10 n) ⟨n, 0⟩ := by
  have h := @Numeral.positional (Nat.toDigits 10 n) [] Nat.toDigits_ne_nil (.toDigits n)
    (fun c hc => by simp at hc)
  rwa [pointed, if_pos rfl, List.append_nil, Nat.ofDigitChars_ten_toDigits] at h

/-- A whole double is its whole part. -/
theorem amount_wholePart {m : ℕ} {e : ℤ} (h : Exact.isWhole ⟨false, m, e⟩) :
    Decimal.amount ⟨Exact.wholePart ⟨false, m, e⟩, 0⟩ = m * 2 ^ e := by
  have hdvd : Exact.denominator ⟨false, m, e⟩ ∣ Exact.numerator ⟨false, m, e⟩ :=
    Nat.dvd_of_mod_eq_zero (eq_of_beq h)
  have hden : (Exact.denominator ⟨false, m, e⟩ : ℚ) ≠ 0 := by
    simp [Exact.denominator]
  rw [Decimal.amount, Exact.wholePart, Nat.cast_div hdvd hden, Exact.numerator, Exact.denominator]
  dsimp only
  rcases le_total 0 e with he | he
  · obtain ⟨n, rfl⟩ := Int.eq_ofNat_of_zero_le he
    simp
  · obtain ⟨n, rfl⟩ : ∃ n : ℕ, e = -n := ⟨(-e).toNat, by omega⟩
    simp [div_eq_mul_inv]

/-- The literal of infinity is a word. -/
theorem numberLiteral_inf : Value.numberLiteral Float.inf = "inf" := by decide +kernel

theorem Unsigned.eq_inf {x : Float} (hx : Unsigned x) (h : x.isInf) : x = Float.inf := by
  cases hx with
  | zero => exact absurd h (by decide +kernel)
  | infinity => rfl
  | finite hx =>
    rw [Float.isInf, Float.Model.isInf, hx] at h
    cases h

/-- The literal of every other double that numerals can stand for reads as that double. -/
theorem numeral_numberLiteral {x : Float} (hx : Unsigned x) (hfinite : ¬ x.isInf) :
    ∃ d, Numeral (Value.numberLiteral x).toList d ∧ d.toFloat = x := by
  cases hx with
  | zero => exact ⟨_, numeral_toDigits 0, Decimal.toFloat_zero 0⟩
  | infinity => exact absurd (by decide +kernel) hfinite
  | @finite _ m e hm hx =>
    have hexact : Exact.ofFloat? x = some ⟨false, m, e⟩ := by
      rw [Exact.ofFloat?, hx]
      rfl
    rw [Value.numberLiteral, hexact]
    dsimp only
    split
    · next hwhole =>
      refine ⟨_, ?_, Decimal.toFloat_exact hx (amount_wholePart hwhole)⟩
      change Numeral (intText (Exact.wholePart ⟨false, m, e⟩ : ℤ)).toList _
      rw [intText, if_neg (by omega), String.toList_ofList, Int.natAbs_natCast]
      exact numeral_toDigits _
    · obtain ⟨d, hd, ha⟩ := numberLayout.numeral_text (coefficient_shortest_ne_zero hx)
      rw [floatText, hexact]
      dsimp only
      rw [if_neg Bool.false_ne_true, if_neg Bool.false_ne_true, String.toList_ofList]
      exact ⟨d, hd, (Decimal.toFloat_congr ha).trans (toFloat_shortest hx)⟩

end LoxLang
