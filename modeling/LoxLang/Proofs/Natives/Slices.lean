import LoxLang.Machine.Operators
import LoxLang.Proofs.Decimal.Whole
/-!
# Searching and slicing

A slice of a text is what stands between a part in front of it and a part behind it. Searching
finds the first slice that is the target, and a slice of a slice is a slice.
-/

namespace LoxLang

namespace Native

/-! ## Indices -/

section Indices

variable {n : Native} {vs : List Value} {i : ℕ} {x : Float}

/-- An index is cut off to a whole number. -/
theorem indexArgument_exact {e : Exact} (h : vs[i]? = some (.number x))
    (hx : Exact.ofFloat? x = some e) : n.indexArgument vs i = .ok (towardZero e.value) := by
  rw [indexArgument, h]
  dsimp only
  rw [hx]
  exact congrArg Except.ok e.truncate_eq

theorem indexArgument_whole {k : ℤ} (h : vs[i]? = some (.number x)) (hx : Whole x k) :
    n.indexArgument vs i = .ok k := by
  obtain ⟨e, he, hv⟩ := hx
  rw [indexArgument_exact h he, hv, towardZero_intCast]

end Indices

/-! ## Slices of lists of characters -/

section Lists

variable {cs ds es target : List Char} {a n b m : ℤ} {i : ℕ}

/-- The slice is the text between what is in front of it and what is behind it. -/
theorem slice?_eq_some_iff : slice? cs a n = some ds ↔
    ∃ front behind, cs = front ++ (ds ++ behind) ∧ front.length = a ∧ ds.length = n := by
  unfold slice?
  constructor
  · intro h
    split at h
    · cases h
    · next hin =>
      cases h
      refine ⟨cs.take a.toNat, (cs.drop a.toNat).drop n.toNat, ?_, ?_, ?_⟩
      · rw [List.take_append_drop, List.take_append_drop]
      · rw [List.length_take]
        omega
      · rw [List.length_take, List.length_drop]
        omega
  · rintro ⟨front, behind, rfl, rfl, rfl⟩
    rw [if_neg (by simp only [List.length_append]; omega), Int.toNat_natCast, Int.toNat_natCast,
      List.drop_left, List.take_left]

theorem exists_slice?_iff :
    (∃ ds, slice? cs a n = some ds) ↔ 0 ≤ a ∧ 0 ≤ n ∧ a + n ≤ cs.length := by
  unfold slice?
  split
  · next h => exact ⟨fun ⟨_, hnone⟩ => (nomatch hnone), fun _ => by omega⟩
  · next h => exact ⟨fun _ => by omega, fun _ => ⟨_, rfl⟩⟩

theorem length_of_slice? (h : slice? cs a n = some ds) : ds.length = n := by
  obtain ⟨_, _, _, _, hn⟩ := slice?_eq_some_iff.1 h
  exact hn

/-- A slice of a slice is a slice of the whole. -/
theorem slice?_of_slice? (h : slice? cs a n = some ds) (h' : slice? ds b m = some es) :
    slice? cs (a + b) m = some es := by
  obtain ⟨front, behind, rfl, rfl, -⟩ := slice?_eq_some_iff.1 h
  obtain ⟨front', behind', rfl, rfl, rfl⟩ := slice?_eq_some_iff.1 h'
  exact slice?_eq_some_iff.2 ⟨front ++ front', behind' ++ behind, by simp, by simp, rfl⟩

/-- The slices in front of a place and behind it make up the whole. -/
theorem slice?_split (h : i ≤ cs.length) :
    slice? cs 0 i = some (cs.take i) ∧
      slice? cs i (cs.length - i : ℕ) = some (cs.drop i) := by
  refine ⟨slice?_eq_some_iff.2 ⟨[], cs.drop i, ?_, rfl, ?_⟩,
    slice?_eq_some_iff.2 ⟨cs.take i, [], ?_, ?_, ?_⟩⟩
  · rw [List.nil_append, List.take_append_drop]
  · rw [List.length_take_of_le h]
  · rw [List.append_nil, List.take_append_drop]
  · rw [List.length_take_of_le h]
  · rw [List.length_drop]

/-! ## Searching -/

theorem slice?_zero_iff : slice? cs 0 target.length = some target ↔ target <+: cs := by
  rw [slice?_eq_some_iff]
  constructor
  · rintro ⟨front, behind, rfl, hfront, -⟩
    obtain rfl : front = [] := List.length_eq_zero_iff.1 (by omega)
    exact ⟨behind, rfl⟩
  · rintro ⟨behind, rfl⟩
    exact ⟨[], behind, rfl, rfl, rfl⟩

theorem slice?_cons_succ {c : Char} : slice? (c :: cs) (i + 1 : ℕ) n = slice? cs i n := by
  unfold slice?
  have hiff : ((i + 1 : ℕ) : ℤ) < 0 ∨ n < 0 ∨ ((c :: cs).length : ℤ) < (i + 1 : ℕ) + n ↔
      (i : ℤ) < 0 ∨ n < 0 ∨ (cs.length : ℤ) < i + n := by
    rw [List.length_cons]
    omega
  simp only [hiff, Int.toNat_natCast, List.drop_succ_cons]

theorem isPrefix_of_slice? (h : slice? cs 0 n = some target) : target <+: cs :=
  slice?_zero_iff.1 (length_of_slice? h ▸ h)

/-- A target that the text starts with is a slice there, and no slice is in front of that. -/
theorem slice?_of_isPrefixOf (h : target.isPrefixOf cs) :
    slice? cs (0 : ℕ) target.length = some target ∧
      ∀ j n, slice? cs j n = some target → ((0 : ℕ) : ℤ) ≤ j :=
  ⟨slice?_zero_iff.2 (List.isPrefixOf_iff_prefix.1 h), fun _ _ hj =>
    (exists_slice?_iff.1 ⟨_, hj⟩).1⟩

/-- The target is found where the first slice is that is the target. -/
theorem slice?_of_firstIndex? (h : firstIndex? target cs = some i) :
    slice? cs i target.length = some target ∧
      ∀ j n, slice? cs j n = some target → (i : ℤ) ≤ j := by
  induction cs generalizing i with
  | nil =>
    rw [firstIndex?] at h
    split at h
    · next hp =>
      cases h
      exact slice?_of_isPrefixOf hp
    · cases h
  | cons c cs ih =>
    rw [firstIndex?] at h
    split at h
    · next hp =>
      cases h
      exact slice?_of_isPrefixOf hp
    · next hp =>
      obtain ⟨i, hi, rfl⟩ := Option.map_eq_some_iff.1 h
      obtain ⟨hat, hfirst⟩ := ih hi
      refine ⟨slice?_cons_succ.trans hat, fun j n hj => ?_⟩
      obtain ⟨j, rfl⟩ := Int.eq_ofNat_of_zero_le (exists_slice?_iff.1 ⟨_, hj⟩).1
      cases j with
      | zero => exact absurd (List.isPrefixOf_iff_prefix.2 (isPrefix_of_slice? hj)) hp
      | succ j =>
        have := hfirst j n (slice?_cons_succ.symm.trans hj)
        omega

/-- A target that is not found is no slice. -/
theorem slice?_ne_of_firstIndex? (h : firstIndex? target cs = none) (j n : ℤ) :
    slice? cs j n ≠ some target := by
  intro hj
  obtain ⟨j, rfl⟩ := Int.eq_ofNat_of_zero_le (exists_slice?_iff.1 ⟨_, hj⟩).1
  induction cs generalizing j with
  | nil =>
    rw [firstIndex?] at h
    split at h
    · cases h
    · next hp =>
      have hempty : (0 : ℤ) ≤ j ∧ 0 ≤ n ∧ j + n ≤ 0 := exists_slice?_iff.1 ⟨_, hj⟩
      obtain rfl : j = 0 := by omega
      exact hp (List.isPrefixOf_iff_prefix.2 (isPrefix_of_slice? hj))
  | cons c cs ih =>
    rw [firstIndex?] at h
    split at h
    · cases h
    · next hp =>
      cases j with
      | zero => exact hp (List.isPrefixOf_iff_prefix.2 (isPrefix_of_slice? hj))
      | succ j => exact ih (Option.map_eq_none_iff.1 h) j (slice?_cons_succ.symm.trans hj)

end Lists

/-! ## Slices of texts -/

/-- The slice of a text, or the complaint that there is none. -/
def sliced (s : String) (a n : ℤ) : Except NativeError Value :=
  match slice? s.toList a n with
  | some part => .ok (.string (String.ofList part))
  | none => .error (.rejected (.outOfBounds a (a + n) s.length))

section Texts

variable {r : Float} {s t : String} {x y : Float} {a n b m : ℤ} {i : ℕ} {v : Value}

theorem sliced_ok_iff : sliced s a n = .ok v ↔
    ∃ part, slice? s.toList a n = some part ∧ v = .string (String.ofList part) := by
  unfold sliced
  split
  · next part h => simp [h, eq_comm]
  · next h => simp [h]

theorem sliced_string_iff :
    sliced s a n = .ok (.string t) ↔ slice? s.toList a n = some t.toList := by
  rw [sliced_ok_iff]
  constructor
  · rintro ⟨part, h, ht⟩
    cases ht
    rwa [String.toList_ofList]
  · intro h
    exact ⟨_, h, by rw [String.ofList_toList]⟩

/-- Where a slice starts and how long it is are cut off to whole numbers. -/
theorem substring_apply {e f : Exact} (hx : Exact.ofFloat? x = some e)
    (hy : Exact.ofFloat? y = some f) :
    substring.apply r [.string s, .number x, .number y] =
      sliced s (towardZero e.value) (towardZero f.value) := by
  rw [apply, indexArgument_exact (i := 1) rfl hx, indexArgument_exact (i := 2) rfl hy]
  change (match slice? s.toList (towardZero e.value) (towardZero f.value) with
    | some part => _
    | none => _) = _
  unfold sliced
  split <;> rfl

theorem substring_whole (hx : Whole x a) (hy : Whole y n) :
    substring.apply r [.string s, .number x, .number y] = sliced s a n := by
  obtain ⟨e, he, hv⟩ := hx
  obtain ⟨f, hf, hw⟩ := hy
  rw [substring_apply he hf, hv, hw, towardZero_intCast, towardZero_intCast]

theorem strlen_apply : strlen.apply r [.string s] = .ok (.number (Float.ofNat s.length)) := rfl

theorem indexof_apply : indexof.apply r [.string s, .string t] =
    .ok (.number (match firstIndex? t.toList s.toList with
      | some i => Float.ofNat i
      | none => -1)) := by
  rw [apply]
  change (match firstIndex? t.toList s.toList with
    | some i => _
    | none => _) = _
  split <;> rfl

/-- Whatever a slice is asked for with, it is a slice of the text. -/
theorem substring_ok {v w u : Value} (h : substring.apply r [.string s, v, w] = .ok u) :
    ∃ a n, sliced s a n = .ok u := by
  obtain ⟨_, hs, h⟩ := ok_of_bind h
  cases hs
  obtain ⟨a, -, h⟩ := ok_of_bind h
  obtain ⟨n, -, h⟩ := ok_of_bind h
  split at h
  · next part hpart =>
    cases h
    exact ⟨a, n, sliced_ok_iff.2 ⟨part, hpart, rfl⟩⟩
  · cases h

theorem firstIndex?_le (h : firstIndex? t.toList s.toList = some i) : i + t.length ≤ s.length := by
  obtain ⟨-, -, hle⟩ := exists_slice?_iff.1 ⟨_, (slice?_of_firstIndex? h).1⟩
  simp only [String.length_toList] at hle
  omega

end Texts

/-! ## The laws of searching and slicing -/

/-- What searching a text for another one and slicing it have to do with each other. Lengths and
places are given as doubles, and doubles count up to `2 ^ 53` only: where a law computes with them,
the text must not be longer. -/
structure SliceLaws (r : Float) (s t : String) : Prop where
  /-- A length is the number of characters. -/
  length : ∃ l, strlen.apply r [.string s] = .ok (.number l) ∧
    (s.length < 2 ^ 53 → Whole l s.length)
  /-- Searching gives a whole number that is not less than `-1`. -/
  place : s.length < 2 ^ 53 →
    ∃ x i, indexof.apply r [.string s, .string t] = .ok (.number x) ∧ Whole x i ∧ -1 ≤ i
  /-- What is found is a slice that is the target, and no slice in front of it is. -/
  found : s.length < 2 ^ 53 → ∀ x i l, indexof.apply r [.string s, .string t] = .ok (.number x) →
    Whole x i → 0 ≤ i → strlen.apply r [.string t] = .ok (.number l) →
    substring.apply r [.string s, .number x, .number l] = .ok (.string t) ∧
      ∀ y j, Whole y j → j < i →
        substring.apply r [.string s, .number y, .number l] ≠ .ok (.string t)
  /-- What is not found is no slice, whatever is asked for. -/
  missing : ∀ x, indexof.apply r [.string s, .string t] = .ok (.number x) →
    Whole x (-1) → ∀ v w, substring.apply r [.string s, v, w] ≠ .ok (.string t)
  /-- Fractions are cut off. -/
  fraction : ∀ x y e f, Exact.ofFloat? x = some e → Exact.ofFloat? y = some f →
    (∃ x' y', Whole x' (towardZero e.value) ∧ Whole y' (towardZero f.value)) ∧
      ∀ x' y', Whole x' (towardZero e.value) → Whole y' (towardZero f.value) →
        substring.apply r [.string s, .number x, .number y] =
          substring.apply r [.string s, .number x', .number y']
  /-- There is a slice just where the text reaches that far. -/
  slice : ∀ x y a n, Whole x a → Whole y n →
    ((∃ v, substring.apply r [.string s, .number x, .number y] = .ok v) ↔
      0 ≤ a ∧ 0 ≤ n ∧ a + n ≤ s.length)
  /-- A slice is a text that is as long as was asked for. -/
  sliceLength : ∀ x y a n v, Whole x a → Whole y n →
    substring.apply r [.string s, .number x, .number y] = .ok v →
    ∃ u l, v = .string u ∧ strlen.apply r [.string u] = .ok (.number l) ∧ Whole l n
  /-- What is in front of a place and what is behind it add up to the text. -/
  split : s.length < 2 ^ 53 → ∀ z x a l, Whole z 0 → Whole x a → 0 ≤ a → a ≤ s.length →
    strlen.apply r [.string s] = .ok (.number l) →
    ∃ u w, substring.apply r [.string s, .number z, .number x] = .ok u ∧
      substring.apply r [.string s, .number x, .number (l - x)] = .ok w ∧
      addition u w = .ok (.string s)
  /-- A slice of a slice is a slice. -/
  nested : s.length < 2 ^ 53 → ∀ x y z w a n b m u v, Whole x a → Whole y n → Whole z b →
    Whole w m → substring.apply r [.string s, .number x, .number y] = .ok u →
    substring.apply r [u, .number z, .number w] = .ok v →
    substring.apply r [.string s, .number (x + z), .number w] = .ok v

section Laws

variable {r : Float} {s t : String} {x y z w l : Float} {a b m n i j : ℤ} {u v : Value}

theorem firstIndex?_of_nonneg (hs : s.length < 2 ^ 53)
    (h : indexof.apply r [.string s, .string t] = .ok (.number x)) (hx : Whole x i) (hi : 0 ≤ i) :
    ∃ k : ℕ, i = k ∧ firstIndex? t.toList s.toList = some k := by
  rw [indexof_apply, Except.ok.injEq, Value.number.injEq] at h
  split at h
  · next k hk =>
    have hle := firstIndex?_le hk
    exact ⟨k, hx.unique (h ▸ whole_ofNat (by omega)), hk⟩
  · have hneg := hx.unique (h ▸ whole_neg_one)
    omega

theorem firstIndex?_of_neg_one (h : indexof.apply r [.string s, .string t] = .ok (.number x))
    (hx : Whole x (-1)) : firstIndex? t.toList s.toList = none := by
  rw [indexof_apply, Except.ok.injEq, Value.number.injEq] at h
  split at h
  · next k hk =>
    have hunsigned : Unsigned x := h ▸ Decimal.toFloat_unsigned ⟨k, 0⟩
    exact absurd (hunsigned.whole_nonneg hx) (by decide)
  · next hk => exact hk

theorem exists_indexof (hs : s.length < 2 ^ 53) :
    ∃ x i, indexof.apply r [.string s, .string t] = .ok (.number x) ∧ Whole x i ∧ -1 ≤ i := by
  rw [indexof_apply]
  split
  · next k hk =>
    have hle := firstIndex?_le hk
    exact ⟨_, k, rfl, whole_ofNat (by omega), by omega⟩
  · exact ⟨_, -1, rfl, whole_neg_one, le_rfl⟩

theorem substring_of_indexof (hs : s.length < 2 ^ 53)
    (h : indexof.apply r [.string s, .string t] = .ok (.number x)) (hx : Whole x i) (hi : 0 ≤ i) :
    Whole (Float.ofNat t.length) t.length ∧ sliced s i t.length = .ok (.string t) ∧
      ∀ j < i, sliced s j t.length ≠ .ok (.string t) := by
  obtain ⟨k, rfl, hk⟩ := firstIndex?_of_nonneg hs h hx hi
  have hle := firstIndex?_le hk
  obtain ⟨hat, hfirst⟩ := slice?_of_firstIndex? hk
  rw [String.length_toList] at hat
  exact ⟨whole_ofNat (by omega), sliced_string_iff.2 hat, fun j hj hslice =>
    (hfirst j _ (sliced_string_iff.1 hslice)).not_gt hj⟩

/-- The parts in front of a place and behind it, of which the second is as long as a difference of
doubles says. -/
theorem substring_split (hs : s.length < 2 ^ 53) (hz : Whole z 0) (hx : Whole x a) (ha : 0 ≤ a)
    (hle : a ≤ s.length) :
    ∃ u w, substring.apply r [.string s, .number z, .number x] = .ok u ∧
      substring.apply r [.string s, .number x, .number (Float.ofNat s.length - x)] = .ok w ∧
      addition u w = .ok (.string s) := by
  obtain ⟨k, rfl⟩ := Int.eq_ofNat_of_zero_le ha
  have hk : k ≤ s.toList.length := by
    rw [String.length_toList]
    omega
  obtain ⟨hfront, hbehind⟩ := slice?_split hk
  have hrest : Whole (Float.ofNat s.length - x) (s.toList.length - k : ℕ) := by
    rw [String.length_toList]
    exact (whole_ofNat hs).sub hx (by omega) hs
  refine ⟨.string (String.ofList (s.toList.take k)), .string (String.ofList (s.toList.drop k)),
    ?_, ?_, ?_⟩
  · rw [substring_whole hz hx]
    exact sliced_ok_iff.2 ⟨_, hfront, rfl⟩
  · rw [substring_whole hx hrest]
    exact sliced_ok_iff.2 ⟨_, hbehind, rfl⟩
  · change Except.ok (Value.string
      (String.ofList (s.toList.take k) ++ String.ofList (s.toList.drop k))) = _
    rw [← String.ofList_append, List.take_append_drop, String.ofList_toList]

theorem substring_nested (hs : s.length < 2 ^ 53) (hx : Whole x a) (hy : Whole y n)
    (hz : Whole z b) (hw : Whole w m)
    (h : substring.apply r [.string s, .number x, .number y] = .ok u)
    (h' : substring.apply r [u, .number z, .number w] = .ok v) :
    substring.apply r [.string s, .number (x + z), .number w] = .ok v := by
  rw [substring_whole hx hy] at h
  obtain ⟨part, hpart, rfl⟩ := sliced_ok_iff.1 h
  rw [substring_whole hz hw] at h'
  obtain ⟨part', hpart', rfl⟩ := sliced_ok_iff.1 h'
  rw [String.toList_ofList] at hpart'
  have hsum : Whole (x + z) (a + b) := by
    obtain ⟨ha, -, hle⟩ := exists_slice?_iff.1 ⟨_, hpart⟩
    obtain ⟨hb, hm, hle'⟩ := exists_slice?_iff.1 ⟨_, hpart'⟩
    rw [length_of_slice? hpart] at hle'
    rw [String.length_toList] at hle
    obtain ⟨a, rfl⟩ := Int.eq_ofNat_of_zero_le ha
    obtain ⟨b, rfl⟩ := Int.eq_ofNat_of_zero_le hb
    exact_mod_cast hx.add hz (by omega)
  rw [substring_whole hsum hw]
  exact sliced_ok_iff.2 ⟨_, slice?_of_slice? hpart hpart', rfl⟩

end Laws

theorem sliceLaws (r : Float) (s t : String) : SliceLaws r s t where
  length := ⟨_, strlen_apply, whole_ofNat⟩
  place hs := exists_indexof hs
  found := by
    intro hs x i l h hx hi hl
    cases hl
    obtain ⟨hlength, hat, hfirst⟩ := substring_of_indexof hs h hx hi
    refine ⟨(substring_whole hx hlength).trans hat, fun y j hy hj hslice => ?_⟩
    exact hfirst j hj ((substring_whole hy hlength).symm.trans hslice)
  missing := by
    intro x h hx v w hslice
    obtain ⟨a, n, hsliced⟩ := substring_ok hslice
    exact slice?_ne_of_firstIndex? (firstIndex?_of_neg_one h hx) a n (sliced_string_iff.1 hsliced)
  fraction := by
    intro x y e f hx hy
    refine ⟨?_, fun x' y' hx' hy' => ?_⟩
    · obtain ⟨x', hx'⟩ := exists_whole_towardZero hx
      obtain ⟨y', hy'⟩ := exists_whole_towardZero hy
      exact ⟨x', y', hx', hy'⟩
    · rw [substring_apply hx hy, substring_whole hx' hy']
  slice := by
    intro x y a n hx hy
    rw [substring_whole hx hy, ← String.length_toList, ← exists_slice?_iff]
    constructor
    · rintro ⟨v, hv⟩
      obtain ⟨part, hpart, -⟩ := sliced_ok_iff.1 hv
      exact ⟨part, hpart⟩
    · rintro ⟨part, hpart⟩
      exact ⟨_, sliced_ok_iff.2 ⟨part, hpart, rfl⟩⟩
  sliceLength := by
    intro x y a n v hx hy h
    rw [substring_whole hx hy] at h
    obtain ⟨part, hpart, rfl⟩ := sliced_ok_iff.1 h
    refine ⟨_, _, rfl, strlen_apply, ?_⟩
    obtain rfl := length_of_slice? hpart
    rw [String.length_ofList]
    exact hy.ofNat_self
  split := by
    intro hs z x a l hz hx ha hle hl
    cases hl
    exact substring_split hs hz hx ha hle
  nested := by
    intro hs x y z w a n b m u v hx hy hz hw h h'
    exact substring_nested hs hx hy hz hw h h'

/-- A target that occurs twice, and the two occurrences overlap. -/
theorem sliceLaws_overlapping :
    indexof.apply 0 [.string "banana", .string "ana"] = .ok (.number 1) ∧
      substring.apply 0 [.string "banana", .number 1, .number 3] = .ok (.string "ana") ∧
      substring.apply 0 [.string "banana", .number (1 + 1), .number 2] = .ok (.string "na") := by
  have hlaws := sliceLaws 0 "banana" "ana"
  have hone : Whole 1 1 := whole_ofNat (n := 1) (by norm_num)
  have htwo : Whole 2 2 := whole_ofNat (n := 2) (by norm_num)
  have hthree : Whole 3 3 := whole_ofNat (n := 3) (by norm_num)
  have hfound := (hlaws.found (by decide) 1 1 3 rfl hone (by norm_num) rfl).1
  exact ⟨rfl, hfound, hlaws.nested (by decide) 1 3 1 2 1 3 1 2 _ _ hone hthree hone htwo hfound rfl⟩

end Native

end LoxLang
