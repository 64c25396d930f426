import ToolScript.Proofs.Numbers.Packing

/-!
# Decimals are read by their value

A decimal is read as the double nearest to its value, whatever way the reading takes: with a
product or a quotient of doubles while both are exact, and with long integers otherwise. So two
decimals of the same value are read as the same double.
-/

namespace ToolScript.Number

open Float.Model Float.Model.UnpackedFloat

/-- A number with enough bits is approximated by itself. -/
theorem approximates_full {m : ℕ} (h : 2 ^ 52 ≤ m) (e : ℤ) :
    Approximates (m * 2 ^ e) m e .exact where
  represents := by
    rw [mul_div_cancel_right₀ _ (by positivity)]
    exact .exact m
  fine := by
    have hm : m ≠ 0 := by omega
    have hbits : (Format.binary64.mantissaBits : ℤ) = 53 := rfl
    have hlow : 52 ≤ m.log2 := (Nat.le_log2 hm).mpr h
    have hlog : Int.log 2 ((m : ℚ) * 2 ^ e) = m.log2 + e := by
      refine log_eq_of_bounds hm le_rfl ?_
      gcongr
      exact_mod_cast Nat.lt_succ_self m
    simp only [scale, hlog, Format.targetExponent]
    omega

theorem approximates_mul {m k : ℕ} (h : 2 ^ 52 ≤ m * k) (e f : ℤ) :
    Approximates (m * 2 ^ e * (k * 2 ^ f)) (m * k) (e + f) .exact := by
  have hvalue : (m : ℚ) * 2 ^ e * (k * 2 ^ f) = (m * k : ℕ) * 2 ^ (e + f) := by
    rw [zpow_add₀ two_ne_zero]
    push_cast
    ring
  rw [hvalue]
  exact approximates_full h _

/-- The size of a quotient is known up to one bit from those of its parts. -/
theorem log_quotient_ge {m k : ℕ} (hm : 0 < m) (hk : 0 < k) (e f : ℤ) :
    (m.log2 : ℤ) + e - (k.log2 + f + 1) ≤ Int.log 2 ((m : ℚ) * 2 ^ e / (k * 2 ^ f)) := by
  have hkpos : (0 : ℚ) < k := by exact_mod_cast hk
  have hmpos : (0 : ℚ) < m := by exact_mod_cast hm
  rw [← Int.zpow_le_iff_le_log one_lt_two (by positivity), le_div_iff₀ (by positivity)]
  have hlow : (2 : ℚ) ^ (m.log2 : ℤ) ≤ m := by
    rw [zpow_natCast]
    exact_mod_cast Nat.log2_self_le hm.ne'
  have hhigh : (k : ℚ) ≤ 2 ^ ((k.log2 : ℤ) + 1) := by
    rw [← Nat.cast_succ, zpow_natCast]
    exact_mod_cast Nat.lt_log2_self.le
  calc ((2 : ℕ) : ℚ) ^ ((m.log2 : ℤ) + e - (k.log2 + f + 1)) * (k * 2 ^ f)
      ≤ 2 ^ ((m.log2 : ℤ) + e - (k.log2 + f + 1)) * (2 ^ ((k.log2 : ℤ) + 1) * 2 ^ f) := by
        rw [Nat.cast_ofNat]
        gcongr
    _ = 2 ^ (m.log2 : ℤ) * 2 ^ e := by
        rw [← zpow_add₀ two_ne_zero, ← zpow_add₀ two_ne_zero, ← zpow_add₀ two_ne_zero]
        congr 1
        ring
    _ ≤ m * 2 ^ e := by gcongr

/-- The quotient that is computed before rounding has all the bits that rounding looks at. -/
theorem approximates_div {m k : ℕ} (hm : 0 < m) (hk : 0 < k) (e f : ℤ) :
    Approximates (m * 2 ^ e / (k * 2 ^ f)) (divCore Format.binary64 m e k f).1
      (divCore Format.binary64 m e k f).2.1 (divCore Format.binary64 m e k f).2.2 := by
  have hkpos : (0 : ℚ) < k := by exact_mod_cast hk
  have hmpos : (0 : ℚ) < m := by exact_mod_cast hm
  simp only [divCore]
  generalize htarget : min (e - f) (Format.binary64.targetExponent
    (totalExponent m e - totalExponent k f)) = target
  have hle : target ≤ e - f := htarget ▸ min_le_left _ _
  constructor
  · have hvalue : (m : ℚ) * 2 ^ e / (k * 2 ^ f) / 2 ^ target =
        ((m <<< (e - f - target).toNat : ℕ) : ℚ) / k := by
      have hshift : ((e - f - target).toNat : ℤ) = e - f - target := by omega
      rw [Nat.shiftLeft_eq, Nat.cast_mul, Nat.cast_pow, ← zpow_natCast, hshift,
        zpow_sub₀ (by norm_num), zpow_sub₀ (by norm_num)]
      push_cast
      field_simp
    rw [hvalue]
    exact .fraction _ _ hk
  · calc target ≤ Format.binary64.targetExponent (totalExponent m e - totalExponent k f) :=
          htarget ▸ min_le_right _ _
      _ ≤ scale (m * 2 ^ e / (k * 2 ^ f)) := by
          apply targetExponent_mono
          have hlog := log_quotient_ge hm hk e f
          simp only [totalExponent]
          omega

/-- The double has the given value, which is positive, and all the bits of a mantissa. -/
def Exactly (n : Float) (q : ℚ) : Prop :=
  ∃ (m : ℕ) (e : ℤ) (hm : 0 < m), n.toModel.unpack = .finite .positive m e hm ∧ 2 ^ 52 ≤ m ∧
    (m : ℚ) * 2 ^ e = q

theorem exactly_of_bits {n : Float} {field fraction : ℕ}
    (h : n.toBits.toNat = field * 2 ^ 52 + fraction) (hfield : 0 < field) (hfield' : field < 2047)
    (hfraction : fraction < 2 ^ 52) :
    Exactly n ((2 ^ 52 + fraction : ℕ) * 2 ^ ((field : ℤ) - 1075)) := by
  have hbits : n.toModel.toBits.toBitVec.toNat = field * 2 ^ 52 + fraction := h
  have hexponent : (@unpackExponent Format.binary64 n.toModel.toBits.toBitVec).toNat = field := by
    rw [toNat_unpackExponent, hbits]
    omega
  have hmantissa : (@unpackMantissa Format.binary64 n.toModel.toBits.toBitVec).toNat =
      fraction := by
    rw [toNat_unpackMantissa, hbits]
    omega
  have hsign : @unpackSign Format.binary64 n.toModel.toBits.toBitVec = 0#1 := by
    apply BitVec.eq_of_toNat_eq
    rw [toNat_unpackSign, hbits]
    change _ = 0
    omega
  have hunpack := unpack_fields n.toModel.toBits.toBitVec
  simp only [hexponent, hmantissa, hsign, hfield.ne', hfield'.ne, if_false] at hunpack
  exact ⟨_, _, _, hunpack, Nat.le_add_right _ _, rfl⟩

/-- The table of powers of ten, bit by bit. -/
theorem powersOfTen_bits : ∀ i : Fin Float.exactlyRepresentablePowersOfTen.size,
    let high := (10 ^ i.val).log2
    let fraction := 10 ^ i.val * 2 ^ 52 / 2 ^ high - 2 ^ 52
    Float.exactlyRepresentablePowersOfTen[i].toBits.toNat = (high + 1023) * 2 ^ 52 + fraction ∧
      high < 1000 ∧ fraction < 2 ^ 52 ∧ (2 ^ 52 + fraction) * 2 ^ high = 10 ^ i.val * 2 ^ 52 := by
  decide +kernel

theorem exactly_powerOfTen {e : ℕ} (h : e < Float.exactlyRepresentablePowersOfTen.size) :
    Exactly Float.exactlyRepresentablePowersOfTen[e] (10 ^ e) := by
  obtain ⟨hbits, hhigh, hfraction, hvalue⟩ := powersOfTen_bits ⟨e, h⟩
  generalize 10 ^ e * 2 ^ 52 / 2 ^ (10 ^ e).log2 - 2 ^ 52 = fraction at *
  generalize (10 ^ e).log2 = high at *
  have hpower : ((2 ^ 52 + fraction : ℕ) : ℚ) * 2 ^ (((high + 1023 : ℕ) : ℤ) - 1075) = 10 ^ e := by
    rw [show ((high + 1023 : ℕ) : ℤ) - 1075 = high - (52 : ℕ) by push_cast; ring,
      zpow_sub₀ two_ne_zero, zpow_natCast, zpow_natCast, ← mul_div_assoc,
      div_eq_iff (by positivity)]
    exact_mod_cast hvalue
  rw [← hpower]
  exact exactly_of_bits hbits (by omega) (by omega) hfraction

/-- A natural number with few bits is converted as it is. -/
theorem exactly_toFloat {m : ℕ} (hm : 0 < m) (h : m < 2 ^ 53) :
    Exactly m.toUInt64.toFloat m := by
  have hlog : m.log2 < 53 := (Nat.log2_lt hm.ne').mpr h
  obtain ⟨k, hk⟩ : ∃ k, m.log2 + k = 52 := ⟨52 - m.log2, by omega⟩
  have hcanonical : Canonical (m * 2 ^ k) (-k) := by
    have hfull : 2 ^ 52 ≤ m * 2 ^ k := by
      rw [← hk, pow_add]
      exact Nat.mul_le_mul_right _ (Nat.log2_self_le hm.ne')
    refine ⟨by positivity, ?_, by omega, .inl hfull⟩
    rw [show 53 = m.log2 + 1 + k by omega, pow_add]
    exact Nat.mul_lt_mul_of_pos_right Nat.lt_log2_self (by positivity)
  have htarget : Format.binary64.targetExponent (totalExponent m 0) = -k := by
    have hbits : (Format.binary64.mantissaBits : ℤ) = 53 := rfl
    have hmin : Format.binary64.minExponent = -1074 := rfl
    simp only [Format.targetExponent, totalExponent]
    omega
  have hmodel : m.toUInt64.toFloat.toModel =
      .pack (.finite .positive (m * 2 ^ k) (-k) hcanonical.pos) := by
    have hnat : m.toUInt64.toNat = m := Nat.mod_eq_of_lt (by omega)
    have hcompare : compare (m : ℤ) 0 = .gt := compare_gt_iff_gt.mpr (by omega)
    change Float.Model.pack
      (UnpackedFloat.normalize Format.binary64 (m.toUInt64.toNat : ℤ) 0 .positive) = _
    rw [hnat, UnpackedFloat.normalize, hcompare]
    simp only [UnpackedFloat.round, Int.toNat_natCast, htarget, decreaseExponent, Nat.shiftLeft_eq]
    have hshift : ((0 : ℤ) - -(k : ℤ)).toNat = k := by omega
    rw [hshift, zero_sub, hcanonical.round_eq]
  refine ⟨m * 2 ^ k, -k, hcanonical.pos, ?_, ?_, ?_⟩
  · rw [hmodel]
    exact unpack_pack_canonical hcanonical (by omega) .positive
  · rcases hcanonical.full with hfull | hleast
    · exact hfull
    · omega
  · rw [zpow_neg, zpow_natCast, Nat.cast_mul, Nat.cast_pow]
    field_simp
    norm_num

/-- The double is what the value is rounded to. -/
def Nearest (n : Float) (q : ℚ) : Prop :=
  ∃ m e accuracy, Approximates q m e accuracy ∧
    n.toModel = .pack (roundWithAccuracy Format.binary64 .positive m e accuracy)

namespace Nearest

variable {a b : Float} {p q : ℚ}

theorem unique (ha : Nearest a q) (hb : Nearest b q) (hq : 0 < q) : a = b := by
  obtain ⟨m, e, accuracy, h, hmodel⟩ := ha
  obtain ⟨m', e', accuracy', h', hmodel'⟩ := hb
  rw [h.round_eq h' hq, ← hmodel'] at hmodel
  exact congrArg Float.ofModel hmodel

theorem mul (ha : Exactly a p) (hb : Exactly b q) : Nearest (a * b) (p * q) := by
  obtain ⟨m, e, hm, hunpack, hfull, rfl⟩ := ha
  obtain ⟨k, f, hk, hunpack', hfull', rfl⟩ := hb
  have hproduct : 2 ^ 52 ≤ m * k := Nat.le_mul_of_pos_right m hk |>.trans' hfull
  refine ⟨_, _, _, approximates_mul hproduct e f, ?_⟩
  change Float.Model.pack (UnpackedFloat.mul _ a.toModel.unpack b.toModel.unpack) = _
  rw [hunpack, hunpack']
  rfl

theorem div (ha : Exactly a p) (hb : Exactly b q) : Nearest (a / b) (p / q) := by
  obtain ⟨m, e, hm, hunpack, -, rfl⟩ := ha
  obtain ⟨k, f, hk, hunpack', -, rfl⟩ := hb
  refine ⟨_, _, _, approximates_div hm hk e f, ?_⟩
  change Float.Model.pack (UnpackedFloat.div _ a.toModel.unpack b.toModel.unpack) = _
  rw [hunpack, hunpack']
  rfl

theorem ofScientific_product {m e : ℕ} (hm : 0 < m) (he : e ≤ 400) :
    Nearest (Float.ofScientific m false e) (m * 10 ^ e) := by
  unfold Float.ofScientific
  split
  · next hfast => exact mul (exactly_toFloat hm hfast.1) (exactly_powerOfTen _)
  · have hfull : 2 ^ 52 ≤ m <<< 53 * 10 ^ e := by
      rw [Nat.shiftLeft_eq]
      calc 2 ^ 52 ≤ 1 * 2 ^ 53 * 1 := by norm_num
        _ ≤ m * 2 ^ 53 * 10 ^ e := by
            gcongr
            · exact hm
            · exact Nat.one_le_pow _ _ (by norm_num)
    have hvalue : (m : ℚ) * (10 : ℚ) ^ e =
        ((m <<< 53 : ℕ) : ℚ) * 2 ^ (-53 : ℤ) * ((10 ^ e : ℕ) * 2 ^ (0 : ℤ)) := by
      rw [Nat.shiftLeft_eq]
      push_cast
      ring
    have hnear : ¬ ((e : ℤ) > 2 ^ Format.binary64.exponentBits) := by
      norm_num
      omega
    have hfar : ¬ ((e : ℤ) < -((2 ^ Format.binary64.exponentBits : ℤ) + m.log2)) := by
      norm_num
      omega
    rw [hvalue]
    refine ⟨_, _, _, approximates_mul hfull (-53) 0, ?_⟩
    simp only [Bool.false_eq_true, if_false, Float.Model.ofScientific, UnpackedFloat.ofScientific,
      hm.ne', dite_false, Int.ofNat_eq_natCast, hnear, hfar, Int.natCast_nonneg, if_true,
      Int.toNat_natCast]
    rfl

theorem ofScientific_quotient {m e : ℕ} (hm : 0 < m) (he : e ≤ 400 + m.log2) :
    Nearest (Float.ofScientific m true (e + 1)) (m / 10 ^ (e + 1)) := by
  unfold Float.ofScientific
  split
  · next hfast => exact div (exactly_toFloat hm hfast.1) (exactly_powerOfTen _)
  · have hvalue : (m : ℚ) / (10 : ℚ) ^ (e + 1) =
        (m : ℚ) * 2 ^ (0 : ℤ) / ((10 ^ (e + 1) : ℕ) * 2 ^ (0 : ℤ)) := by
      push_cast
      ring
    have hnear : ¬ (Int.negSucc e > 2 ^ Format.binary64.exponentBits) := by
      rw [not_lt]
      exact (Int.negSucc_lt_zero e).le.trans (by norm_num)
    have hfar : ¬ (Int.negSucc e < -((2 ^ Format.binary64.exponentBits : ℤ) + m.log2)) := by
      norm_num
      omega
    have hneg : ¬ (0 ≤ Int.negSucc e) := by omega
    rw [hvalue]
    refine ⟨_, _, _, approximates_div hm (by positivity) 0 0, ?_⟩
    simp only [if_true, Float.Model.ofScientific, UnpackedFloat.ofScientific, hm.ne', dite_false,
      Int.negOfNat, hnear, hfar, hneg, if_false]
    rfl

/-- What is read is zero, positive or infinite. -/
theorem unsigned (h : Nearest a q) : Unsigned a.toModel.unpack := by
  obtain ⟨m, e, accuracy, -, hmodel⟩ := h
  rw [hmodel]
  simp only [roundWithAccuracy]
  split
  · exact .inl rfl
  · exact unsigned_pack _ _

/-- A value below half of the least double is read as zero. -/
theorem not_tiny (h : Nearest a q) (hq : 0 < q) {m : ℕ} {e : ℤ} {hm : 0 < m}
    (ha : a.toModel.unpack = .finite .positive m e hm) : 2 ^ (-1075 : ℤ) ≤ q := by
  by_contra htiny
  obtain ⟨k, f, accuracy, happrox, hmodel⟩ := h
  rw [hmodel, happrox.round_tiny hq (not_le.mp htiny)] at ha
  cases ha

end Nearest

/-- Zero digits are read as zero. -/
theorem unpack_ofScientific_zero (s : Bool) (e : ℕ) :
    (Float.ofScientific 0 s e).toModel.unpack = .zero .positive := by
  have hconverted : (Nat.toUInt64 0).toFloat.toModel.unpack = .zero .positive := rfl
  have hzero : (Float.Model.pack (.zero .positive)).unpack = .zero .positive := rfl
  unfold Float.ofScientific
  split
  · next hfast =>
      obtain ⟨m, k, hm, hunpack, -⟩ := exactly_powerOfTen
        (show e < Float.exactlyRepresentablePowersOfTen.size from Nat.lt_succ_of_le hfast.2)
      cases s with
      | false =>
          change (Float.Model.pack (UnpackedFloat.mul _ _ _)).unpack = _
          rw [hconverted, hunpack, UnpackedFloat.mul]
          exact hzero
      | true =>
          change (Float.Model.pack (UnpackedFloat.div _ _ _)).unpack = _
          rw [hconverted, hunpack, UnpackedFloat.div]
          exact hzero
  · simp only [Float.Model.ofScientific, UnpackedFloat.ofScientific, dite_true]
    exact hzero

end ToolScript.Number

namespace ToolScript.Decimal

open Number

/-- The exact value of a decimal. -/
def value (d : Decimal) : ℚ :=
  d.coefficient * 10 ^ d.exponent

/-- The exponent of the decimal is not beyond those of doubles. -/
def Moderate (d : Decimal) : Prop :=
  d.exponent ≤ 400 ∧ -401 - (d.coefficient.log2 : ℤ) ≤ d.exponent

variable {d : Decimal}

theorem value_pos (h : 0 < d.coefficient) : 0 < d.value := by
  have hpos : (0 : ℚ) < d.coefficient := by exact_mod_cast h
  unfold value
  positivity

/-- A decimal is read as the double nearest to its value. -/
theorem nearest_toFloat (h : 0 < d.coefficient) (hmoderate : d.Moderate) :
    Nearest d.toFloat d.value := by
  obtain ⟨c, e⟩ := d
  obtain ⟨hhigh, hlow⟩ := hmoderate
  cases e with
  | ofNat e =>
      simp only [Int.ofNat_eq_natCast] at hhigh
      have he : e ≤ 400 := by omega
      simp only [toFloat, he, if_true, value, Int.ofNat_eq_natCast, zpow_natCast]
      exact .ofScientific_product h he
  | negSucc e =>
      have he : e ≤ 400 + c.log2 := by
        simp only at hlow
        omega
      simp only [toFloat, he, if_true, value, zpow_negSucc, ← div_eq_mul_inv]
      exact .ofScientific_quotient h he

theorem unpack_zero : (0 : Float).toModel.unpack = .zero .positive := rfl

theorem unpack_infinity : infinity.toModel.unpack = .infinity .positive := rfl

theorem unpack_toFloat_zero (e : ℤ) :
    (Decimal.toFloat ⟨0, e⟩).toModel.unpack = .zero .positive := by
  cases e with
  | ofNat k =>
      simp only [toFloat]
      split
      · exact unpack_ofScientific_zero false k
      · exact unpack_zero
  | negSucc k =>
      simp only [toFloat]
      split
      · exact unpack_ofScientific_zero true (k + 1)
      · exact unpack_zero

/-- Beyond the exponents of doubles there is only zero and the infinite number. -/
theorem toFloat_of_not_moderate (h : ¬ d.Moderate) : d.toFloat = 0 ∨ d.toFloat = infinity := by
  obtain ⟨c, k⟩ := d
  cases k with
  | ofNat k =>
      have hk : ¬ k ≤ 400 := by
        intro hle
        exact h ⟨by simpa using hle, by simp only [Int.ofNat_eq_natCast]; omega⟩
      simp only [toFloat, hk, if_false]
      split
      · exact .inl rfl
      · exact .inr rfl
  | negSucc k =>
      have hk : ¬ k ≤ 400 + c.log2 := by
        intro hle
        exact h ⟨by simp only; omega, by simp only; omega⟩
      exact .inl (if_neg hk)

/-- A decimal that is read as a positive number is moderate. -/
theorem moderate_of_toFloat {m : ℕ} {e : ℤ} {hm : 0 < m}
    (h : d.toFloat.toModel.unpack = .finite .positive m e hm) : d.Moderate := by
  by_contra hmoderate
  rcases toFloat_of_not_moderate hmoderate with hread | hread
  · rw [hread, unpack_zero] at h
    cases h
  · rw [hread, unpack_infinity] at h
    cases h

/-- Every decimal is read as zero, as a positive number, or as the infinite one. -/
theorem unsigned_toFloat (d : Decimal) : Unsigned d.toFloat.toModel.unpack := by
  rcases Nat.eq_zero_or_pos d.coefficient with hzero | hpos
  · rw [show d = ⟨0, d.exponent⟩ from hzero ▸ rfl, unpack_toFloat_zero]
    exact .inl rfl
  · by_cases hmoderate : d.Moderate
    · exact (nearest_toFloat hpos hmoderate).unsigned
    · rcases toFloat_of_not_moderate hmoderate with hread | hread
      · rw [hread, unpack_zero]
        exact .inl rfl
      · rw [hread, unpack_infinity]
        exact .inr (.inl rfl)

/-- A decimal with a small exponent is below half of the least double. -/
theorem moderate_of_value (hexponent : d.exponent ≤ 0) (h : 2 ^ (-1075 : ℤ) ≤ d.value) :
    d.Moderate := by
  refine ⟨hexponent.trans (by norm_num), ?_⟩
  by_contra hlow
  -- a coefficient of `l` bits is below `2 * 10 ^ l`, so such an exponent outweighs it by far
  obtain ⟨k, hk⟩ : ∃ k : ℕ, d.exponent = -402 - (d.coefficient.log2 : ℤ) - k :=
    ⟨(-402 - (d.coefficient.log2 : ℤ) - d.exponent).toNat, by omega⟩
  have hcoefficient : (d.coefficient : ℚ) < 2 * 10 ^ d.coefficient.log2 := by
    calc (d.coefficient : ℚ) < ((2 ^ (d.coefficient.log2 + 1) : ℕ) : ℚ) := by
          exact_mod_cast Nat.lt_log2_self
      _ = 2 * 2 ^ d.coefficient.log2 := by push_cast; ring
      _ ≤ 2 * 10 ^ d.coefficient.log2 := by gcongr; norm_num
  have hvalue : d.value < 2 ^ (-1075 : ℤ) := by
    calc d.value = d.coefficient * 10 ^ (-402 - (d.coefficient.log2 : ℤ) - k) := by rw [value, hk]
      _ < 2 * 10 ^ d.coefficient.log2 * 10 ^ (-402 - (d.coefficient.log2 : ℤ) - k) := by gcongr
      _ = 2 * 10 ^ (-402 - (k : ℤ)) := by
          rw [mul_assoc, ← zpow_natCast, ← zpow_add₀ (by norm_num)]
          congr 2
          ring
      _ ≤ 2 * 10 ^ (-402 : ℤ) := by
          gcongr
          · norm_num
          · omega
      _ ≤ 2 * 8 ^ (-402 : ℤ) := by
          have hpow : (8 : ℚ) ^ 402 ≤ 10 ^ 402 := by
            gcongr
            norm_num
          gcongr 2 * ?_
          rw [zpow_neg, zpow_neg]
          exact inv_anti₀ (by positivity) (by exact_mod_cast hpow)
      _ = 2 ^ (-1205 : ℤ) := by
          rw [show (8 : ℚ) = 2 ^ (3 : ℤ) by norm_num, ← zpow_mul,
            show (-1205 : ℤ) = 1 + 3 * -402 by norm_num, zpow_add₀ two_ne_zero, zpow_one]
      _ ≤ 2 ^ (-1075 : ℤ) := by
          gcongr
          · norm_num
          · norm_num
  exact absurd h (not_le.mpr hvalue)

/-- Decimals of the same value are read alike, if that is a positive number. -/
theorem toFloat_congr {d' : Decimal} (hvalue : d'.value = d.value) {m : ℕ} {e : ℤ} {hm : 0 < m}
    (hd : d.toFloat.toModel.unpack = .finite .positive m e hm) (h : 0 < d.coefficient)
    (hexponent : d'.exponent ≤ 0) : d'.toFloat = d.toFloat := by
  have hpos := value_pos h
  have hnearest := nearest_toFloat h (moderate_of_toFloat hd)
  have hmoderate : d'.Moderate :=
    moderate_of_value hexponent (hvalue ▸ hnearest.not_tiny hpos hd)
  have hcoefficient : 0 < d'.coefficient := by
    apply Nat.pos_of_ne_zero
    intro hzero
    rw [← hvalue, value, hzero, Nat.cast_zero, zero_mul] at hpos
    exact lt_irrefl _ hpos
  exact (hvalue ▸ nearest_toFloat hcoefficient hmoderate).unique hnearest hpos

end ToolScript.Decimal
