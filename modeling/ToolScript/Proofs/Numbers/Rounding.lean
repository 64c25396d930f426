import Mathlib

/-!
# Rounding depends on the value alone

The model of doubles rounds a natural number times a power of two, together with a note on how
the exact value lies above it. Different ways of computing one value reach the rounding with
different numbers and notes. Here it is shown that the rounded double is a function of the exact
value, as long as none of its bits were lost before.
-/

namespace ToolScript.Number

open Float.Model Float.Model.UnpackedFloat

/-- The value that the mantissa and its residual bits stand for. -/
def Represents : ExtendedMantissa → ℚ → Prop
  | ⟨m, false, false⟩, x => x = m
  | ⟨m, false, true⟩, x => m < x ∧ x < m + 1 / 2
  | ⟨m, true, false⟩, x => x = m + 1 / 2
  | ⟨m, true, true⟩, x => m + 1 / 2 < x ∧ x < m + 1

namespace Represents

variable {em em' : ExtendedMantissa} {x : ℚ}

/-- The mantissa is the whole part of the value. -/
theorem bounds (h : Represents em x) : (em.mantissa : ℚ) ≤ x ∧ x < em.mantissa + 1 := by
  obtain ⟨m, round, sticky⟩ := em
  cases round <;> cases sticky <;> simp only [Represents] at h ⊢ <;> constructor <;> linarith

/-- A value has one mantissa and one pair of residual bits. -/
theorem unique (h : Represents em x) (h' : Represents em' x) : em = em' := by
  have hmantissa : em.mantissa = em'.mantissa := by
    obtain ⟨hle, hlt⟩ := h.bounds
    obtain ⟨hle', hlt'⟩ := h'.bounds
    have hab : (em.mantissa : ℚ) < em'.mantissa + 1 := lt_of_le_of_lt hle hlt'
    have hba : (em'.mantissa : ℚ) < em.mantissa + 1 := lt_of_le_of_lt hle' hlt
    norm_cast at hab hba
    omega
  obtain ⟨m, round, sticky⟩ := em
  obtain ⟨m', round', sticky'⟩ := em'
  obtain rfl : m = m' := hmantissa
  cases round <;> cases sticky <;> cases round' <;> cases sticky' <;>
    simp only [Represents] at h h' <;> first | rfl | (exfalso; linarith)

theorem halve (h : Represents em x) : Represents em.shiftRightOne (x / 2) := by
  obtain ⟨m, round, sticky⟩ := em
  have hparity : (m : ℚ) = 2 * ((m / 2 : ℕ) : ℚ) + ((m % 2 : ℕ) : ℚ) := by
    exact_mod_cast (Nat.div_add_mod m 2).symm
  rw [ExtendedMantissa.shiftRightOne]
  rcases Nat.mod_two_eq_zero_or_one m with hmod | hmod <;>
    simp only [hmod, Nat.cast_zero, Nat.cast_one, Nat.reduceBNe] at hparity ⊢ <;>
    cases round <;> cases sticky <;> simp only [Represents, Bool.or_self, Bool.or_true,
      Bool.or_false] at h ⊢ <;>
    first | linarith | (constructor <;> linarith)

theorem shift (h : Represents em x) (n : ℕ) : Represents (em >>> n) (x / 2 ^ n) := by
  change Represents (n.repeat ExtendedMantissa.shiftRightOne em) _
  induction n with
  | zero => simpa [Nat.repeat] using h
  | succ n ih =>
      rw [pow_succ, ← div_div]
      exact ih.halve

theorem exact (m : ℕ) : Represents (.ofMantissaAndAccuracy m .exact) m := rfl

/-- A quotient with remainder. -/
theorem fraction (a b : ℕ) (hb : 0 < b) :
    Represents (.ofMantissaAndAccuracy (a / b) (accuracyOfFraction (a % b) b)) (a / b) := by
  have hlt : a % b < b := Nat.mod_lt a hb
  have hbpos : (0 : ℚ) < b := by exact_mod_cast hb
  have hdiv : (a : ℚ) / b = ((a / b : ℕ) : ℚ) + ((a % b : ℕ) : ℚ) / b := by
    rw [div_eq_iff hbpos.ne', add_mul, div_mul_cancel₀ _ hbpos.ne', mul_comm]
    exact_mod_cast (Nat.div_add_mod a b).symm
  have hone : ((a % b : ℕ) : ℚ) / b < 1 := (div_lt_one hbpos).mpr (by exact_mod_cast hlt)
  rw [hdiv, accuracyOfFraction]
  split
  · next hzero => simp [hzero, Represents, ExtendedMantissa.ofMantissaAndAccuracy]
  · next hne =>
      have hpos : 0 < ((a % b : ℕ) : ℚ) / b :=
        div_pos (by exact_mod_cast Nat.pos_of_ne_zero hne) hbpos
      rcases Nat.lt_trichotomy (2 * (a % b)) b with hcmp | hcmp | hcmp
      · have hhalf : ((a % b : ℕ) : ℚ) / b < 1 / 2 := by
          rw [div_lt_div_iff₀ hbpos two_pos]
          norm_cast
          omega
        rw [compare_lt_iff_lt.mpr hcmp]
        exact ⟨by linarith, by linarith⟩
      · have hhalf : ((a % b : ℕ) : ℚ) / b = 1 / 2 := by
          rw [div_eq_div_iff hbpos.ne' two_ne_zero]
          norm_cast
          omega
        rw [compare_eq_iff_eq.mpr hcmp, hhalf]
        rfl
      · have hhalf : 1 / 2 < ((a % b : ℕ) : ℚ) / b := by
          rw [div_lt_div_iff₀ two_pos hbpos]
          norm_cast
          omega
        rw [compare_gt_iff_gt.mpr hcmp]
        exact ⟨by linarith, by linarith⟩

end Represents

/-- The exponent of the double nearest to a value. -/
def scale (q : ℚ) : ℤ :=
  Format.binary64.targetExponent (Int.log 2 q + 1)

/-- The number times the power of two, with the note on its accuracy, stands for the value and
has all the bits that rounding looks at. -/
structure Approximates (q : ℚ) (m : ℕ) (e : ℤ) (accuracy : Accuracy) : Prop where
  represents : Represents (.ofMantissaAndAccuracy m accuracy) (q / 2 ^ e)
  fine : e ≤ scale q

theorem targetExponent_mono {a b : ℤ} (h : a ≤ b) :
    Format.binary64.targetExponent a ≤ Format.binary64.targetExponent b := by
  simp only [Format.targetExponent]
  omega

theorem mantissa_ofMantissaAndAccuracy (m : ℕ) (accuracy : Accuracy) :
    (ExtendedMantissa.ofMantissaAndAccuracy m accuracy).mantissa = m := by
  rcases accuracy with _ | (_ | _ | _) <;> rfl

/-- The place of the highest bit of a value between two neighbouring numbers. -/
theorem log_eq_of_bounds {q : ℚ} {m : ℕ} {e : ℤ} (hm : m ≠ 0) (hle : (m : ℚ) * 2 ^ e ≤ q)
    (hlt : q < (m + 1 : ℕ) * 2 ^ e) : Int.log 2 q = m.log2 + e := by
  have htwo : (0 : ℚ) < 2 ^ e := by positivity
  have hlow : ((2 : ℕ) : ℚ) ^ ((m.log2 : ℤ) + e) ≤ q := by
    have hpow : ((2 ^ m.log2 : ℕ) : ℚ) ≤ m := by exact_mod_cast Nat.log2_self_le hm
    calc ((2 : ℕ) : ℚ) ^ ((m.log2 : ℤ) + e)
        = ((2 ^ m.log2 : ℕ) : ℚ) * 2 ^ e := by
          rw [zpow_add₀ (by norm_num), zpow_natCast]
          norm_num
      _ ≤ m * 2 ^ e := by gcongr
      _ ≤ q := hle
  have hhigh : q < ((2 : ℕ) : ℚ) ^ ((m.log2 : ℤ) + e + 1) := by
    have hpow : ((m + 1 : ℕ) : ℚ) ≤ ((2 ^ (m.log2 + 1) : ℕ) : ℚ) := by
      exact_mod_cast Nat.lt_log2_self
    calc q < (m + 1 : ℕ) * 2 ^ e := hlt
      _ ≤ ((2 ^ (m.log2 + 1) : ℕ) : ℚ) * 2 ^ e := by gcongr
      _ = ((2 : ℕ) : ℚ) ^ ((m.log2 : ℤ) + e + 1) := by
          rw [show (m.log2 : ℤ) + e + 1 = ((m.log2 + 1 : ℕ) : ℤ) + e by push_cast; ring,
            zpow_add₀ (by norm_num), zpow_natCast]
          norm_num
  have hq : 0 < q := lt_of_lt_of_le (by positivity) hlow
  refine le_antisymm ?_ ((Int.zpow_le_iff_le_log one_lt_two hq).mp hlow)
  exact Int.lt_add_one_iff.mp ((Int.lt_zpow_iff_log_lt one_lt_two hq).mp hhigh)

namespace Approximates

variable {q : ℚ} {m m' : ℕ} {e e' : ℤ} {accuracy accuracy' : Accuracy}

/-- The exponent that rounding aims at is that of the value. -/
theorem target (h : Approximates q m e accuracy) (hq : 0 < q) :
    Format.binary64.targetExponent (totalExponent m e) = scale q := by
  have htwo : (0 : ℚ) < 2 ^ e := by positivity
  obtain ⟨hle, hlt⟩ := h.represents.bounds
  rw [mantissa_ofMantissaAndAccuracy] at hle hlt
  rw [le_div_iff₀ htwo] at hle
  rw [div_lt_iff₀ htwo] at hlt
  by_cases hm : m = 0
  · -- a value below the unit is rounded at the least exponent
    subst hm
    have hlog : Int.log 2 q < e := by
      rw [← Int.lt_zpow_iff_log_lt one_lt_two hq]
      simpa using hlt
    have hfine := h.fine
    simp only [scale, Format.targetExponent, totalExponent, Nat.log2_zero] at hfine ⊢
    have hbits : (Format.binary64.mantissaBits : ℤ) = 53 := rfl
    omega
  · have hlog := log_eq_of_bounds hm hle (by exact_mod_cast hlt)
    simp only [scale, hlog, totalExponent]
    congr 1
    ring

/-- Shifting leaves the mantissa and the residual bits of the value at its exponent. -/
theorem shifted (h : Approximates q m e accuracy) (hq : 0 < q) :
    ∃ em, shiftToTargetExponent Format.binary64 m e accuracy = (em, scale q) ∧
      Represents em (q / 2 ^ scale q) := by
  have hshift : e + ((scale q - e).toNat : ℤ) = scale q := by
    have := h.fine
    omega
  refine ⟨ExtendedMantissa.ofMantissaAndAccuracy m accuracy >>> (scale q - e).toNat, ?_, ?_⟩
  · simp only [shiftToTargetExponent, shiftToExponent, h.target hq, hshift]
  · have hrep := h.represents.shift (scale q - e).toNat
    rwa [div_div, ← zpow_natCast, ← zpow_add₀ (by norm_num), hshift] at hrep

/-- Whatever way a value was approximated, it is rounded to the same double. -/
theorem round_eq (h : Approximates q m e accuracy) (h' : Approximates q m' e' accuracy')
    (hq : 0 < q) (sign : Sign) :
    roundWithAccuracy Format.binary64 sign m e accuracy =
      roundWithAccuracy Format.binary64 sign m' e' accuracy' := by
  obtain ⟨em, hem, hrep⟩ := h.shifted hq
  obtain ⟨em', hem', hrep'⟩ := h'.shifted hq
  simp only [roundWithAccuracy, hem, hem', hrep.unique hrep']

/-- A value below half of the least double is rounded to zero. -/
theorem round_tiny (h : Approximates q m e accuracy) (hq : 0 < q) (htiny : q < 2 ^ (-1075 : ℤ))
    (sign : Sign) : roundWithAccuracy Format.binary64 sign m e accuracy = .zero sign := by
  obtain ⟨⟨n, round, sticky⟩, hem, hrep⟩ := h.shifted hq
  have hscale : scale q = -1074 := by
    have hlog : Int.log 2 q < -1075 := (Int.lt_zpow_iff_log_lt one_lt_two hq).mp htiny
    have hbits : (Format.binary64.mantissaBits : ℤ) = 53 := rfl
    have hmin : Format.binary64.minExponent = -1074 := rfl
    simp only [scale, Format.targetExponent]
    omega
  have hhalf : q / 2 ^ scale q < 1 / 2 := by
    rw [hscale, div_lt_iff₀ (by positivity)]
    calc q < 2 ^ (-1075 : ℤ) := htiny
      _ = 1 / 2 * 2 ^ (-1074 : ℤ) := by
          rw [show (-1075 : ℤ) = -1 + -1074 by norm_num, zpow_add₀ two_ne_zero, zpow_neg_one,
            one_div]
  have hzero : ExtendedMantissa.roundedMantissa ⟨n, round, sticky⟩ = 0 := by
    have hn : n = 0 := by
      have hle := hrep.bounds.1
      have hlt : (n : ℚ) < 1 := by linarith
      exact_mod_cast Nat.lt_one_iff.mp (by exact_mod_cast hlt)
    subst hn
    cases round <;> cases sticky <;> simp only [Represents] at hrep <;>
      first | rfl | (exfalso; norm_num at hrep; linarith)
  have hfinal : (shiftToTargetExponent Format.binary64 0 (scale q) .exact).1.mantissa = 0 := by
    have hle (k : ℕ) := ((Represents.exact 0).shift k).bounds.1
    simp only [Nat.cast_zero, zero_div, Nat.cast_nonpos] at hle
    exact hle _
  simp only [roundWithAccuracy, hem, hzero, hfinal, dif_pos]

end Approximates

/-- The mantissa and the exponent are those of a finite double that is not zero. -/
structure Canonical (m : ℕ) (e : ℤ) : Prop where
  pos : 0 < m
  small : m < 2 ^ 53
  least : -1074 ≤ e
  full : 2 ^ 52 ≤ m ∨ e = -1074

namespace Canonical

variable {m : ℕ} {e : ℤ}

theorem target (h : Canonical m e) :
    Format.binary64.targetExponent (totalExponent m e) = e := by
  have hbits : (Format.binary64.mantissaBits : ℤ) = 53 := rfl
  have hmin : Format.binary64.minExponent = -1074 := rfl
  have hsmall : m.log2 < 53 := (Nat.log2_lt h.pos.ne').mpr h.small
  have hleast := h.least
  simp only [Format.targetExponent, totalExponent]
  rcases h.full with hfull | rfl
  · have hlog : 52 ≤ m.log2 := (Nat.le_log2 h.pos.ne').mpr hfull
    omega
  · omega

theorem approximates (h : Canonical m e) : Approximates (m * 2 ^ e) m e .exact where
  represents := by
    rw [mul_div_cancel_right₀ _ (by positivity)]
    exact .exact m
  fine := by
    have hlog : Int.log 2 ((m : ℚ) * 2 ^ e) = m.log2 + e := by
      refine log_eq_of_bounds h.pos.ne' le_rfl ?_
      gcongr
      exact_mod_cast Nat.lt_succ_self m
    have htarget := h.target
    simp only [scale, hlog]
    rw [totalExponent, show (m.log2 : ℤ) + 1 + e = m.log2 + e + 1 by ring] at htarget
    exact htarget.ge

/-- A double is rounded to itself. -/
theorem round_eq (h : Canonical m e) (sign : Sign) :
    roundWithAccuracy Format.binary64 sign m e .exact = .finite sign m e h.pos := by
  have hshift : shiftToTargetExponent Format.binary64 m e .exact = (⟨m, false, false⟩, e) := by
    simp [shiftToTargetExponent, shiftToExponent, h.target, ExtendedMantissa.ofMantissaAndAccuracy,
      HShiftRight.hShiftRight, Nat.repeat]
  have hrounded : ExtendedMantissa.roundedMantissa ⟨m, false, false⟩ = m := rfl
  simp only [roundWithAccuracy, hshift, hrounded, h.pos.ne', dif_neg, not_false_eq_true]

end Canonical

end ToolScript.Number
