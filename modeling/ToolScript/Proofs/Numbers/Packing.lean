import ToolScript.Number
import ToolScript.Proofs.Numbers.Rounding

/-!
# Doubles and their parts

A double is a sign, an exponent and a mantissa in 64 bits. Taking the bits apart and putting the
parts together again are inverse to each other, and two doubles that compare as equal are the
same unless they are zero.
-/

namespace ToolScript.Number

open Float.Model Float.Model.UnpackedFloat

section Fields

variable (b : BitVec Format.binary64.numBits)

theorem toNat_unpackMantissa : (unpackMantissa b).toNat = b.toNat % 2 ^ 52 := by
  simp [unpackMantissa, BitVec.extractLsb]

theorem toNat_unpackExponent : (unpackExponent b).toNat = b.toNat / 2 ^ 52 % 2048 := by
  simp [unpackExponent, BitVec.extractLsb, Nat.shiftRight_eq_div_pow]

theorem toNat_unpackSign : (unpackSign b).toNat = b.toNat / 2 ^ 63 := by
  have hlt : b.toNat / 2 ^ 63 < 2 := Nat.div_lt_of_lt_mul b.isLt
  simp only [unpackSign, BitVec.extractLsb, BitVec.toNat_cast, BitVec.extractLsb'_toNat,
    Nat.shiftRight_eq_div_pow]
  exact Nat.mod_eq_of_lt hlt

theorem toBitVec_ofBitVec (sign : BitVec 1) : (Sign.ofBitVec sign).toBitVec = sign := by
  rcases sign.eq_zero_or_eq_one with rfl | rfl <;> rfl

@[simp] theorem unpackSign_packComponents {spec : Format} {sign : Sign}
    {exponent : BitVec spec.exponentBits} {mantissa : BitVec spec.mantissaBitsWithoutImplicit} :
    unpackSign (packComponents spec sign exponent mantissa) = sign.toBitVec := by
  ext i hi
  obtain rfl : i = 0 := by omega
  simp [unpackSign, packComponents, BitVec.getLsbD_append, BitVec.getElem_append]

theorem packComponents_unpack : packComponents Format.binary64 (Sign.ofBitVec (unpackSign b))
    (unpackExponent b) (unpackMantissa b) = b := by
  simp only [packComponents, toBitVec_ofBitVec, unpackSign, unpackExponent, unpackMantissa,
    BitVec.extractLsb]
  ext i hi
  grind

end Fields

theorem toNat_one_append (mantissa : BitVec 52) :
    (1#1 ++ mantissa).toNat = 2 ^ 52 + mantissa.toNat := by
  rw [BitVec.toNat_append, ← Nat.shiftLeft_add_eq_or_of_lt mantissa.isLt]
  rfl

/-- What the fields of a double stand for. -/
theorem unpack_fields (b : BitVec Format.binary64.numBits) :
    unpack Format.binary64 b =
      if (unpackExponent b).toNat = 2047 then
        if (unpackMantissa b).toNat = 0 then .infinity (Sign.ofBitVec (unpackSign b))
        else .notANumber
      else if (unpackExponent b).toNat = 0 then
        if h : (unpackMantissa b).toNat = 0 then .zero (Sign.ofBitVec (unpackSign b))
        else .finite (Sign.ofBitVec (unpackSign b)) (unpackMantissa b).toNat (-1074)
          (Nat.pos_of_ne_zero h)
      else .finite (Sign.ofBitVec (unpackSign b)) (2 ^ 52 + (unpackMantissa b).toNat)
        ((unpackExponent b).toNat - 1075) (by positivity) := by
  have hones : unpackExponent b = -1#_ ↔ (unpackExponent b).toNat = 2047 := BitVec.toNat_inj.symm
  have hnone : unpackExponent b = 0#_ ↔ (unpackExponent b).toNat = 0 := BitVec.toNat_inj.symm
  have hzero : unpackMantissa b = 0#_ ↔ (unpackMantissa b).toNat = 0 := BitVec.toNat_inj.symm
  have hbias : (Format.binary64.exponentBias : ℤ) = 1023 := rfl
  simp only [UnpackedFloat.unpack, hones, hnone, hzero, toNat_one_append, hbias]
  split
  · rfl
  · split
    · next h => simp [h]
    · norm_num

/-- How a finite double is packed. -/
theorem pack_canonical {m : ℕ} {e : ℤ} (h : Canonical m e) (hmax : e ≤ 971) (sign : Sign) :
    UnpackedFloat.pack Format.binary64 (.finite sign m e h.pos) =
      packComponents Format.binary64 sign
        (BitVec.ofNat _ (if 2 ^ 52 ≤ m then (e + 1075).toNat else 0)) (BitVec.ofNat _ m) := by
  have hleast := h.least
  have hbiased : (e + Format.binary64.exponentBias +
      (Format.binary64.mantissaBitsWithoutImplicit : ℕ)).toNat = (e + 1075).toNat := by
    congr 1
    change e + 1023 + 52 = e + 1075
    ring
  have hfits : ¬ 2 ^ Format.binary64.exponentBits ≤ (e + 1075).toNat + 1 := by
    norm_num
    omega
  simp only [UnpackedFloat.pack, hbiased, hfits, if_false]
  have hbits : Format.binary64.mantissaBits = 53 := rfl
  by_cases hfull : 2 ^ 52 ≤ m
  · have hlog : m.log2 + 1 = Format.binary64.mantissaBits := by
      have hlow : 52 ≤ m.log2 := (Nat.le_log2 h.pos.ne').mpr hfull
      have hhigh : m.log2 < 53 := (Nat.log2_lt h.pos.ne').mpr h.small
      omega
    rw [if_pos hlog, if_pos hfull]
  · have hlog : m.log2 + 1 ≠ Format.binary64.mantissaBits := by
      have hhigh : m.log2 < 52 := (Nat.log2_lt h.pos.ne').mpr (Nat.not_le.mp hfull)
      omega
    rw [if_neg hlog, if_neg hfull]

theorem unpack_pack_canonical {m : ℕ} {e : ℤ} (h : Canonical m e) (hmax : e ≤ 971)
    (sign : Sign) :
    UnpackedFloat.unpack Format.binary64
      (UnpackedFloat.pack Format.binary64 (.finite sign m e h.pos)) = .finite sign m e h.pos := by
  have hsign : Sign.ofBitVec sign.toBitVec = sign := by cases sign <;> rfl
  have hleast := h.least
  have hpos := h.pos
  have hsmall := h.small
  rw [pack_canonical h hmax, unpack_fields]
  simp only [unpackExponent_packComponents, unpackMantissa_packComponents,
    unpackSign_packComponents, hsign, BitVec.toNat_ofNat]
  by_cases hfull : 2 ^ 52 ≤ m
  · have hfield : (e + 1075).toNat % 2 ^ Format.binary64.exponentBits = (e + 1075).toNat :=
      Nat.mod_eq_of_lt (by norm_num; omega)
    have hmantissa : 2 ^ 52 + m % 2 ^ 52 = m := by omega
    rw [if_pos hfull, hfield, if_neg (by omega), if_neg (by omega)]
    simp only [hmantissa]
    congr 1
    omega
  · have hmantissa : m % 2 ^ Format.binary64.mantissaBitsWithoutImplicit = m :=
      Nat.mod_eq_of_lt (Nat.not_le.mp hfull)
    obtain rfl : e = -1074 := h.full.resolve_left hfull
    simp only [hfull, hmantissa, hpos.ne', if_false, Nat.zero_mod, if_true, dif_neg,
      not_false_eq_true, OfNat.zero_ne_ofNat]

/-- The parts of a finite double are canonical. -/
theorem canonical_of_unpack {b : BitVec Format.binary64.numBits} {sign : Sign} {m : ℕ} {e : ℤ}
    {hm : 0 < m} (h : UnpackedFloat.unpack Format.binary64 b = .finite sign m e hm) :
    Canonical m e ∧ e ≤ 971 := by
  have hfraction : (unpackMantissa b).toNat < 2 ^ 52 := (unpackMantissa b).isLt
  have hfield : (unpackExponent b).toNat < 2 ^ 11 := (unpackExponent b).isLt
  rw [unpack_fields] at h
  split at h
  · split at h <;> cases h
  · next hne =>
      split at h
      · split at h
        · cases h
        · next hpos =>
            cases h
            exact ⟨⟨hm, by omega, by omega, .inr rfl⟩, by omega⟩
      · next hpos =>
          cases h
          exact ⟨⟨hm, by omega, by omega, .inl (by omega)⟩, by omega⟩

/-- A double is put together from its parts. -/
theorem pack_unpack {b : BitVec Format.binary64.numBits} (h : Format.binary64.Valid b) :
    UnpackedFloat.pack Format.binary64 (UnpackedFloat.unpack Format.binary64 b) = b := by
  have hself {exponent : BitVec 11} {mantissa : BitVec 52}
      (hexponent : (unpackExponent b).toNat = exponent.toNat)
      (hmantissa : (unpackMantissa b).toNat = mantissa.toNat) :
      packComponents Format.binary64 (Sign.ofBitVec (unpackSign b)) exponent mantissa = b := by
    rw [← BitVec.eq_of_toNat_eq hexponent, ← BitVec.eq_of_toNat_eq hmantissa,
      packComponents_unpack]
  have hfraction : (unpackMantissa b).toNat < 2 ^ 52 := (unpackMantissa b).isLt
  have hfield : (unpackExponent b).toNat < 2 ^ 11 := (unpackExponent b).isLt
  rw [unpack_fields]
  split
  · next hones =>
      split
      · next hzero => exact hself hones hzero
      · next hpos =>
          exact (h.eq_packedNaN (BitVec.eq_of_toNat_eq hones)
            fun hzero => hpos (congrArg BitVec.toNat hzero)).symm
  · next hones =>
      split
      · next hnone =>
          split
          · next hzero => exact hself hnone hzero
          · next hpos =>
              rw [pack_canonical ⟨Nat.pos_of_ne_zero hpos, by omega, le_rfl, .inr rfl⟩ (by omega),
                if_neg (by omega)]
              exact hself hnone (by simp)
      · next hsome =>
          rw [pack_canonical ⟨by positivity, by omega, by omega, .inl (by omega)⟩ (by omega),
            if_pos (by omega)]
          refine hself ?_ ?_
          · rw [BitVec.toNat_ofNat, Nat.mod_eq_of_lt (by omega)]
            omega
          · rw [BitVec.toNat_ofNat]
            omega

theorem model_pack_unpack (f : Float.Model) : Float.Model.pack f.unpack = f := by
  obtain ⟨bits, hvalid⟩ := f
  have hpack := pack_unpack hvalid
  simp only [Float.Model.pack, Float.Model.unpack, hpack]

/-- A double is determined by its parts. -/
theorem eq_of_unpack_eq {a b : Float} (h : a.toModel.unpack = b.toModel.unpack) : a = b := by
  obtain ⟨a⟩ := a
  obtain ⟨b⟩ := b
  rw [← model_pack_unpack a, ← model_pack_unpack b]
  exact congrArg (fun u => Float.ofModel (Float.Model.pack u)) h

/-- What compares as equal to a positive number is that number. -/
theorem eq_of_beq {a b : Float} {m : ℕ} {e : ℤ} {hm : 0 < m}
    (hb : b.toModel.unpack = .finite .positive m e hm) (h : (a == b) = true) : a = b := by
  have hcompare : UnpackedFloat.compare a.toModel.unpack b.toModel.unpack = some .eq := by
    change (UnpackedFloat.compare a.toModel.unpack b.toModel.unpack == some .eq) = true at h
    simpa using h
  apply eq_of_unpack_eq
  rw [hb] at hcompare ⊢
  cases ha : a.toModel.unpack with
  | notANumber =>
      rw [ha] at hcompare
      cases hcompare
  | infinity sign =>
      rw [ha] at hcompare
      cases sign <;> cases hcompare
  | zero sign =>
      rw [ha] at hcompare
      cases sign <;> cases hcompare
  | finite sign n k hn =>
      rw [ha] at hcompare
      cases sign with
      | negative => cases hcompare
      | positive =>
          obtain ⟨hk, hn⟩ : compare k e = .eq ∧ compare n m = .eq := by
            simpa [UnpackedFloat.compare, Ordering.then_eq_eq] using hcompare
          obtain rfl := compare_eq_iff_eq.mp hk
          obtain rfl := compare_eq_iff_eq.mp hn
          rfl

/-- The parts of a number as they are taken for writing it. -/
theorem toDyadic_of_unpack {n : Float} {sign : Sign} {m : ℕ} {e : ℤ} {hm : 0 < m}
    (h : n.toModel.unpack = .finite sign m e hm) :
    toDyadic? n = some ⟨decide (sign.toBitVec.toNat = 1), m, e⟩ := by
  have hunpack := unpack_fields n.toModel.toBits.toBitVec
  have hbits : n.toModel.toBits.toBitVec.toNat = n.toBits.toNat := rfl
  have hfield := toNat_unpackSign n.toModel.toBits.toBitVec
  rw [hbits] at hfield
  have hnegative {bit : BitVec 1} (hbit : bit.toNat = n.toBits.toNat / 2 ^ 63)
      (hsign : sign = Sign.ofBitVec bit) :
      n.toBits.toNat / 2 ^ 52 / 2048 = 1 ↔ sign.toBitVec.toNat = 1 := by
    rw [hsign, toBitVec_ofBitVec, hbit]
    omega
  rw [show UnpackedFloat.unpack Format.binary64 n.toModel.toBits.toBitVec = _ from h,
    toNat_unpackMantissa, toNat_unpackExponent, hbits] at hunpack
  simp only [toDyadic?, show fractions = 2 ^ 52 from rfl]
  split at hunpack
  · split at hunpack <;> cases hunpack
  · next hones =>
      split at hunpack
      · next hnone =>
          split at hunpack
          · cases hunpack
          · injection hunpack with hsign hmantissa hexponent
            simp only [hnone, hnegative hfield hsign, OfNat.zero_ne_ofNat, if_false, if_true,
              hmantissa, hexponent]
      · next hsome =>
          injection hunpack with hsign hmantissa hexponent
          simp only [hones, hsome, hnegative hfield hsign, if_false, hmantissa, hexponent]

/-- The parts of a double that is zero, positive or infinite above all others. -/
def Unsigned (u : UnpackedFloat) : Prop :=
  u = .zero .positive ∨ u = .infinity .positive ∨ ∃ m e hm, u = .finite .positive m e hm

theorem unsigned_packComponents {exponent : BitVec 11} (h : exponent.toNat ≠ 2047)
    (mantissa : BitVec 52) :
    Unsigned (UnpackedFloat.unpack Format.binary64
      (packComponents Format.binary64 .positive exponent mantissa)) := by
  have hpositive : Sign.ofBitVec Sign.positive.toBitVec = .positive := rfl
  rw [unpack_fields]
  simp only [unpackExponent_packComponents, unpackMantissa_packComponents,
    unpackSign_packComponents, hpositive, h, if_false]
  split
  · split
    · exact .inl rfl
    · exact .inr (.inr ⟨_, _, _, rfl⟩)
  · exact .inr (.inr ⟨_, _, _, rfl⟩)

theorem unsigned_pack {m : ℕ} (e : ℤ) (hm : 0 < m) :
    Unsigned (Float.Model.pack (.finite .positive m e hm)).unpack := by
  change Unsigned (UnpackedFloat.unpack Format.binary64
    (UnpackedFloat.pack Format.binary64 (.finite .positive m e hm)))
  simp only [UnpackedFloat.pack]
  split
  · exact .inr (.inl rfl)
  · next hfits =>
      split
      · refine unsigned_packComponents ?_ _
        rw [BitVec.toNat_ofNat, Nat.mod_eq_of_lt (by omega)]
        omega
      · exact unsigned_packComponents (by decide) _

end ToolScript.Number
