import Mathlib
import Entangle.Proofs.SpecialValues
import Entangle.Scalar.Nearest

/-!
# The format of doubles

A double is written as a sign, eleven bits of an exponent and fifty-two of a significand. A number has one pair of a
significand and an exponent that the format admits, and the double, the pair with its sign, and the bits determine one
another.
-/

namespace Entangle.Binary64

open Float.Model (UnpackedFloat)
open Float.Model.Format (binary64)
open Float.Model.UnpackedFloat (Sign pack unpack packComponents unpackSign unpackExponent unpackMantissa
  unpackExponent_packComponents unpackMantissa_packComponents)

variable {x y : Float} {s : Sign} {m : ℕ} {e : ℤ}

/-! ## The three fields -/

theorem unpackSign_packComponents (s : Sign) (exponent : BitVec 11) (fraction : BitVec 52) :
    unpackSign (packComponents binary64 s exponent fraction) = s.toBitVec := by
  change (s.toBitVec ++ exponent ++ fraction).extractLsb' 63 1 = s.toBitVec
  rw [BitVec.extractLsb'_append_eq_of_le (by decide), BitVec.extractLsb'_append_eq_of_le (by decide)]
  cases s <;> rfl

theorem toNat_packComponents (s : Sign) (exponent : BitVec 11) (fraction : BitVec 52) :
    (packComponents binary64 s exponent fraction).toNat =
      s.toBitVec.toNat * 2 ^ 63 + exponent.toNat * 2 ^ 52 + fraction.toNat := by
  have high := exponent.isLt
  have low := fraction.isLt
  change (s.toBitVec ++ exponent ++ fraction).toNat = _
  rw [BitVec.toNat_append, BitVec.toNat_append, ← Nat.shiftLeft_add_eq_or_of_lt low,
    ← Nat.shiftLeft_add_eq_or_of_lt high, Nat.shiftLeft_eq, Nat.shiftLeft_eq]
  omega

theorem ofBitVec_toBitVec (s : Sign) : Sign.ofBitVec s.toBitVec = s := by
  cases s <;> rfl

theorem toBitVec_ofBitVec (v : BitVec 1) : (Sign.ofBitVec v).toBitVec = v := by
  revert v
  decide

theorem exists_fields (bits : BitVec 64) :
    ∃ (s : Sign) (exponent : BitVec 11) (fraction : BitVec 52), bits = packComponents binary64 s exponent fraction := by
  refine ⟨Sign.ofBitVec (BitVec.ofNat 1 (bits.toNat / 2 ^ 63)), BitVec.ofNat 11 (bits.toNat / 2 ^ 52),
    BitVec.ofNat 52 bits.toNat, BitVec.eq_of_toNat_eq ?_⟩
  rw [toNat_packComponents, toBitVec_ofBitVec, BitVec.toNat_ofNat, BitVec.toNat_ofNat, BitVec.toNat_ofNat]
  have := bits.isLt
  omega

/-! ## What the fields stand for -/

section Unpack

variable (s : Sign) {exponent : BitVec 11} {fraction : BitVec 52}

theorem unpack_infinity : unpack binary64 (packComponents binary64 s (-1#11) 0#52) = .infinity s := by
  cases s <;> rfl

theorem unpack_notANumber (some : fraction ≠ 0#52) :
    unpack binary64 (packComponents binary64 s (-1#11) fraction) = .notANumber := by
  simp only [unpack, unpackMantissa_packComponents, unpackExponent_packComponents, if_neg some]
  rfl

theorem unpack_zero : unpack binary64 (packComponents binary64 s 0#11 0#52) = .zero s := by
  cases s <;> rfl

theorem unpack_low (some : fraction ≠ 0#52) (positive : 0 < fraction.toNat) :
    unpack binary64 (packComponents binary64 s 0#11 fraction) = .finite s fraction.toNat (-1074) positive := by
  simp only [unpack, unpackMantissa_packComponents, unpackExponent_packComponents, unpackSign_packComponents,
    dif_neg some, ofBitVec_toBitVec]
  rfl

theorem unpack_full (finite : exponent ≠ -1#11) (some : exponent ≠ 0#11) (positive : 0 < leadingBit + fraction.toNat) :
    unpack binary64 (packComponents binary64 s exponent fraction) =
      .finite s (leadingBit + fraction.toNat) ((exponent.toNat : ℤ) - 1075) positive := by
  have low := fraction.isLt
  have leading : (1#1 ++ fraction).toNat = leadingBit + fraction.toNat := by
    rw [BitVec.toNat_append, ← Nat.shiftLeft_add_eq_or_of_lt low]
    rfl
  simp only [unpack, unpackMantissa_packComponents, unpackExponent_packComponents, unpackSign_packComponents,
    if_neg finite, if_neg some, ofBitVec_toBitVec, leading]
  rfl

end Unpack

/-! ## Significands and exponents -/

/-- The significand and the exponent of a number as a double has them: fifty-three bits with the leading one set, or
fewer at the least exponent. -/
structure Canonical (m : ℕ) (e : ℤ) : Prop where
  fits : m < 2 * leadingBit
  least : -1074 ≤ e
  greatest : e ≤ 971
  full : -1074 < e → leadingBit ≤ m

theorem log2_of_full (full : leadingBit ≤ m) (fits : m < 2 * leadingBit) : m.log2 = 52 := by
  simp only [leadingBit] at full fits
  exact (Nat.log2_eq_iff (by omega)).mpr ⟨full, fits⟩

theorem pack_full (full : leadingBit ≤ m) (canonical : Canonical m e) (positive : 0 < m) :
    pack binary64 (.finite s m e positive) =
      packComponents binary64 s (BitVec.ofNat 11 (e + 1075).toNat) (BitVec.ofNat 52 m) := by
  have biased : e + binary64.exponentBias + binary64.mantissaBitsWithoutImplicit = e + 1075 := by
    change e + 1023 + 52 = e + 1075
    omega
  have finite : ¬ 2 ^ binary64.exponentBits ≤ (e + 1075).toNat + 1 := by
    have := canonical.greatest
    change ¬ 2048 ≤ (e + 1075).toNat + 1
    omega
  rw [pack, biased, if_neg finite, log2_of_full full canonical.fits,
    if_pos (show 52 + 1 = binary64.mantissaBits from rfl)]

theorem pack_low (low : m < leadingBit) (positive : 0 < m) :
    pack binary64 (.finite s m (-1074) positive) = packComponents binary64 s 0#11 (BitVec.ofNat 52 m) := by
  have bits : m.log2 < 52 := (Nat.log2_lt (by omega)).mpr low
  have short : ¬ m.log2 + 1 = binary64.mantissaBits := by
    change ¬ m.log2 + 1 = 53
    omega
  rw [pack, if_neg (by decide), if_neg short]

/-- A number of the format is written and read back. -/
theorem encoded_of_canonical (canonical : Canonical m e) (positive : 0 < m) :
    encoded (.finite s m e positive) = .finite s m e positive := by
  obtain ⟨fits, least, greatest, whole⟩ := canonical
  rw [encoded]
  by_cases full : leadingBit ≤ m
  · rw [pack_full full ⟨fits, least, greatest, whole⟩]
    simp only [leadingBit] at fits full
    have exponent : (BitVec.ofNat 11 (e + 1075).toNat).toNat = (e + 1075).toNat := by
      rw [BitVec.toNat_ofNat]
      omega
    have fraction : leadingBit + (BitVec.ofNat 52 m).toNat = m := by
      rw [BitVec.toNat_ofNat]
      simp only [leadingBit]
      omega
    have finite : BitVec.ofNat 11 (e + 1075).toNat ≠ -1#11 := by
      intro same
      have := exponent ▸ congrArg BitVec.toNat same
      change (e + 1075).toNat = 2047 at this
      omega
    have some : BitVec.ofNat 11 (e + 1075).toNat ≠ 0#11 := by
      intro same
      have := exponent ▸ congrArg BitVec.toNat same
      change (e + 1075).toNat = 0 at this
      omega
    rw [unpack_full s finite some (by simp only [leadingBit]; omega)]
    congr 1
    omega
  · have low : m < leadingBit := not_le.mp full
    obtain rfl : e = -1074 := by
      by_contra other
      exact full (whole (by omega))
    rw [pack_low low positive]
    have fraction : (BitVec.ofNat 52 m).toNat = m := by
      simp only [leadingBit] at low
      rw [BitVec.toNat_ofNat]
      omega
    have some : BitVec.ofNat 52 m ≠ 0#52 := by
      intro same
      have := fraction ▸ congrArg BitVec.toNat same
      change m = 0 at this
      omega
    rw [unpack_low s some (by omega)]
    congr 1

/-! ## Doubles and their parts -/

/-- What a double stands for, from its fields. -/
theorem view_of_fields {exponent : BitVec 11} {fraction : BitVec 52}
    (fields : x.toBits.toBitVec = packComponents binary64 s exponent fraction) :
    view x = unpack binary64 (packComponents binary64 s exponent fraction) := by
  rw [← fields]
  rfl

def isNegative : Sign → Bool
  | .negative => true
  | .positive => false

theorem signBit_of_fields {exponent : BitVec 11} {fraction : BitVec 52}
    (fields : x.toBits.toBitVec = packComponents binary64 s exponent fraction) : signBit x = isNegative s := by
  have bits := toNat_packComponents s exponent fraction
  rw [← fields] at bits
  change x.toBits.toNat = _ at bits
  have high := exponent.isLt
  have low := fraction.isLt
  have top : (x.toBits >>> 63).toNat = s.toBitVec.toNat := by
    rw [UInt64.toNat_shiftRight, Nat.shiftRight_eq_div_pow, bits]
    change _ / 2 ^ 63 = _
    omega
  rw [signBit, Bool.eq_iff_iff, beq_iff_eq, ← UInt64.toNat_inj, top]
  cases s <;> decide

theorem parts_of_fields {exponent : BitVec 11} {fraction : BitVec 52}
    (fields : x.toBits.toBitVec = packComponents binary64 s exponent fraction) :
    parts x = if exponent.toNat = 0 then ⟨fraction.toNat, -1074⟩
      else ⟨fraction.toNat + leadingBit, (exponent.toNat : ℤ) - 1075⟩ := by
  have bits := toNat_packComponents s exponent fraction
  rw [← fields] at bits
  change x.toBits.toNat = _ at bits
  have high := exponent.isLt
  have low := fraction.isLt
  have biased : ((x.toBits >>> 52) &&& 0x7FF).toNat = exponent.toNat := by
    have masked : ((x.toBits >>> 52) &&& 0x7FF).toNat = x.toBits.toNat / 2 ^ 52 % 2 ^ 11 := by
      rw [UInt64.toNat_and, UInt64.toNat_shiftRight, Nat.shiftRight_eq_div_pow]
      exact Nat.and_two_pow_sub_one_eq_mod _ 11
    rw [masked, bits]
    omega
  have rest : (x.toBits &&& 0xFFFFFFFFFFFFF).toNat = fraction.toNat := by
    have masked : (x.toBits &&& 0xFFFFFFFFFFFFF).toNat = x.toBits.toNat % 2 ^ 52 := by
      rw [UInt64.toNat_and]
      exact Nat.and_two_pow_sub_one_eq_mod _ 52
    rw [masked, bits]
    omega
  rw [parts, Parts.ofBits]
  simp only [biased, rest]

/-- What a double is: no number, infinite, zero, or a number of the format with the parts and the sign that it is read
off by. -/
inductive Reading (x : Float) : Prop where
  | notANumber : view x = .notANumber → Reading x
  | infinity (s : Sign) : view x = .infinity s → Reading x
  | zero (s : Sign) : view x = .zero s → parts x = ⟨0, -1074⟩ → signBit x = isNegative s → Reading x
  | finite (s : Sign) (m : ℕ) (e : ℤ) (positive : 0 < m) : view x = .finite s m e positive → Canonical m e →
      parts x = ⟨m, e⟩ → signBit x = isNegative s → Reading x

theorem reading (x : Float) : Reading x := by
  obtain ⟨s, exponent, fraction, fields⟩ := exists_fields x.toBits.toBitVec
  have seen := view_of_fields fields
  have parted := parts_of_fields fields
  have sign := signBit_of_fields fields
  have low := fraction.isLt
  have high := exponent.isLt
  by_cases ones : exponent = -1#11
  · subst ones
    by_cases none : fraction = 0#52
    · subst none
      exact .infinity s (seen.trans (unpack_infinity s))
    · exact .notANumber (seen.trans (unpack_notANumber s none))
  by_cases least : exponent = 0#11
  · subst least
    change parts x = ⟨fraction.toNat, -1074⟩ at parted
    by_cases none : fraction = 0#52
    · subst none
      exact .zero s (seen.trans (unpack_zero s)) parted sign
    · have positive : 0 < fraction.toNat :=
        Nat.pos_of_ne_zero fun zero => none (BitVec.eq_of_toNat_eq zero)
      refine .finite s _ _ positive (seen.trans (unpack_low s none positive)) ⟨?_, le_rfl, by omega, by omega⟩ parted sign
      simp only [leadingBit]
      omega
  · have biased : exponent.toNat ≠ 0 ∧ exponent.toNat ≠ 2047 :=
      ⟨fun same => least (BitVec.eq_of_toNat_eq same), fun same => ones (BitVec.eq_of_toNat_eq same)⟩
    have positive : 0 < leadingBit + fraction.toNat := by
      simp only [leadingBit]
      omega
    rw [if_neg biased.1, Nat.add_comm] at parted
    refine .finite s _ _ positive (seen.trans (unpack_full s ones least positive)) ?_ parted sign
    exact ⟨by simp only [leadingBit]; omega, by omega, by omega, fun _ => Nat.le_add_right _ _⟩

/-! ## One double for each reading -/

/-- A double is written as what it stands for. -/
theorem pack_view (x : Float) : pack binary64 (view x) = x.toBits.toBitVec := by
  obtain ⟨s, exponent, fraction, fields⟩ := exists_fields x.toBits.toBitVec
  have low := fraction.isLt
  have high := exponent.isLt
  rw [view_of_fields fields]
  by_cases ones : exponent = -1#11
  · subst ones
    by_cases none : fraction = 0#52
    · rw [none, unpack_infinity, fields, none]
      rfl
    · -- the bits of what is no number are given by the validity of the double
      have valid := x.toModel.valid.eq_packedNaN
      change @unpackExponent binary64 x.toBits.toBitVec = _ → @unpackMantissa binary64 x.toBits.toBitVec ≠ _ →
        x.toBits.toBitVec = _ at valid
      rw [fields, unpackExponent_packComponents, unpackMantissa_packComponents] at valid
      rw [unpack_notANumber s none, fields, valid rfl none]
      rfl
  by_cases least : exponent = 0#11
  · subst least
    by_cases none : fraction = 0#52
    · rw [none, unpack_zero, fields, none]
      rfl
    · have positive : 0 < fraction.toNat := Nat.pos_of_ne_zero fun zero => none (BitVec.eq_of_toNat_eq zero)
      rw [unpack_low s none positive, pack_low (by simp only [leadingBit]; omega) positive, fields, BitVec.ofNat_toNat,
        BitVec.setWidth_eq]
  · have biased : exponent.toNat ≠ 0 ∧ exponent.toNat ≠ 2047 :=
      ⟨fun same => least (BitVec.eq_of_toNat_eq same), fun same => ones (BitVec.eq_of_toNat_eq same)⟩
    have positive : 0 < leadingBit + fraction.toNat := by
      simp only [leadingBit]
      omega
    have canonical : Canonical (leadingBit + fraction.toNat) ((exponent.toNat : ℤ) - 1075) :=
      ⟨by simp only [leadingBit]; omega, by omega, by omega, fun _ => Nat.le_add_right _ _⟩
    have exponent_eq : BitVec.ofNat 11 ((exponent.toNat : ℤ) - 1075 + 1075).toNat = exponent := by
      rw [sub_add_cancel, Int.toNat_natCast, BitVec.ofNat_toNat, BitVec.setWidth_eq]
    have fraction_eq : BitVec.ofNat 52 (leadingBit + fraction.toNat) = fraction := by
      apply BitVec.eq_of_toNat_eq
      rw [BitVec.toNat_ofNat]
      simp only [leadingBit]
      omega
    rw [unpack_full s ones least positive, pack_full (Nat.le_add_right _ _) canonical positive, exponent_eq, fraction_eq,
      fields]

theorem eq_of_view (same : view x = view y) : x = y := by
  have bits : x.toBits.toBitVec = y.toBits.toBitVec := by rw [← pack_view, ← pack_view, same]
  obtain ⟨⟨⟨a⟩, _⟩⟩ := x
  obtain ⟨⟨⟨b⟩, _⟩⟩ := y
  change a = b at bits
  subst bits
  rfl

theorem view_neg (x : Float) : view (-x) = encoded (view x).neg := rfl

theorem view_ofBits (bits : UInt64) : view (Float.ofBits bits) = encoded (unpack binary64 bits.toBitVec) := rfl

/-- The bits of a significand and an exponent stand for the number that these make. -/
theorem view_encode (canonical : Canonical m e) (positive : 0 < m) :
    view (Float.ofBits (encode m e)) = .finite .positive m e positive := by
  have bits : (encode m e).toBitVec = pack binary64 (.finite .positive m e positive) := by
    obtain ⟨fits, least, greatest, whole⟩ := canonical
    have sign : Sign.positive.toBitVec.toNat = 0 := rfl
    apply BitVec.eq_of_toNat_eq
    change (encode m e).toNat = _
    by_cases full : leadingBit ≤ m
    · rw [pack_full full ⟨fits, least, greatest, whole⟩, toNat_packComponents, encode, if_neg (not_lt.mpr full),
        if_neg (by omega), BitVec.toNat_ofNat, BitVec.toNat_ofNat, Nat.shiftLeft_eq]
      simp only [leadingBit] at *
      rw [Nat.toUInt64, UInt64.toNat_ofNat', sign]
      omega
    · have low : m < leadingBit := not_le.mp full
      obtain rfl : e = -1074 := by
        by_contra other
        exact full (whole (by omega))
      rw [pack_low low, toNat_packComponents, encode, if_pos low, BitVec.toNat_ofNat]
      simp only [leadingBit] at low
      rw [Nat.toUInt64, UInt64.toNat_ofNat', sign, BitVec.toNat_ofNat]
      omega
  rw [view_ofBits, bits]
  change encoded (encoded (.finite .positive m e positive)) = _
  rw [encoded_of_canonical canonical, encoded_of_canonical canonical]

end Entangle.Binary64
