import Mathlib
import Entangle.Proofs.DoubleFormat
import Entangle.Proofs.Exact

/-!
# Rounding to doubles

An exact result is shifted to the exponent of the format and its significand rounded; a significand that then has one bit
too many is shifted once more. A number of the format is not changed, and no result is more than one unit of its last
place below the exact number. Dividing by one is therefore the identity, and a difference of doubles that is small is the
difference of numbers that are close.
-/

namespace Entangle.Binary64

open Float.Model (UnpackedFloat totalExponent)
open Float.Model.Format (binary64)
open Float.Model.UnpackedFloat

variable {x y : Float} {f g : UnpackedFloat} {s : Sign} {m n : ℕ} {e k : ℤ}

/-! ## Shifts -/

theorem mantissa_shiftRight (em : ExtendedMantissa) (k : ℕ) : (em >>> k).mantissa = em.mantissa / 2 ^ k := by
  induction k with
  | zero => exact (Nat.div_one _).symm
  | succ k ih =>
    change (em >>> k).mantissa / 2 = _
    rw [ih, Nat.div_div_eq_div_mul, Nat.pow_succ]

/-- A shift loses nothing of a multiple. -/
theorem shiftRight_multiple (m k : ℕ) : (⟨m * 2 ^ k, false, false⟩ : ExtendedMantissa) >>> k = ⟨m, false, false⟩ := by
  induction k generalizing m with
  | zero => 
    rw [pow_zero, mul_one]
    rfl
  | succ k ih =>
    change ((⟨m * 2 ^ (k + 1), false, false⟩ : ExtendedMantissa) >>> k).shiftRightOne = _
    have double : m * 2 ^ (k + 1) = (m * 2) * 2 ^ k := by rw [pow_succ]; ring
    rw [double, ih, ExtendedMantissa.shiftRightOne]
    simp

theorem roundedMantissa_bounds (em : ExtendedMantissa) :
    em.mantissa ≤ em.roundedMantissa ∧ em.roundedMantissa ≤ em.mantissa + 1 := by
  obtain ⟨m, roundBit, stickyBit⟩ := em
  cases roundBit <;> cases stickyBit <;>
    simp only [ExtendedMantissa.roundedMantissa, ExtendedMantissa.accuracy, Accuracy.roundToNearestEven] <;> omega

/-- The exponent of the format for a number. -/
theorem targetExponent_eq (m : ℕ) (e : ℤ) :
    binary64.targetExponent (totalExponent m e) = max ((m.log2 : ℤ) + e - 52) (-1074) := by
  change max ((m.log2 : ℤ) + 1 + e - 53) (-1074) = _
  congr 1
  omega

theorem shiftToTargetExponent_exact (m : ℕ) (e : ℤ) :
    shiftToTargetExponent binary64 m e .exact =
      ((⟨m, false, false⟩ : ExtendedMantissa) >>> (max ((m.log2 : ℤ) + e - 52) (-1074) - e).toNat,
        e + (max ((m.log2 : ℤ) + e - 52) (-1074) - e).toNat) := by
  rw [shiftToTargetExponent, targetExponent_eq]
  rfl

theorem log2_lt_of_fits (fits : m < 2 * leadingBit) : m.log2 ≤ 52 := by
  simp only [leadingBit] at fits
  rcases Nat.eq_zero_or_pos m with rfl | positive
  · decide
  · have : m.log2 < 53 := (Nat.log2_lt (by omega)).mpr (by omega)
    omega

/-- A significand that fits stays where it is. -/
theorem shiftToTargetExponent_fits (fits : m < 2 * leadingBit) (least : -1074 ≤ e) :
    shiftToTargetExponent binary64 m e .exact = (⟨m, false, false⟩, e) := by
  have bits := log2_lt_of_fits fits
  have none : (max ((m.log2 : ℤ) + e - 52) (-1074) - e).toNat = 0 := by omega
  rw [shiftToTargetExponent_exact, none]
  simp only [Nat.cast_zero, add_zero]
  rfl

/-- One that has a bit too many after rounding is halved. -/
theorem shiftToTargetExponent_overflow (least : -1074 ≤ e) :
    shiftToTargetExponent binary64 (2 * leadingBit) e .exact = (⟨leadingBit, false, false⟩, e + 1) := by
  have bits : (2 * leadingBit).log2 = 53 := by decide +kernel
  have one : (max (((2 * leadingBit).log2 : ℤ) + e - 52) (-1074) - e).toNat = 1 := by
    rw [bits]
    omega
  rw [shiftToTargetExponent_exact, one]
  rfl

/-! ## Rounding -/

/-- The value with a significand and an exponent, zero where the significand is. -/
def ofParts (s : Sign) (m : ℕ) (e : ℤ) : UnpackedFloat :=
  if h : m = 0 then .zero s else .finite s m e (Nat.pos_of_ne_zero h)

theorem ofParts_of_pos (positive : 0 < m) : ofParts s m e = .finite s m e positive := dif_neg positive.ne'

theorem log2_mul_two_pow (positive : 0 < m) (k : ℕ) : (m * 2 ^ k).log2 = m.log2 + k := by
  obtain ⟨low, high⟩ := (Nat.log2_eq_iff positive.ne').mp rfl
  refine (Nat.log2_eq_iff (Nat.mul_pos positive (Nat.two_pow_pos k)).ne').mpr ⟨?_, ?_⟩
  · rw [pow_add]
    exact Nat.mul_le_mul_right _ low
  · rw [show m.log2 + k + 1 = m.log2 + 1 + k by omega, pow_add]
    exact Nat.mul_lt_mul_of_pos_right high (Nat.two_pow_pos k)

/-- The exponent of a number of the format is the one that rounding aims at. -/
theorem Canonical.target (canonical : Canonical m e) : max ((m.log2 : ℤ) + e - 52) (-1074) = e := by
  obtain ⟨fits, least, greatest, full⟩ := canonical
  have bits := log2_lt_of_fits fits
  rcases eq_or_lt_of_le least with rfl | above
  · omega
  · have := log2_of_full (full above) fits
    omega

/-- Rounding a multiple of the unit of a number of the format gives the number. -/
theorem roundWithAccuracy_multiple (canonical : Canonical m e) (positive : 0 < m) (k : ℕ) :
    roundWithAccuracy binary64 s (m * 2 ^ k) (e - k) .exact = .finite s m e positive := by
  have target := canonical.target
  have shift : (max (((m * 2 ^ k).log2 : ℤ) + (e - k) - 52) (-1074) - (e - k)).toNat = k := by
    rw [log2_mul_two_pow positive]
    push_cast
    omega
  have first : shiftToTargetExponent binary64 (m * 2 ^ k) (e - k) .exact = (⟨m, false, false⟩, e) := by
    rw [shiftToTargetExponent_exact, shift, shiftRight_multiple, sub_add_cancel]
  have kept : (⟨m, false, false⟩ : ExtendedMantissa).roundedMantissa = m := rfl
  rw [roundWithAccuracy, first]
  simp only [kept, shiftToTargetExponent_fits canonical.fits canonical.least, dif_neg positive.ne']

/-- The result of rounding an exact number with a fine enough unit. It has a significand and an exponent of the format,
unless the exponent is too large, and it stands less than one unit of its last place below the number. -/
theorem exists_roundWithAccuracy (s : Sign) (positive : 0 < m) (fine : e ≤ max ((m.log2 : ℤ) + e - 52) (-1074)) :
    ∃ m' e', roundWithAccuracy binary64 s m e .exact = ofParts s m' e' ∧ m' < 2 * leadingBit ∧ -1074 ≤ e' ∧
      (-1074 < e' → leadingBit ≤ m') ∧ (m : ℝ) * 2 ^ e < (m' + 1) * 2 ^ e' := by
  obtain ⟨k, shift⟩ := Int.eq_ofNat_of_zero_le (sub_nonneg.mpr fine)
  generalize aim : max ((m.log2 : ℤ) + e - 52) (-1074) = target at shift
  have exponent : e + (k : ℤ) = target := by omega
  have least : -1074 ≤ target := by omega
  have first : shiftToTargetExponent binary64 m e .exact = ((⟨m, false, false⟩ : ExtendedMantissa) >>> k, target) := by
    rw [shiftToTargetExponent_exact, aim, shift, Int.toNat_natCast, exponent]
  have mantissa : ((⟨m, false, false⟩ : ExtendedMantissa) >>> k).mantissa = m / 2 ^ k := mantissa_shiftRight _ k
  obtain ⟨low, high⟩ := roundedMantissa_bounds ((⟨m, false, false⟩ : ExtendedMantissa) >>> k)
  rw [mantissa] at low high
  rw [roundWithAccuracy, first]
  dsimp only
  generalize ((⟨m, false, false⟩ : ExtendedMantissa) >>> k).roundedMantissa = r at low high ⊢
  -- the significand before it is rounded has at most fifty-three bits, and fifty-three above the least exponent
  obtain ⟨powerLow, powerHigh⟩ := (Nat.log2_eq_iff positive.ne').mp rfl
  have fits : m / 2 ^ k < 2 * leadingBit := by
    rw [Nat.div_lt_iff_lt_mul (Nat.two_pow_pos k)]
    calc m < 2 ^ (m.log2 + 1) := powerHigh
      _ ≤ 2 ^ (53 + k) := Nat.pow_le_pow_right (by omega) (by omega)
      _ = 2 * leadingBit * 2 ^ k := by rw [pow_add]; rfl
  have full : -1074 < target → leadingBit ≤ m / 2 ^ k := by
    intro above
    rw [Nat.le_div_iff_mul_le (Nat.two_pow_pos k)]
    calc leadingBit * 2 ^ k = 2 ^ (52 + k) := by rw [pow_add]; rfl
      _ ≤ 2 ^ m.log2 := Nat.pow_le_pow_right (by omega) (by omega)
      _ ≤ m := powerLow
  have below : (m : ℝ) * 2 ^ e < (r + 1) * 2 ^ target := by
    have cut : m < (r + 1) * 2 ^ k := by
      have := Nat.lt_div_mul_add (Nat.two_pow_pos k) (a := m)
      nlinarith [Nat.mul_le_mul_right (2 ^ k) low]
    have cut' : (m : ℝ) < (r + 1) * 2 ^ k := by exact_mod_cast cut
    rw [← exponent, zpow_add₀ two_ne_zero, zpow_natCast, mul_comm ((2 : ℝ) ^ e), ← mul_assoc]
    exact mul_lt_mul_of_pos_right cut' (by positivity)
  rcases lt_or_eq_of_le (show r ≤ 2 * leadingBit by omega) with short | long
  · rw [shiftToTargetExponent_fits short least]
    exact ⟨r, target, rfl, short, least, fun above => (full above).trans low, below⟩
  · rw [long, shiftToTargetExponent_overflow least]
    refine ⟨leadingBit, target + 1, rfl, by decide, by omega, fun _ => le_rfl, below.trans_le ?_⟩
    rw [long, zpow_add_one₀ two_ne_zero, ← mul_assoc, mul_right_comm]
    refine mul_le_mul_of_nonneg_right ?_ (by positivity)
    push_cast
    linarith

/-! ## Division by one -/

theorem view_one : view 1 = .finite .positive leadingBit (-52) (by decide) := rfl

/-- The quotient by one, before it is rounded, is the dividend in a finer unit. -/
theorem divCore_one (canonical : Canonical m e) :
    ∃ k : ℕ, divCore binary64 m e leadingBit (-52) = (m * 2 ^ k, e - k, .exact) := by
  have target := canonical.target
  have difference : totalExponent m e - totalExponent leadingBit (-52) = totalExponent m (e - 1) := by
    change (m.log2 : ℤ) + 1 + e - ((leadingBit.log2 : ℤ) + 1 + -52) = m.log2 + 1 + (e - 1)
    rw [show leadingBit.log2 = 52 by decide +kernel]
    omega
  obtain ⟨k, aim⟩ : ∃ k : ℕ, min (e - -52) (binary64.targetExponent (totalExponent m e - totalExponent leadingBit (-52))) =
      e - k := by
    rw [difference, targetExponent_eq]
    refine ⟨(e - min (e - -52) (max ((m.log2 : ℤ) + (e - 1) - 52) (-1074))).toNat, ?_⟩
    omega
  have shift : (e - -52 - (e - k)).toNat = 52 + k := by omega
  have shifted : m <<< (52 + k) = m * 2 ^ k * leadingBit := by
    rw [Nat.shiftLeft_eq, pow_add, mul_comm (2 ^ 52), ← mul_assoc]
    rfl
  have least : 0 < leadingBit := by decide
  refine ⟨k, ?_⟩
  rw [divCore]
  simp only [aim, shift, shifted, Nat.mul_div_cancel _ least, Nat.mul_mod_left]
  rfl

/-- Dividing by one changes no double. -/
theorem div_one (x : Float) : x / 1 = x := by
  apply eq_of_view
  rw [view_div, view_one]
  cases reading x with
  | notANumber seen => rw [seen]; rfl
  | infinity s seen =>
    rw [seen]
    cases s <;> rfl
  | zero s seen =>
    rw [seen]
    cases s <;> rfl
  | finite s m e positive seen canonical =>
    obtain ⟨k, quotient⟩ := divCore_one canonical
    have sign : s / Sign.positive = s := by cases s <;> rfl
    rw [seen, UnpackedFloat.div, quotient, sign]
    dsimp only
    rw [roundWithAccuracy_multiple canonical positive k, encoded_of_canonical canonical positive]

/-! ## Differences -/

/-- The number that a value stands for; zero where it is infinite or no number. -/
noncomputable def real : UnpackedFloat → ℝ
  | .notANumber => 0
  | .infinity _ => 0
  | .zero _ => 0
  | .finite s m e _ => (s.apply m : ℤ) * 2 ^ e

theorem apply_neg (s : Sign) (n : ℤ) : (-s).apply n = -s.apply n := by
  cases s <;> simp [Sign.apply]

theorem ofDouble_eq (finite : x.isFinite = true) : Exact.ofDouble x = real (view x) := by
  rw [isFinite_view] at finite
  rw [Exact.ofDouble]
  cases reading x with
  | notANumber seen => rw [seen] at finite; cases finite
  | infinity s seen => rw [seen] at finite; cases finite
  | zero s seen parted => simp [seen, parted, real]
  | finite s m e positive seen canonical parted sign =>
    rw [seen, parted, sign]
    cases s <;> simp [real, isNegative, Sign.apply]

/-- A value that is zero or a number of the format. -/
inductive Regular : UnpackedFloat → Prop where
  | zero (s : Sign) : Regular (.zero s)
  | finite (s : Sign) {m : ℕ} {e : ℤ} (positive : 0 < m) : Canonical m e → Regular (.finite s m e positive)

theorem regular_view (finite : x.isFinite = true) : Regular (view x) := by
  rw [isFinite_view] at finite
  cases reading x with
  | notANumber seen => rw [seen] at finite; cases finite
  | infinity s seen => rw [seen] at finite; cases finite
  | zero s seen => exact seen ▸ .zero s
  | finite s m e positive seen canonical => exact seen ▸ .finite s positive canonical

theorem Regular.encoded_neg (regular : Regular f) : encoded f.neg = f.neg := by
  cases regular with
  | zero s => exact encoded_zero (-s)
  | finite s positive canonical => exact encoded_of_canonical canonical positive

/-- A rounded value less than one unit of its last place away from zero as an exact number is. -/
structure Covers (f : UnpackedFloat) (exact : ℝ) (s : Sign) (m : ℕ) (e : ℤ) : Prop where
  value : f = ofParts s m e
  fits : m < 2 * leadingBit
  least : -1074 ≤ e
  full : -1074 < e → leadingBit ≤ m
  size : |exact| < (m + 1) * 2 ^ e

theorem abs_apply (s : Sign) (m : ℕ) : |((s.apply m : ℤ) : ℝ)| = m := by
  cases s <;> simp [Sign.apply]

/-- A number of the format covers itself. -/
theorem Regular.covers (regular : Regular f) : ∃ s m e, Covers f (real f) s m e := by
  cases regular with
  | zero s => exact ⟨s, 0, -1074, rfl, by decide, le_rfl, by omega, by simp [real]⟩
  | @finite s m e positive canonical =>
    obtain ⟨fits, least, greatest, full⟩ := canonical
    refine ⟨s, m, e, (ofParts_of_pos positive).symm, fits, least, full, ?_⟩
    rw [real, abs_mul, abs_apply, abs_of_pos (zpow_pos two_pos e)]
    exact mul_lt_mul_of_pos_right (lt_add_one _) (zpow_pos two_pos e)

theorem round_covers (s : Sign) (positive : 0 < m) (e : ℤ) {exact : ℝ} (size : |exact| = m * 2 ^ e) :
    ∃ m' e', Covers (UnpackedFloat.round binary64 s m e) exact s m' e' := by
  rw [UnpackedFloat.round, targetExponent_eq, decreaseExponent]
  dsimp only
  generalize shift : (e - max ((m.log2 : ℤ) + e - 52) (-1074)).toNat = k
  rw [Nat.shiftLeft_eq]
  have bits := log2_mul_two_pow positive k
  obtain ⟨m', e', value, fits, least, full, below⟩ := exists_roundWithAccuracy s
    (Nat.mul_pos positive (Nat.two_pow_pos k)) (show e - k ≤ max (((m * 2 ^ k).log2 : ℤ) + (e - k) - 52) (-1074) by
      rw [bits]; push_cast; omega)
  refine ⟨m', e', value, fits, least, full, ?_⟩
  rw [size]
  have same : (m : ℝ) * 2 ^ e = ((m * 2 ^ k : ℕ) : ℝ) * 2 ^ (e - k) := by
    push_cast
    rw [mul_assoc, ← zpow_natCast, ← zpow_add₀ two_ne_zero, add_sub_cancel]
  rw [same]
  exact below

/-- A number in a finer unit. -/
theorem real_decreaseExponent (s : Sign) (m : ℕ) {e least : ℤ} (below : least ≤ e) :
    ((s.apply (decreaseExponent m e least).1 : ℤ) : ℝ) * 2 ^ least = (s.apply m : ℤ) * 2 ^ e := by
  obtain ⟨k, shift⟩ := Int.eq_ofNat_of_zero_le (sub_nonneg.mpr below)
  have unit : e = k + least := by omega
  have wide : (decreaseExponent m e least).1 = m * 2 ^ k := by
    rw [decreaseExponent, shift]
    exact Nat.shiftLeft_eq m k
  have scaled : s.apply ((m * 2 ^ k : ℕ) : ℤ) = s.apply m * 2 ^ k := by
    cases s <;> simp [Sign.apply]
  rw [wide, scaled, unit, zpow_add₀ two_ne_zero, zpow_natCast]
  push_cast
  ring

theorem normalize_covers (n : ℤ) (e : ℤ) : ∃ s m' e', Covers (UnpackedFloat.normalize binary64 n e .positive) (n * 2 ^ e) s m' e' := by
  have size : |(n : ℝ) * 2 ^ e| = n.natAbs * 2 ^ e := by
    rw [abs_mul, abs_of_pos (show (0 : ℝ) < 2 ^ e from zpow_pos two_pos e), Nat.cast_natAbs, Int.cast_abs]
  rw [UnpackedFloat.normalize]
  split
  next below =>
    have negative : n < 0 := Int.compare_eq_lt.mp below
    obtain ⟨m', e', covers⟩ := @round_covers n.natAbs .negative (by omega) e (n * 2 ^ e) size
    exact ⟨.negative, m', e', (show (-n).toNat = n.natAbs by omega) ▸ covers⟩
  next equal =>
    obtain rfl : n = 0 := Int.compare_eq_eq.mp equal
    exact ⟨.positive, 0, -1074, rfl, by decide, le_rfl, by omega, by simp⟩
  next above =>
    have positive : 0 < n := Int.compare_eq_gt.mp above
    obtain ⟨m', e', covers⟩ := @round_covers n.natAbs .positive (by omega) e (n * 2 ^ e) size
    exact ⟨.positive, m', e', (show n.toNat = n.natAbs by omega) ▸ covers⟩

/-- The difference of two numbers, rounded but not yet written. -/
theorem sub_covers (first : Regular f) (second : Regular g) :
    ∃ s m e, Covers (.sub binary64 f g) (real f - real g) s m e := by
  cases first with
  | zero s =>
    cases second with
    | zero t =>
      obtain ⟨sign, none⟩ : ∃ sign, UnpackedFloat.sub binary64 (.zero s) (.zero t) = .zero sign := by
        cases s <;> cases t <;> exact ⟨_, rfl⟩
      rw [none]
      exact ⟨sign, 0, -1074, rfl, by decide, le_rfl, by omega, by simp [real]⟩
    | @finite t n k positive' canonical' =>
      obtain ⟨s', m', e', value, fits, least, full, size⟩ := (Regular.finite (-t) positive' canonical').covers
      refine ⟨s', m', e', value, fits, least, full, ?_⟩
      have turned : real (.zero s) - real (.finite t n k positive') = real (.finite (-t) n k positive') := by
        rw [real, real, real, apply_neg, Int.cast_neg, zero_sub, neg_mul]
      rw [turned]
      exact size
  | @finite s m e positive canonical =>
    cases second with
    | zero t =>
      obtain ⟨s', m', e', covers⟩ := (Regular.finite s positive canonical).covers
      rw [← sub_zero (real (.finite s m e positive))] at covers
      exact ⟨s', m', e', covers⟩
    | @finite t n k positive' canonical' =>
      have difference : real (.finite s m e positive) - real (.finite t n k positive') =
          ((s.apply (decreaseExponent m e (min e k)).1 - t.apply (decreaseExponent n k (min e k)).1 : ℤ) : ℝ) *
            2 ^ min e k := by
        rw [Int.cast_sub, sub_mul, real_decreaseExponent s m (min_le_left e k), real_decreaseExponent t n (min_le_right e k)]
        rfl
      rw [difference]
      exact normalize_covers _ _

/-- Too large a number is written as an infinity. -/
theorem encoded_of_large (large : 971 < e) (positive : 0 < m) : encoded (.finite s m e positive) = .infinity s := by
  have biased : e + binary64.exponentBias + binary64.mantissaBitsWithoutImplicit = e + 1075 := by
    change e + 1023 + 52 = e + 1075
    omega
  have lost : 2 ^ binary64.exponentBits ≤ (e + 1075).toNat + 1 := by
    change 2048 ≤ (e + 1075).toNat + 1
    omega
  rw [encoded, pack, biased, if_pos lost]
  exact encoded_infinity s

/-- Exponents decide, and then significands. -/
theorem real_lt_of_compare (fits : m < 2 * leadingBit) (least : -1074 ≤ e) (canonical : Canonical n k)
    (positive : 0 < m) (positive' : 0 < n)
    (compared : (UnpackedFloat.finite .positive m e positive).compare (.finite .positive n k positive') = some .lt) :
    (m : ℝ) * 2 ^ e < n * 2 ^ k := by
  have ordered : (compare e k).then (compare m n) = .lt := Option.some.inj compared
  rcases Ordering.then_eq_lt.mp ordered with below | ⟨equal, below⟩
  · have smaller : e + 1 ≤ k := Int.compare_eq_lt.mp below
    have full : (leadingBit : ℝ) ≤ n := by exact_mod_cast canonical.full (by omega)
    have fits' : (m : ℝ) < leadingBit * 2 := by
      rw [mul_comm]
      exact_mod_cast fits
    calc (m : ℝ) * 2 ^ e < leadingBit * 2 * 2 ^ e := mul_lt_mul_of_pos_right fits' (zpow_pos two_pos e)
      _ = leadingBit * 2 ^ (e + 1) := by rw [zpow_add_one₀ two_ne_zero]; ring
      _ ≤ leadingBit * 2 ^ k := by gcongr; norm_num
      _ ≤ n * 2 ^ k := by gcongr
  · obtain rfl : e = k := Int.compare_eq_eq.mp equal
    have smaller : (m : ℝ) < n := by exact_mod_cast Nat.compare_eq_lt.mp below
    exact mul_lt_mul_of_pos_right smaller (zpow_pos two_pos e)

/-- Doubles whose difference is small stand for numbers that are close. -/
theorem abs_ofDouble_sub_lt {bound : Float} (first : x.isFinite = true) (second : y.isFinite = true) (positive : 0 < n)
    (bounded : view bound = .finite .positive n k positive) (canonical : Canonical n k) (close : (x - y).abs < bound) :
    |Exact.ofDouble x - Exact.ofDouble y| < n * 2 ^ k * (1 + 2 ^ (-52 : ℤ)) + 2 ^ (-1074 : ℤ) := by
  obtain ⟨s, m, e, value, fits, least, full, size⟩ := sub_covers (regular_view first) (regular_view second)
  rw [lt_iff, view_abs, view_sub, value, bounded] at close
  rw [ofDouble_eq first, ofDouble_eq second]
  refine size.trans_le ?_
  rcases Nat.eq_zero_or_pos m with rfl | some
  · -- an exact number that is rounded to zero is less than the least unit
    obtain rfl : e = -1074 := by
      by_contra other
      exact absurd (full (by omega)) (by decide)
    rw [Nat.cast_zero, zero_add, one_mul]
    exact le_add_of_nonneg_left (by positivity)
  rw [ofParts_of_pos some] at close
  rcases lt_or_ge 971 e with large | small
  · rw [encoded_of_large large some] at close
    change (encoded (.infinity .positive)).compare _ = _ at close
    rw [encoded_infinity] at close
    cases close
  have own : Canonical m e := ⟨fits, least, small, full⟩
  rw [encoded_of_canonical own some] at close
  change (encoded (.finite .positive m e some)).compare _ = _ at close
  rw [encoded_of_canonical own some] at close
  have below := real_lt_of_compare fits least canonical some positive close
  have unit : (2 : ℝ) ^ e ≤ n * 2 ^ k * 2 ^ (-52 : ℤ) + 2 ^ (-1074 : ℤ) := by
    rcases eq_or_lt_of_le least with rfl | above
    · exact le_add_of_nonneg_left (by positivity)
    · have leading : ((2 : ℝ) ^ 52) ≤ m := by exact_mod_cast full above
      have part : (2 : ℝ) ^ e ≤ m * 2 ^ e * 2 ^ (-52 : ℤ) := by
        rw [zpow_neg, mul_right_comm, ← div_eq_mul_inv]
        refine le_mul_of_one_le_left (zpow_pos two_pos e).le ?_
        rwa [one_le_div (by positivity)]
      have := mul_le_mul_of_nonneg_right below.le (show (0 : ℝ) ≤ 2 ^ (-52 : ℤ) by positivity)
      have least : (0 : ℝ) < 2 ^ (-1074 : ℤ) := by positivity
      linarith
  linarith

/-! ## Sums -/

/-- A sum is a difference from what is turned around. -/
theorem add_eq_sub_neg (first : Regular f) (second : Regular g) :
    UnpackedFloat.add binary64 f g = .sub binary64 f g.neg := by
  cases first with
  | zero s =>
    cases second with
    | zero t => cases s <;> cases t <;> rfl
    | finite t positive => cases t <;> rfl
  | @finite s m e positive =>
    cases second with
    | zero t => rfl
    | @finite t n k positive' =>
      refine congrArg (fun sum => UnpackedFloat.normalize binary64 sum (min e k) .positive) ?_
      rw [apply_neg, sub_neg_eq_add]

theorem add_eq_sub (first : x.isFinite = true) (second : y.isFinite = true) : x + y = x - -y := by
  apply eq_of_view
  rw [view_add, view_sub, view_neg, (regular_view second).encoded_neg,
    add_eq_sub_neg (regular_view first) (regular_view second)]

end Entangle.Binary64
