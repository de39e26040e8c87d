import Mathlib
import Entangle.Decimal.Numeral
import Entangle.Proofs.DoubleFormat

/-!
# Nearest doubles

The rational numbers that round to a double reach from half a unit of its last place below it to half a unit above, but
only a quarter of a unit below where its significand is the least of a binade; the ends belong to them where the
significand is even. The double nearest to a quotient is the one that the quotient rounds to, and so is the value of a
decimal numeral.
-/

namespace Entangle

namespace Binary64

variable {m num den : ℕ} {e : ℤ} {q : ℚ}

/-! ## Rounding to whole numbers -/

/-- A quotient that lies within half of a whole number is rounded to it, where it is even also at the ends. -/
theorem roundHalfEven_eq (positive : 0 < den) (value : (num : ℚ) = q * den) (low : (m : ℚ) - 1 / 2 ≤ q)
    (high : q ≤ m + 1 / 2) (tie : m % 2 = 1 → (m : ℚ) - 1 / 2 < q ∧ q < m + 1 / 2) : roundHalfEven num den = m := by
  have denominator : (0 : ℚ) < den := by exact_mod_cast positive
  have split : (den : ℚ) * (num / den : ℕ) + (num % den : ℕ) = num := by exact_mod_cast Nat.div_add_mod num den
  have rest := Nat.mod_lt num positive
  rw [roundHalfEven]
  generalize num / den = k at split ⊢
  generalize num % den = r at split rest ⊢
  have rest' : (r : ℚ) < den := by exact_mod_cast rest
  have place : den * (q - k) = r := by linarith
  have fraction : 0 ≤ q - k ∧ q - k < 1 := by
    constructor
    · refine le_of_mul_le_mul_left ?_ denominator
      rw [mul_zero, place]
      exact Nat.cast_nonneg r
    · refine lt_of_mul_lt_mul_left ?_ denominator.le
      rwa [mul_one, place]
  have notAbove : k ≤ m := by
    have : (k : ℚ) < m + 1 := by linarith
    exact Nat.lt_succ_iff.mp (by exact_mod_cast this)
  have notBelow : m ≤ k + 1 := by
    have : (m : ℚ) < k + 2 := by linarith
    exact Nat.lt_succ_iff.mp (by exact_mod_cast this)
  -- the quotient is cut to the number itself, or to the one before it
  rcases Nat.eq_or_lt_of_le notAbove with rfl | before
  · have half : 2 * r ≤ den := by
      have : 2 * (r : ℚ) ≤ den := by nlinarith
      exact_mod_cast this
    have even : 2 * r = den → k % 2 = 0 := by
      intro middle
      by_contra odd
      have below := (tie (by omega)).2
      have : 2 * (r : ℚ) = den := by exact_mod_cast middle
      nlinarith
    split_ifs <;> omega
  · obtain rfl : m = k + 1 := by omega
    push_cast at low high tie
    have half : den ≤ 2 * r := by
      have : (den : ℚ) ≤ 2 * r := by nlinarith
      exact_mod_cast this
    have odd : 2 * r = den → k % 2 = 1 := by
      intro middle
      by_contra even
      have above := (tie (by omega)).1
      have : 2 * (r : ℚ) = den := by exact_mod_cast middle
      nlinarith
    split_ifs <;> omega

/-- A power with an integer exponent is a quotient of two with natural ones. -/
theorem zpow_mul_pow {b : ℚ} (some : b ≠ 0) (e : ℤ) : b ^ e * b ^ (-e).toNat = b ^ e.toNat := by
  rw [← zpow_natCast, ← zpow_natCast, ← zpow_add₀ some]
  congr 1
  omega

/-- The same in units of a power of two. -/
theorem significandAt_eq (positive : 0 < den) (value : (num : ℚ) = q * 2 ^ e * den) (low : (m : ℚ) - 1 / 2 ≤ q)
    (high : q ≤ m + 1 / 2) (tie : m % 2 = 1 → (m : ℚ) - 1 / 2 < q ∧ q < m + 1 / 2) : significandAt num den e = m := by
  refine roundHalfEven_eq (Nat.mul_pos positive (Nat.two_pow_pos _)) ?_ low high tie
  change ((num * 2 ^ (-e).toNat : ℕ) : ℚ) = q * ((den * 2 ^ e.toNat : ℕ) : ℚ)
  push_cast
  rw [value, ← zpow_mul_pow two_ne_zero e]
  ring

/-! ## The binary exponent -/

/-- The lengths of the two numbers give the binary exponent of their quotient up to one. -/
theorem log2_bounds (some : 0 < num) (positive : 0 < den) :
    (2 : ℚ) ^ ((num.log2 : ℤ) - den.log2 - 1) ≤ num / den ∧ (num : ℚ) / den < 2 ^ ((num.log2 : ℤ) - den.log2 + 1) := by
  have denominator : (0 : ℚ) < den := by exact_mod_cast positive
  have powers {n : ℕ} (some : 0 < n) : (2 : ℚ) ^ (n.log2 : ℤ) ≤ n ∧ (n : ℚ) < 2 ^ ((n.log2 : ℤ) + 1) := by
    obtain ⟨low, high⟩ := (Nat.log2_eq_iff some.ne').mp rfl
    exact ⟨by exact_mod_cast low, by exact_mod_cast high⟩
  obtain ⟨low, high⟩ := powers some
  obtain ⟨low', high'⟩ := powers positive
  constructor
  · rw [le_div_iff₀ denominator]
    calc (2 : ℚ) ^ ((num.log2 : ℤ) - den.log2 - 1) * den
        ≤ 2 ^ ((num.log2 : ℤ) - den.log2 - 1) * 2 ^ ((den.log2 : ℤ) + 1) := by gcongr
      _ = 2 ^ (num.log2 : ℤ) := by rw [← zpow_add₀ two_ne_zero]; congr 1; omega
      _ ≤ num := low
  · rw [div_lt_iff₀ denominator]
    calc (num : ℚ) < 2 ^ ((num.log2 : ℤ) + 1) := high
      _ = 2 ^ ((num.log2 : ℤ) - den.log2 + 1) * 2 ^ (den.log2 : ℤ) := by rw [← zpow_add₀ two_ne_zero]; congr 1; omega
      _ ≤ 2 ^ ((num.log2 : ℤ) - den.log2 + 1) * den := by gcongr

/-- A positive quotient lies in the binade of its binary exponent. -/
theorem binaryExponent_spec (some : 0 < num) (positive : 0 < den) :
    (2 : ℚ) ^ binaryExponent num den ≤ num / den ∧ (num : ℚ) / den < 2 ^ (binaryExponent num den + 1) := by
  have denominator : (0 : ℚ) < den := by exact_mod_cast positive
  obtain ⟨below, above⟩ := log2_bounds some positive
  rw [binaryExponent]
  generalize (num.log2 : ℤ) - den.log2 = guess at below above ⊢
  have compared : num * 2 ^ (-guess).toNat < den * 2 ^ guess.toNat ↔ (num : ℚ) / den < 2 ^ guess := by
    rw [div_lt_iff₀ denominator, ← mul_lt_mul_iff_left₀ (show (0 : ℚ) < 2 ^ (-guess).toNat by positivity),
      mul_right_comm, zpow_mul_pow two_ne_zero, mul_comm ((2 : ℚ) ^ guess.toNat), ← Nat.cast_lt (α := ℚ)]
    push_cast
    rfl
  split_ifs with smaller
  · rw [sub_add_cancel]
    exact ⟨below, compared.mp smaller⟩
  · exact ⟨not_lt.mp fun less => smaller (compared.mpr less), above⟩

theorem le_binaryExponent (some : 0 < num) (positive : 0 < den) {k : ℤ} (low : (2 : ℚ) ^ k ≤ num / den) :
    k ≤ binaryExponent num den := by
  have below := low.trans_lt (binaryExponent_spec some positive).2
  exact Int.lt_add_one_iff.mp ((zpow_lt_zpow_iff_right₀ one_lt_two).mp below)

theorem binaryExponent_le (some : 0 < num) (positive : 0 < den) {k : ℤ} (high : (num : ℚ) / den < 2 ^ (k + 1)) :
    binaryExponent num den ≤ k := by
  have above := (binaryExponent_spec some positive).1.trans_lt high
  exact Int.lt_add_one_iff.mp ((zpow_lt_zpow_iff_right₀ one_lt_two).mp above)

/-! ## The numbers that round to a double -/

/-- How far the numbers that round to a double reach below it, in units of its last place. -/
def reach (m : ℕ) (e : ℤ) : ℚ := if m = leadingBit ∧ -1074 < e then 1 / 4 else 1 / 2

/-- The number rounds to a significand and an exponent of the format. -/
structure Rounds (q : ℚ) (m : ℕ) (e : ℤ) : Prop where
  low : ((m : ℚ) - reach m e) * 2 ^ e ≤ q
  high : q ≤ (m + 1 / 2) * 2 ^ e
  tie : m % 2 = 1 → ((m : ℚ) - reach m e) * 2 ^ e < q ∧ q < (m + 1 / 2) * 2 ^ e

theorem reach_bounds (m : ℕ) (e : ℤ) : 0 < reach m e ∧ reach m e ≤ 1 / 2 := by
  rw [reach]
  split_ifs <;> norm_num

theorem Rounds.pos (some : 0 < m) (rounds : Rounds q m e) : 0 < q := by
  have one : (1 : ℚ) ≤ m := by exact_mod_cast some
  have bound := reach_bounds m e
  exact lt_of_lt_of_le (mul_pos (by linarith) (zpow_pos two_pos e)) rounds.low

theorem leadingBit_mul (e : ℤ) : (leadingBit : ℚ) * 2 ^ e = 2 ^ (e + 52) := by
  rw [zpow_add₀ two_ne_zero, mul_comm]
  norm_num [leadingBit]

/-- What rounds to a double is below the binade after its own. -/
theorem Rounds.lt_next (canonical : Canonical m e) (rounds : Rounds q m e) : q < 2 ^ (e + 52 + 1) := by
  have fits : (m : ℚ) + 1 ≤ leadingBit * 2 := by
    have : m + 1 ≤ leadingBit * 2 := Nat.mul_comm 2 leadingBit ▸ canonical.fits
    exact_mod_cast this
  refine rounds.high.trans_lt ?_
  rw [zpow_add_one₀ two_ne_zero, ← leadingBit_mul, mul_right_comm]
  exact mul_lt_mul_of_pos_right (by linarith) (zpow_pos two_pos e)

/-- It is in the binade of the double, unless the double is the least of a binade. -/
theorem Rounds.binade_le (canonical : Canonical m e) (rounds : Rounds q m e) (above : -1074 < e)
    (least : m = leadingBit → (2 : ℚ) ^ (e + 52) ≤ q) : (2 : ℚ) ^ (e + 52) ≤ q := by
  rcases Nat.eq_or_lt_of_le (canonical.full above) with same | more
  · exact least same.symm
  · have more : (leadingBit : ℚ) + 1 ≤ m := by exact_mod_cast more
    have bound := reach_bounds m e
    refine le_trans ?_ rounds.low
    rw [← leadingBit_mul]
    exact mul_le_mul_of_nonneg_right (by linarith) (zpow_pos two_pos e).le

theorem significandAt_of_rounds (positive : 0 < den) (rounds : Rounds (num / den) m e) : significandAt num den e = m := by
  have unit : (0 : ℚ) < 2 ^ e := zpow_pos two_pos e
  have denominator : (den : ℚ) ≠ 0 := by exact_mod_cast positive.ne'
  have bound := reach_bounds m e
  have low := (le_div_iff₀ unit).mpr rounds.low
  have value : (num : ℚ) = num / den / 2 ^ e * 2 ^ e * den := by field_simp
  refine significandAt_eq positive value (by linarith) ((div_le_iff₀ unit).mpr rounds.high) fun odd => ?_
  obtain ⟨low, high⟩ := rounds.tie odd
  rw [← lt_div_iff₀ unit] at low
  exact ⟨by linarith, (div_lt_iff₀ unit).mpr high⟩

section Least

variable (above : -1074 < e)
include above

/-- Below the least significand of a binade, a number is still in the binade before. -/
theorem Rounds.finer_le (rounds : Rounds q leadingBit e) : (2 : ℚ) ^ (e + 51) ≤ q := by
  have low := rounds.low
  have finer : (2 : ℚ) ^ (e + 52) = 2 * 2 ^ (e + 51) := by rw [← zpow_one_add₀ two_ne_zero]; congr 1; ring
  have unit : (2 : ℚ) ^ e ≤ 2 ^ (e + 51) := zpow_le_zpow_right₀ one_le_two (by omega)
  rw [reach, if_pos ⟨rfl, above⟩, sub_mul, leadingBit_mul, finer] at low
  linarith [zpow_pos (two_pos (α := ℚ)) e]

/-- There it is rounded in the unit of that binade, up to its end. -/
theorem significandAt_finer (positive : 0 < den) (rounds : Rounds (num / den) leadingBit e)
    (short : (num : ℚ) / den < 2 ^ (e + 52)) : significandAt num den (e - 1) = 2 * leadingBit := by
  have half : (0 : ℚ) < 2 ^ (e - 1) := zpow_pos two_pos _
  have denominator : (den : ℚ) ≠ 0 := by exact_mod_cast positive.ne'
  have finer : (2 : ℚ) ^ e = 2 * 2 ^ (e - 1) := by rw [← zpow_one_add₀ two_ne_zero, add_sub_cancel]
  have low := rounds.low
  rw [reach, if_pos ⟨rfl, above⟩, finer] at low
  rw [← leadingBit_mul, finer] at short
  have value : (num : ℚ) = num / den / 2 ^ (e - 1) * 2 ^ (e - 1) * den := by field_simp
  refine significandAt_eq positive value ?_ ?_ (by omega)
  · rw [le_div_iff₀ half]
    push_cast
    linarith
  · rw [div_le_iff₀ half]
    push_cast
    linarith

end Least

/-- A quotient that rounds to a double has it for its nearest one. -/
theorem nearest_eq (canonical : Canonical m e) (some : 0 < m) (positive : 0 < den) (rounds : Rounds (num / den) m e) :
    nearest num den = Float.ofBits (encode m e) := by
  have numerator : 0 < num := by
    rw [Nat.pos_iff_ne_zero]
    rintro rfl
    simpa using rounds.pos some
  rw [nearest, if_neg numerator.ne']
  dsimp only
  by_cases inside : m = leadingBit ∧ -1074 < e ∧ (num : ℚ) / den < 2 ^ (e + 52)
  · -- the exponent is then the one of the binade before, and the significand the end of it
    obtain ⟨rfl, above, short⟩ := inside
    have low := le_binaryExponent numerator positive (rounds.finer_le above)
    have high := binaryExponent_le numerator positive (k := e + 51) (by rwa [add_assoc])
    have exponent : max (binaryExponent num den - 52) (-1074) = e - 1 := by omega
    rw [exponent, significandAt_finer above positive rounds short, if_pos rfl, sub_add_cancel]
  · have high := binaryExponent_le numerator positive (rounds.lt_next canonical)
    have exponent : max (binaryExponent num den - 52) (-1074) = e := by
      rcases eq_or_lt_of_le canonical.least with rfl | above
      · omega
      · have low := le_binaryExponent numerator positive <| rounds.binade_le canonical above fun same =>
          not_lt.mp fun short => inside ⟨same, above, short⟩
        omega
    rw [exponent, significandAt_of_rounds positive rounds, if_neg canonical.fits.ne]

/-- What rounds to a double is neither tiny nor huge. -/
theorem Rounds.range (canonical : Canonical m e) (some : 0 < m) (rounds : Rounds q m e) :
    (10 : ℚ) ^ (-400 : ℤ) ≤ q ∧ q < 10 ^ (400 : ℤ) := by
  obtain ⟨fits, least, greatest, -⟩ := canonical
  have bound := reach_bounds m e
  have one : (1 : ℚ) ≤ m := by exact_mod_cast some
  have fits' : (m : ℚ) + 1 ≤ 2 ^ 53 := by
    have : m + 1 ≤ 2 ^ 53 := fits
    exact_mod_cast this
  constructor
  · have tiny : 2 * (2 : ℚ) ^ 1074 ≤ 10 ^ 400 := by
      have : 2 * 2 ^ 1074 ≤ 10 ^ 400 := by decide +kernel
      exact_mod_cast this
    calc (10 : ℚ) ^ (-400 : ℤ) = (10 ^ 400)⁻¹ := by rw [zpow_neg, zpow_ofNat]
      _ ≤ (2 * 2 ^ 1074)⁻¹ := inv_anti₀ (by positivity) tiny
      _ = 1 / 2 * 2 ^ (-1074 : ℤ) := by rw [mul_inv, zpow_neg, zpow_ofNat, one_div]
      _ ≤ (m - reach m e) * 2 ^ e :=
        mul_le_mul (by linarith) (zpow_le_zpow_right₀ one_le_two least) (by positivity) (by linarith)
      _ ≤ q := rounds.low
  · have huge : (2 : ℚ) ^ 53 * 2 ^ 971 < 10 ^ 400 := by
      have : 2 ^ 53 * 2 ^ 971 < 10 ^ 400 := by decide +kernel
      exact_mod_cast this
    calc q ≤ (m + 1 / 2) * 2 ^ e := rounds.high
      _ ≤ 2 ^ 53 * 2 ^ (971 : ℤ) :=
        mul_le_mul (by linarith) (zpow_le_zpow_right₀ one_le_two greatest) (by positivity) (by positivity)
      _ < 10 ^ (400 : ℤ) := huge

end Binary64

namespace Numeral

open Binary64 (Canonical Rounds encode nearest_eq zpow_mul_pow)

variable {digits m : ℕ} {exponent e : ℤ}

/-! ## Decimal numerals -/

/-- The number of the digits gives the power of ten of the leading one. -/
theorem toDigits_bounds {n : ℕ} (some : n ≠ 0) :
    (10 : ℚ) ^ (((Nat.toDigits 10 n).length : ℤ) - 1) ≤ n ∧ (n : ℚ) < 10 ^ ((Nat.toDigits 10 n).length : ℤ) := by
  have positive : 0 < (Nat.toDigits 10 n).length := Nat.length_toDigits_pos
  have count {k : ℕ} (wide : 0 < k) : (Nat.toDigits 10 n).length ≤ k ↔ n < 10 ^ k :=
    Nat.length_toDigits_le_iff (by omega) wide
  constructor
  · obtain ⟨k, length⟩ := Nat.exists_eq_add_of_lt positive
    rw [length, zero_add, Nat.cast_add_one, add_sub_cancel_right, zpow_natCast]
    cases k with
    | zero =>
      rw [pow_zero]
      exact_mod_cast Nat.one_le_iff_ne_zero.mpr some
    | succ k =>
      have : 10 ^ (k + 1) ≤ n := by
        by_contra short
        have := (count k.succ_pos).mpr (not_le.mp short)
        omega
      exact_mod_cast this
  · have := (count positive).mp le_rfl
    rw [zpow_natCast]
    exact_mod_cast this

theorem digits_ne_zero (positive : 0 < m) (rounds : Rounds (digits * 10 ^ exponent) m e) : digits ≠ 0 := by
  rintro rfl
  simpa using rounds.pos positive

/-- The leading digit of a numeral that rounds to a double. -/
theorem leading_bounds (canonical : Canonical m e) (positive : 0 < m) (rounds : Rounds (digits * 10 ^ exponent) m e) :
    -400 < exponent + ((Nat.toDigits 10 digits).length : ℤ) ∧ exponent + ((Nat.toDigits 10 digits).length : ℤ) ≤ 400 := by
  obtain ⟨low, high⟩ := rounds.range canonical positive
  obtain ⟨least, greatest⟩ := toDigits_bounds (digits_ne_zero positive rounds)
  have unit : (0 : ℚ) < 10 ^ exponent := zpow_pos (by norm_num) exponent
  have compare {i j : ℤ} (ordered : (10 : ℚ) ^ i < 10 ^ j) : i < j :=
    (zpow_lt_zpow_iff_right₀ (by norm_num)).mp ordered
  constructor
  · refine compare (low.trans_lt ?_)
    rw [add_comm, zpow_add₀ (by norm_num)]
    exact mul_lt_mul_of_pos_right greatest unit
  · refine Int.sub_one_lt_iff.mp (compare (lt_of_le_of_lt ?_ high))
    rw [add_sub_assoc, add_comm, zpow_add₀ (by norm_num)]
    exact mul_le_mul_of_nonneg_right least unit.le

/-- The value of a numeral that rounds to a double is the double. -/
theorem decimalValue_eq (canonical : Canonical m e) (positive : 0 < m) (rounds : Rounds (digits * 10 ^ exponent) m e) :
    decimalValue digits exponent = Float.ofBits (encode m e) := by
  obtain ⟨low, high⟩ := leading_bounds canonical positive rounds
  rw [decimalValue, if_neg (digits_ne_zero positive rounds), if_neg (not_lt.mpr high), if_neg (not_lt.mpr low.le)]
  refine nearest_eq canonical positive (Nat.pow_pos (by omega)) ?_
  have value : ((digits * Nat.pow 10 exponent.toNat : ℕ) : ℚ) / (Nat.pow 10 (-exponent).toNat : ℕ) = digits * 10 ^ exponent := by
    change ((digits * 10 ^ exponent.toNat : ℕ) : ℚ) / (10 ^ (-exponent).toNat : ℕ) = _
    push_cast
    rw [div_eq_iff (by positivity), mul_assoc, zpow_mul_pow (by norm_num)]
  rw [value]
  exact rounds

end Numeral

end Entangle
