import Mathlib
import Entangle.Decimal.Shortest
import Entangle.Proofs.NearestDoubles

/-!
# Shortest decimals

The decimal chosen for a double rounds to it. It is taken from a grid of powers of ten, and the grid of seventeen digits is
finer than the interval of the double, so that one of the two neighbours of the value on it lies in the interval.
-/

namespace Entangle.Decimal

open Binary64 (Canonical Rounds reach reach_bounds leadingBit roundHalfEven log2_bounds
  zpow_mul_pow)

/-- The number that a decimal stands for. -/
def value (d : Decimal) : ℚ := d.digits * 10 ^ d.exponent

/-! ## Quotients -/

namespace Ratio

variable {a b : Ratio}

def toRat (a : Ratio) : ℚ := a.num / a.den

theorem toRat_ofBinary (m : ℕ) (e : ℤ) : (ofBinary m e).toRat = m * 2 ^ e := by
  have den : (2 : ℚ) ^ (-e).toNat ≠ 0 := by positivity
  change ((m * 2 ^ e.toNat : ℕ) : ℚ) / (2 ^ (-e).toNat : ℕ) = _
  push_cast
  rw [div_eq_iff den, mul_assoc, zpow_mul_pow two_ne_zero]

theorem toRat_ofDecimal (n : ℕ) (e : ℤ) : (ofDecimal n e).toRat = n * 10 ^ e := by
  have den : (10 : ℚ) ^ (-e).toNat ≠ 0 := by positivity
  change ((n * 10 ^ e.toNat : ℕ) : ℚ) / (10 ^ (-e).toNat : ℕ) = _
  push_cast
  rw [div_eq_iff den, mul_assoc, zpow_mul_pow (by norm_num)]

theorem ofBinary_den (m : ℕ) (e : ℤ) : 0 < (ofBinary m e).den := Nat.pow_pos (by omega)

theorem ofDecimal_den (n : ℕ) (e : ℤ) : 0 < (ofDecimal n e).den := Nat.pow_pos (by omega)

theorem le_iff (first : 0 < a.den) (second : 0 < b.den) : a.le b = true ↔ a.toRat ≤ b.toRat := by
  rw [le, decide_eq_true_iff, toRat, toRat, div_le_div_iff₀ (by exact_mod_cast first) (by exact_mod_cast second)]
  exact_mod_cast Iff.rfl

theorem lt_iff (first : 0 < a.den) (second : 0 < b.den) : a.lt b = true ↔ a.toRat < b.toRat := by
  rw [lt, decide_eq_true_iff, toRat, toRat, div_lt_div_iff₀ (by exact_mod_cast first) (by exact_mod_cast second)]
  exact_mod_cast Iff.rfl

/-- A value lies between its two neighbours on a grid. -/
theorem floorAt_spec (positive : 0 < a.den) (unit : ℤ) :
    (a.floorAt unit : ℚ) * 10 ^ unit ≤ a.toRat ∧ a.toRat < (a.floorAt unit + 1 : ℕ) * 10 ^ unit := by
  have den : (0 : ℚ) < a.den := by exact_mod_cast positive
  have power : (0 : ℚ) < 10 ^ (-unit).toNat := by positivity
  have scaled : 0 < a.den * 10 ^ unit.toNat := Nat.mul_pos positive (Nat.pow_pos (by omega))
  have low := Nat.div_mul_le_self (a.num * 10 ^ (-unit).toNat) (a.den * 10 ^ unit.toNat)
  have high := Nat.lt_div_mul_add (a := a.num * 10 ^ (-unit).toNat) scaled
  change a.floorAt unit * _ ≤ _ at low
  change _ < a.floorAt unit * _ + _ at high
  have spread (n : ℚ) : n * 10 ^ unit * a.den * 10 ^ (-unit).toNat = n * (a.den * 10 ^ unit.toNat) := by
    rw [← zpow_mul_pow (show (10 : ℚ) ≠ 0 by norm_num) unit]
    ring
  constructor
  · rw [toRat, le_div_iff₀ den, ← mul_le_mul_iff_left₀ power, spread]
    exact_mod_cast low
  · rw [toRat, div_lt_iff₀ den, ← mul_lt_mul_iff_left₀ power, spread]
    have : a.num * 10 ^ (-unit).toNat < (a.floorAt unit + 1) * (a.den * 10 ^ unit.toNat) := by
      rwa [add_one_mul]
    exact_mod_cast this

theorem roundAt_eq (a : Ratio) (unit : ℤ) : a.roundAt unit = a.floorAt unit ∨ a.roundAt unit = a.floorAt unit + 1 := by
  rw [roundAt, roundHalfEven, floorAt]
  generalize a.num * Nat.pow 10 (-unit).toNat / (a.den * Nat.pow 10 unit.toNat) = q
  split_ifs <;> omega

/-- The estimate of the leading power of ten is at most one too large for every magnitude of the format. -/
theorem guess_le {binary : ℤ} (least : -1076 ≤ binary) (greatest : binary ≤ 1025) :
    (10 : ℚ) ^ ((binary * 30103).fdiv 100000 - 1) ≤ 2 ^ (binary - 1) := by
  have checked : ((List.range 2102).all fun k =>
      let power : ℤ := (((k : ℤ) - 1076) * 30103).fdiv 100000 - 1
      decide (10 ^ power.toNat * 2 ^ (-((k : ℤ) - 1077)).toNat ≤ 2 ^ ((k : ℤ) - 1077).toNat * 10 ^ (-power).toNat)) = true := by
    decide +kernel
  obtain ⟨k, rfl⟩ : ∃ k : ℕ, binary = (k : ℤ) - 1076 := ⟨(binary + 1076).toNat, by omega⟩
  rw [show (k : ℤ) - 1076 - 1 = k - 1077 by ring]
  have here := of_decide_eq_true (List.all_eq_true.mp checked k (List.mem_range.mpr (by omega)))
  generalize (((k : ℤ) - 1076) * 30103).fdiv 100000 - 1 = power at here ⊢
  generalize (k : ℤ) - 1077 = binary at here ⊢
  have compared : (10 : ℚ) ^ power.toNat * 2 ^ (-binary).toNat ≤ 2 ^ binary.toNat * 10 ^ (-power).toNat := by
    exact_mod_cast here
  have scale : (0 : ℚ) < 10 ^ (-power).toNat * 2 ^ (-binary).toNat := by positivity
  refine le_of_mul_le_mul_right ?_ scale
  rw [← mul_assoc, zpow_mul_pow (by norm_num), mul_comm ((10 : ℚ) ^ (-power).toNat), ← mul_assoc,
    zpow_mul_pow two_ne_zero]
  exact compared

/-- A positive value of the format has a digit at its leading power of ten. -/
theorem leading_le {m : ℕ} {e : ℤ} (canonical : Canonical m e) (positive : 0 < m) :
    (10 : ℚ) ^ (ofBinary m e).leading ≤ m * 2 ^ e := by
  obtain ⟨fits, least, greatest, -⟩ := canonical
  have den := ofBinary_den m e
  have num : 0 < (ofBinary m e).num := Nat.mul_pos positive (Nat.pow_pos (by omega))
  obtain ⟨low, high⟩ := log2_bounds num den
  rw [← toRat, toRat_ofBinary] at low high
  have one : (1 : ℚ) ≤ m := by exact_mod_cast positive
  have fits' : (m : ℚ) < 2 ^ (53 : ℤ) := by exact_mod_cast fits
  have compare {i j : ℤ} (ordered : (2 : ℚ) ^ i < 2 ^ j) : i < j := (zpow_lt_zpow_iff_right₀ one_lt_two).mp ordered
  have above := compare (lt_of_le_of_lt (le_mul_of_one_le_left (zpow_pos two_pos e).le one) high)
  have below := compare (low.trans_lt (mul_lt_mul_of_pos_right fits' (zpow_pos two_pos e)) |>.trans_eq
    (zpow_add₀ two_ne_zero 53 e).symm)
  have reached (power : ℤ) : (ofDecimal 1 power).le (ofBinary m e) = true ↔ (10 : ℚ) ^ power ≤ m * 2 ^ e := by
    rw [le_iff (ofDecimal_den 1 power) den, toRat_ofDecimal, toRat_ofBinary, Nat.cast_one, one_mul]
  unfold leading
  generalize ((ofBinary m e).num.log2 : ℤ) - (ofBinary m e).den.log2 = binary at low above below ⊢
  dsimp only
  split_ifs with larger estimated
  · exact (reached _).mp larger
  · exact (reached _).mp estimated
  · exact (guess_le (by omega) (by omega)).trans low

end Ratio

/-! ## The interval of a double -/

namespace Interval

variable {m : ℕ} {e : ℤ}

/-- The interval holds the numbers that round to the double. -/
theorem contains_iff (positive : 0 < m) {a : Ratio} (den : 0 < a.den) :
    (ofParts ⟨m, e⟩).contains a = true ↔ Rounds a.toRat m e := by
  have whole : (1 : ℚ) ≤ m := by exact_mod_cast positive
  have low : 0 < (ofParts ⟨m, e⟩).low.den ∧ (ofParts ⟨m, e⟩).low.toRat = (m - reach m e) * 2 ^ e := by
    rw [ofParts, reach]
    dsimp only
    split_ifs
    · refine ⟨Ratio.ofBinary_den _ _, ?_⟩
      rw [Ratio.toRat_ofBinary, Nat.cast_sub (by omega), zpow_sub₀ two_ne_zero]
      push_cast
      ring
    · refine ⟨Ratio.ofBinary_den _ _, ?_⟩
      rw [Ratio.toRat_ofBinary, Nat.cast_sub (by omega), zpow_sub₀ two_ne_zero]
      push_cast
      ring
  have high : 0 < (ofParts ⟨m, e⟩).high.den ∧ (ofParts ⟨m, e⟩).high.toRat = (m + 1 / 2) * 2 ^ e := by
    refine ⟨Ratio.ofBinary_den _ _, ?_⟩
    rw [ofParts, Ratio.toRat_ofBinary, zpow_sub₀ two_ne_zero]
    push_cast
    ring
  have closed : (ofParts ⟨m, e⟩).closed = true ↔ m % 2 = 0 := decide_eq_true_iff
  rw [contains]
  split_ifs with even
  · rw [Bool.and_eq_true, Ratio.le_iff low.1 den, Ratio.le_iff den high.1, low.2, high.2]
    have := closed.mp even
    exact ⟨fun inside => ⟨inside.1, inside.2, by omega⟩, fun rounds => ⟨rounds.low, rounds.high⟩⟩
  · rw [Bool.and_eq_true, Ratio.lt_iff low.1 den, Ratio.lt_iff den high.1, low.2, high.2]
    have odd : m % 2 = 1 := by
      have := mt closed.mpr even
      omega
    exact ⟨fun inside => ⟨inside.1.le, inside.2.le, fun _ => inside⟩, fun rounds => rounds.tie odd⟩

/-- The decimal taken from a grid lies in the interval. -/
theorem contains_of_onGrid {s : Interval} {unit : ℤ} {d : Decimal} (taken : s.onGrid unit = some d) :
    s.contains (.ofDecimal d.digits d.exponent) = true := by
  rw [onGrid] at taken
  split_ifs at taken with both down up
  · rw [Bool.and_eq_true] at both
    obtain rfl := Option.some.inj taken
    rcases s.value.roundAt_eq unit with rounded | rounded
    · rw [rounded]
      exact both.1
    · rw [rounded]
      exact both.2
  · obtain rfl := Option.some.inj taken
    exact down
  · obtain rfl := Option.some.inj taken
    exact up

/-- A grid of seventeen digits has a point in the interval. -/
theorem onGrid_ne_none (canonical : Canonical m e) (positive : 0 < m) {unit : ℤ}
    (fine : (10 : ℚ) ^ unit * 10 ^ 16 ≤ m * 2 ^ e) : (ofParts ⟨m, e⟩).onGrid unit ≠ none := by
  intro missed
  have den := Ratio.ofBinary_den m e
  obtain ⟨low, high⟩ := Ratio.floorAt_spec den unit
  rw [Ratio.toRat_ofBinary] at low high
  have size : (0 : ℚ) < 2 ^ e := zpow_pos two_pos e
  have bound := reach_bounds m e
  have outside (n : ℕ) (out : (ofParts ⟨m, e⟩).contains (.ofDecimal n unit) ≠ true) : ¬ Rounds (n * 10 ^ unit) m e := by
    rwa [ne_eq, contains_iff positive (Ratio.ofDecimal_den n unit), Ratio.toRat_ofDecimal] at out
  rw [onGrid] at missed
  split_ifs at missed with both down up
  have below := outside _ down
  have above := outside _ up
  change ¬ Rounds ((Ratio.ofBinary m e).floorAt unit * 10 ^ unit) m e at below
  change ¬ Rounds (((Ratio.ofBinary m e).floorAt unit + 1 : ℕ) * 10 ^ unit) m e at above
  generalize (Ratio.ofBinary m e).floorAt unit = k at low high below above
  -- a neighbour that does not round to the double lies beyond the end of the interval on its side
  have lower : (k : ℚ) * 10 ^ unit ≤ (m - reach m e) * 2 ^ e := by
    by_contra inside
    exact below ⟨by linarith, by linarith, fun _ => ⟨by linarith, by linarith⟩⟩
  have upper : ((m : ℚ) + 1 / 2) * 2 ^ e ≤ (k + 1 : ℕ) * 10 ^ unit := by
    by_contra inside
    have := mul_pos bound.1 size
    exact above ⟨by linarith, by linarith, fun _ => ⟨by linarith, by linarith⟩⟩
  push_cast at upper
  have wide : (1 / 2 + reach m e) * 2 ^ e ≤ 10 ^ unit := by linarith
  rw [reach] at wide
  split_ifs at wide with leading
  · rw [leading.1, leadingBit] at fine
    push_cast at fine
    linarith
  · have fits : (m : ℚ) < 2 ^ 53 := by exact_mod_cast canonical.fits
    have : (m : ℚ) * 2 ^ e < 2 ^ 53 * 2 ^ e := mul_lt_mul_of_pos_right fits size
    norm_num at this wide
    linarith

end Interval

/-! ## The decimal of a double -/

theorem value_trim (fuel : ℕ) (d : Decimal) : (trim fuel d).value = d.value := by
  induction fuel generalizing d with
  | zero => rfl
  | succ fuel ih =>
    rw [trim]
    split_ifs with zeros
    · rw [ih, value, value, zpow_add_one₀ (by norm_num)]
      have cut : d.digits / 10 * 10 = d.digits := Nat.div_mul_cancel (Nat.dvd_of_mod_eq_zero zeros.2)
      dsimp only
      rw [mul_comm ((10 : ℚ) ^ d.exponent), ← mul_assoc]
      congr 1
      exact_mod_cast cut
    · rfl

/-- The shortest decimal rounds to the double that it is chosen for. -/
theorem rounds_shortest {m : ℕ} {e : ℤ} (canonical : Canonical m e) (positive : 0 < m) :
    Rounds (shortest ⟨m, e⟩).value m e := by
  rw [shortest]
  rw [value_trim]
  cases found : (List.range 17).findSome? fun (k : ℕ) =>
      (Interval.ofParts ⟨m, e⟩).onGrid ((Interval.ofParts ⟨m, e⟩).value.leading - k) with
  | some d =>
    obtain ⟨k, -, taken⟩ := List.exists_of_findSome?_eq_some found
    have inside := Interval.contains_of_onGrid taken
    rwa [Interval.contains_iff positive (Ratio.ofDecimal_den _ _), Ratio.toRat_ofDecimal] at inside
  | none =>
    have missed := List.findSome?_eq_none_iff.mp found 16 (by simp)
    refine absurd missed (Interval.onGrid_ne_none canonical positive ?_)
    refine le_trans (le_of_eq ?_) (Ratio.leading_le canonical positive)
    change (10 : ℚ) ^ ((Ratio.ofBinary m e).leading - 16) * 10 ^ 16 = _
    rw [zpow_sub₀ (by norm_num)]
    norm_num

end Entangle.Decimal
