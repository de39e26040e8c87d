import Mathlib
import Entangle.Scalar.Binary64

/-!
# Exact arithmetic

The real numbers as scalars. Over them a routine of the library has its mathematical meaning: every
operation is exact, no value is infinite or fails to be a number, and zero has one sign.
-/

noncomputable section

namespace Entangle.Exact

/-! A numeral carries a proof that it is at least two; under a name it is the same proof wherever the
numeral stands. -/

instance atLeastTwo_two : Nat.AtLeastTwo 2 := ⟨by decide⟩

instance atLeastTwo_three : Nat.AtLeastTwo 3 := ⟨by decide⟩

instance atLeastTwo_four : Nat.AtLeastTwo 4 := ⟨by decide⟩

/-- A natural number as a scalar. -/
def natural (n : ℕ) : ℝ := n

/-- The number that the bits of a finite double stand for. -/
def ofDouble (x : Float) : ℝ :=
  let p := Binary64.parts x
  (if Binary64.signBit x then -1 else 1) * p.significand * (2 : ℝ) ^ p.exponent

/-- The whole number next to a real one on the side of zero. -/
def towardsZero (x : ℝ) : ℤ := if 0 ≤ x then ⌊x⌋ else ⌈x⌉

/-- The nearest whole number; a half goes away from zero. -/
def nearestWhole (x : ℝ) : ℤ := if 0 ≤ x then ⌊x + 1 / 2⌋ else ⌈x - 1 / 2⌉

instance instScalar : Scalar ℝ where
  decLt := Real.decidableLT
  decLe := Real.decidableLE
  beq x y := decide (x = y)
  ofNat := natural
  ofScientific m negative e := OfScientific.ofScientific m negative e
  ofFloat := ofDouble
  piTimes num den := num / den * Real.pi
  abs x := |x|
  sqrt := Real.sqrt
  sin := Real.sin
  cos := Real.cos
  atan2 y x := Complex.arg ⟨x, y⟩
  hypot x y := Real.sqrt (x ^ 2 + y ^ 2)
  pow x y := x ^ y
  copysign x y := if y < 0 then -|x| else |x|
  fmod x y := x - y * towardsZero (x / y)
  round x := nearestWhole x

/-! ## Values of the operations -/

@[simp]
theorem zero_eq : @OfNat.ofNat ℝ 0 (Scalar.instOfNat 0) = 0 := Nat.cast_zero

@[simp]
theorem one_eq : @OfNat.ofNat ℝ 1 (Scalar.instOfNat 1) = 1 := Nat.cast_one

@[simp]
theorem numeral_eq (n : ℕ) [n.AtLeastTwo] :
    @OfNat.ofNat ℝ n (Scalar.instOfNat n) = OfNat.ofNat n := rfl

@[simp]
theorem ofNat_eq (n : ℕ) : (Scalar.ofNat n : ℝ) = n := rfl

@[simp]
theorem decimal_eq (m : ℕ) (negative : Bool) (e : ℕ) :
    @OfScientific.ofScientific ℝ Scalar.instOfScientific m negative e =
      OfScientific.ofScientific m negative e := rfl

@[simp]
theorem beq_iff (x y : ℝ) : @BEq.beq ℝ Scalar.toBEq x y = true ↔ x = y := decide_eq_true_iff

@[simp]
theorem piTimes_eq (num den : ℕ) : (Scalar.piTimes num den : ℝ) = num / den * Real.pi := rfl

@[simp]
theorem abs_eq (x : ℝ) : Scalar.abs x = |x| := rfl

@[simp]
theorem sqrt_eq (x : ℝ) : Scalar.sqrt x = Real.sqrt x := rfl

@[simp]
theorem sin_eq (x : ℝ) : Scalar.sin x = Real.sin x := rfl

@[simp]
theorem cos_eq (x : ℝ) : Scalar.cos x = Real.cos x := rfl

theorem atan2_eq (y x : ℝ) : Scalar.atan2 y x = Complex.arg ⟨x, y⟩ := rfl

theorem hypot_eq (x y : ℝ) : Scalar.hypot x y = Real.sqrt (x ^ 2 + y ^ 2) := rfl

theorem pow_eq (x y : ℝ) : Scalar.pow x y = x ^ y := rfl

theorem copysign_eq (x y : ℝ) : Scalar.copysign x y = if y < 0 then -|x| else |x| := rfl

theorem fmod_eq (x y : ℝ) : Scalar.fmod x y = x - y * towardsZero (x / y) := rfl

@[simp]
theorem pi_eq : (Scalar.pi : ℝ) = Real.pi := by simp [Scalar.pi]

@[simp]
theorem halfPi_eq : (Scalar.halfPi : ℝ) = Real.pi / 2 := by
  rw [Scalar.halfPi, pi_eq]
  rfl

@[simp]
theorem quarterPi_eq : (Scalar.quarterPi : ℝ) = Real.pi / 4 := by
  rw [Scalar.quarterPi, pi_eq]
  rfl

@[simp]
theorem tau_eq : (Scalar.tau : ℝ) = 2 * Real.pi := by
  rw [Scalar.tau, pi_eq]
  rfl

/-! ## Tests that exact numbers always pass -/

@[simp]
theorem isNaN_eq (x : ℝ) : Scalar.isNaN x = false := by simp [Scalar.isNaN]

@[simp]
theorem isFinite_eq (x : ℝ) : Scalar.isFinite x = true := by simp [Scalar.isFinite]

@[simp]
theorem isInf_eq (x : ℝ) : Scalar.isInf x = false := by simp [Scalar.isInf]

@[simp]
theorem larger_eq (x y : ℝ) : Scalar.larger x y = max x y := by
  simp only [Scalar.larger, isInf_eq, isNaN_eq, Bool.false_and, Bool.false_eq_true, if_false]
  split
  next above => rw [max_eq_left above.le]
  next below => rw [max_eq_right (not_lt.mp below)]

/-! ## Angles up to whole turns -/

theorem modPositive_eq (x m : ℝ) : ∃ k : ℤ, Scalar.modPositive x m = x - m * k := by
  unfold Scalar.modPositive
  rw [fmod_eq]
  dsimp only
  split
  · refine ⟨towardsZero (x / m) - 1, ?_⟩
    push_cast
    ring
  · exact ⟨towardsZero (x / m), rfl⟩

theorem wrapAngle_eq (x : ℝ) :
    Scalar.wrapAngle x =
      (x - 2 * Real.pi * nearestWhole (x / (2 * Real.pi)), (nearestWhole (x / (2 * Real.pi)) : ℝ)) := by
  unfold Scalar.wrapAngle
  rw [tau_eq]
  rfl

theorem nearestWhole_of_abs_lt {x : ℝ} (small : |x| < 1 / 2) : nearestWhole x = 0 := by
  obtain ⟨low, high⟩ := abs_lt.mp small
  unfold nearestWhole
  split
  · rw [Int.floor_eq_zero_iff]
    constructor <;> linarith
  · rw [Int.ceil_eq_zero_iff]
    constructor <;> linarith

/-- An angle of less than half a turn stays as it is. -/
theorem wrapAngle_of_abs_lt {x : ℝ} (small : |x| < Real.pi) : Scalar.wrapAngle x = (x, (0 : ℝ)) := by
  have pi := Real.pi_pos
  have none : nearestWhole (x / (2 * Real.pi)) = 0 := by
    apply nearestWhole_of_abs_lt
    rw [abs_div, abs_of_pos (by positivity : 0 < 2 * Real.pi), div_lt_iff₀ (by positivity)]
    linarith
  rw [wrapAngle_eq, none, Int.cast_zero, mul_zero, sub_zero]

end Entangle.Exact

end
