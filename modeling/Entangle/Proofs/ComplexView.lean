import Mathlib
import Entangle.Cx
import Entangle.Proofs.Exact

/-!
# Pairs as complex numbers

Over exact arithmetic a pair is a complex number, and each operation on pairs is the operation on
complex numbers that it is named for. The quotient is exact on both of its branches, and the square
root squares to its argument whichever scale it was computed at.
-/

noncomputable section

namespace Entangle.Cx

open Complex (I)

/-- The complex number that a pair stands for. -/
def toComplex (z : Cx ℝ) : ℂ := ⟨z.re, z.im⟩

@[simp]
theorem re_toComplex (z : Cx ℝ) : z.toComplex.re = z.re := rfl

@[simp]
theorem im_toComplex (z : Cx ℝ) : z.toComplex.im = z.im := rfl

theorem toComplex_injective : Function.Injective toComplex := by
  intro z w same
  exact Cx.ext (congrArg Complex.re same) (congrArg Complex.im same)

theorem toComplex_mk (x y : ℝ) : toComplex ⟨x, y⟩ = x + y * I := Complex.mk_eq_add_mul_I x y

@[simp]
theorem toComplex_ofReal (x : ℝ) : (ofReal x).toComplex = x := by
  rw [ofReal, toComplex_mk]
  simp

@[simp]
theorem toComplex_zero : (0 : Cx ℝ).toComplex = 0 := (toComplex_ofReal _).trans (by simp)

@[simp]
theorem toComplex_one : (1 : Cx ℝ).toComplex = 1 := (toComplex_ofReal _).trans (by simp)

@[simp]
theorem toComplex_ofNat (n : ℕ) [n.AtLeastTwo] :
    (OfNat.ofNat n : Cx ℝ).toComplex = OfNat.ofNat n :=
  (toComplex_ofReal _).trans (Complex.ofReal_natCast n)

@[simp]
theorem toComplex_i : (i : Cx ℝ).toComplex = I := by
  rw [i, toComplex_mk]
  simp

@[simp]
theorem toComplex_add (z w : Cx ℝ) : (z + w).toComplex = z.toComplex + w.toComplex :=
  Complex.ext rfl rfl

@[simp]
theorem toComplex_sub (z w : Cx ℝ) : (z - w).toComplex = z.toComplex - w.toComplex :=
  Complex.ext rfl rfl

@[simp]
theorem toComplex_neg (z : Cx ℝ) : (-z).toComplex = -z.toComplex := Complex.ext rfl rfl

@[simp]
theorem toComplex_mul (z w : Cx ℝ) : (z * w).toComplex = z.toComplex * w.toComplex :=
  Complex.ext rfl rfl

@[simp]
theorem toComplex_conj (z : Cx ℝ) : z.conj.toComplex = star z.toComplex := Complex.ext rfl rfl

theorem abs_eq (z : Cx ℝ) : z.abs = ‖z.toComplex‖ := by
  rw [abs, Exact.hypot_eq, Complex.norm_eq_sqrt_sq_add_sq]
  rfl

theorem arg_eq (z : Cx ℝ) : z.arg = Complex.arg z.toComplex := rfl

@[simp]
theorem toComplex_cis (x : ℝ) : (cis x).toComplex = Complex.exp (x * I) := by
  rw [cis, toComplex_mk, Exact.cos_eq, Exact.sin_eq, Complex.exp_mul_I, Complex.ofReal_cos,
    Complex.ofReal_sin]

@[simp]
theorem beq_iff (z w : Cx ℝ) : (z == w) = true ↔ z = w := by
  change (z.re == w.re && z.im == w.im) = true ↔ z = w
  rw [Bool.and_eq_true, Exact.beq_iff, Exact.beq_iff, Cx.ext_iff]

@[simp]
theorem isFinite_eq (z : Cx ℝ) : z.isFinite = true := by simp [isFinite]

/-! ## Quotients -/

/-- A quotient by its parts. -/
theorem toComplex_quotient (n m : Cx ℝ) :
    n.toComplex / m.toComplex =
      ⟨(n.re * m.re + n.im * m.im) / (m.re * m.re + m.im * m.im),
        (n.im * m.re - n.re * m.im) / (m.re * m.re + m.im * m.im)⟩ := by
  apply Complex.ext
  · rw [Complex.div_re, ← add_div]
    rfl
  · rw [Complex.div_im, ← sub_div]
    rfl

/-- Scaled by the larger part of the divisor, the real part. -/
theorem toComplex_quotient_of_re (n : Cx ℝ) {m : Cx ℝ} (nonzero : m.re ≠ 0) :
    n.toComplex / m.toComplex =
      ⟨(n.re + n.im * (m.im / m.re)) / (m.re + m.im / m.re * m.im),
        (n.im - n.re * (m.im / m.re)) / (m.re + m.im / m.re * m.im)⟩ := by
  have denom : m.re + m.im / m.re * m.im = (m.re * m.re + m.im * m.im) / m.re := by
    field_simp
  rw [toComplex_quotient, denom, div_div_eq_mul_div, div_div_eq_mul_div]
  congr 2 <;> field_simp

/-- Scaled by the imaginary part. -/
theorem toComplex_quotient_of_im (n : Cx ℝ) {m : Cx ℝ} (nonzero : m.im ≠ 0) :
    n.toComplex / m.toComplex =
      ⟨(n.re * (m.re / m.im) + n.im) / (m.im + m.re / m.im * m.re),
        (n.im * (m.re / m.im) - n.re) / (m.im + m.re / m.im * m.re)⟩ := by
  have denom : m.im + m.re / m.im * m.re = (m.re * m.re + m.im * m.im) / m.im := by
    field_simp
    ring
  rw [toComplex_quotient, denom, div_div_eq_mul_div, div_div_eq_mul_div]
  congr 2 <;> field_simp

theorem toComplex_scaledQuotient (n m : Cx ℝ) :
    (scaledQuotient n m).toComplex = n.toComplex / m.toComplex := by
  unfold scaledQuotient
  dsimp only
  split
  next wide =>
    by_cases zero : m.re = 0
    · have im_zero : m.im = 0 := by simpa [zero] using wide
      rw [toComplex_quotient]
      simp [toComplex, zero, im_zero]
    · exact (toComplex_quotient_of_re n zero).symm
  next narrow =>
    have nonzero : m.im ≠ 0 := by
      intro zero
      apply narrow
      rw [zero]
      simp
    exact (toComplex_quotient_of_im n nonzero).symm

@[simp]
theorem toComplex_div (n m : Cx ℝ) : (n / m).toComplex = n.toComplex / m.toComplex := by
  rw [← toComplex_scaledQuotient]
  change (if Scalar.isNaN _ && Scalar.isNaN _ then _ else _ : Cx ℝ).toComplex = _
  rw [Exact.isNaN_eq]
  rfl

/-! ## Powers and roots -/

/-- A real power of a number other than zero, by its modulus and its angle. -/
theorem toComplex_rpow {z : Cx ℝ} (nonzero : z.toComplex ≠ 0) (y : ℝ) :
    (z.rpow y).toComplex =
      (‖z.toComplex‖ ^ y : ℝ) * Complex.exp ((y * Complex.arg z.toComplex : ℝ) * I) := by
  have test : ¬ (z == 0) = true := by
    rw [beq_iff]
    intro zero
    exact nonzero (by rw [zero, toComplex_zero])
  rw [rpow, if_neg test, ← abs_eq, ← arg_eq, ← toComplex_cis]
  apply Complex.ext
  · rw [Complex.re_ofReal_mul]
    rfl
  · rw [Complex.im_ofReal_mul]
    rfl

/-- A pair whose parts have the right squares and product is a root, with the sign of `b` on its
imaginary part. -/
theorem toComplex_sq_of_parts {a b t r : ℝ} (square : t ^ 2 - r ^ 2 = a)
    (product : 2 * (t * r) = |b|) (scale : ℝ) :
    toComplex ⟨scale * t, if b < 0 then -(scale * r) else scale * r⟩ ^ 2 =
      (scale ^ 2 : ℝ) * (a + b * I) := by
  rw [pow_two]
  apply Complex.ext
  · simp only [Complex.mul_re, re_toComplex, im_toComplex, Complex.add_re, Complex.ofReal_re,
      Complex.ofReal_im, Complex.I_re, mul_zero, zero_mul, sub_zero, add_zero]
    rw [← square]
    split <;> ring
  · simp only [Complex.mul_im, re_toComplex, im_toComplex, Complex.add_im, Complex.ofReal_re,
      Complex.ofReal_im, Complex.I_re, Complex.I_im, mul_one, mul_zero, zero_mul, zero_add, add_zero]
    split
    next negative =>
      rw [abs_of_neg negative] at product
      linear_combination -scale ^ 2 * product
    next positive =>
      rw [abs_of_nonneg (not_lt.mp positive)] at product
      linear_combination scale ^ 2 * product

theorem half_eq : @OfScientific.ofScientific ℝ Scalar.instOfScientific 5 true 1 = 1 / 2 := by
  rw [Exact.decimal_eq]
  norm_num

theorem abs_lt_modulus (a : ℝ) {b : ℝ} (nonzero : b ≠ 0) : |a| < Real.sqrt (a ^ 2 + b ^ 2) := by
  apply Real.lt_sqrt_of_sq_lt
  rw [sq_abs]
  have := sq_pos_of_ne_zero nonzero
  linarith

/-- Off the axes, a root computed at a scale squares to the number times the scale's square. -/
theorem toComplex_scaledSqrt_sq {a b : ℝ} (nonzero : b ≠ 0) (scale : ℝ) :
    (scaledSqrt a b scale (decide (b < 0))).toComplex ^ 2 = (scale ^ 2 : ℝ) * (a + b * I) := by
  have modulus_sq : Real.sqrt (a ^ 2 + b ^ 2) ^ 2 = a ^ 2 + b ^ 2 := Real.sq_sqrt (by positivity)
  unfold scaledSqrt
  simp only [Exact.hypot_eq, Exact.sqrt_eq, Exact.abs_eq, decide_eq_true_eq, half_eq, Exact.zero_eq]
  split
  next positive =>
    set t := Real.sqrt (1 / 2 * Real.sqrt (a ^ 2 + b ^ 2) + 1 / 2 * a)
    have inner_pos : 0 < 1 / 2 * Real.sqrt (a ^ 2 + b ^ 2) + 1 / 2 * a := by positivity
    have t_pos : 0 < t := Real.sqrt_pos.mpr inner_pos
    have t_sq : t ^ 2 = 1 / 2 * Real.sqrt (a ^ 2 + b ^ 2) + 1 / 2 * a := Real.sq_sqrt inner_pos.le
    apply toComplex_sq_of_parts
    · rw [sq_abs, div_pow, mul_pow]
      field_simp
      nlinarith
    · rw [abs_div, abs_mul, abs_of_pos t_pos]
      field_simp
      norm_num
  next negative =>
    set r := Real.sqrt (1 / 2 * Real.sqrt (a ^ 2 + b ^ 2) - 1 / 2 * a)
    have inner_pos : 0 < 1 / 2 * Real.sqrt (a ^ 2 + b ^ 2) - 1 / 2 * a := by
      have := (abs_lt.mp (abs_lt_modulus a nonzero)).2
      linarith
    have r_pos : 0 < r := Real.sqrt_pos.mpr inner_pos
    have r_sq : r ^ 2 = 1 / 2 * Real.sqrt (a ^ 2 + b ^ 2) - 1 / 2 * a := Real.sq_sqrt inner_pos.le
    apply toComplex_sq_of_parts
    · rw [sq_abs, div_pow, mul_pow]
      field_simp
      nlinarith
    · rw [abs_div, abs_mul, abs_of_pos r_pos]
      field_simp
      norm_num

/-- Scaling both parts by a positive factor and the root by its inverse square root leaves the
root. -/
theorem toComplex_sqrt_sq_of_scale {a b k scale : ℝ} (nonzero : b ≠ 0) (positive : 0 < k)
    (inverse : scale ^ 2 * k = 1) :
    (scaledSqrt (k * a) (k * b) scale (decide (b < Scalar.ofNat 0))).toComplex ^ 2 =
      toComplex ⟨a, b⟩ := by
  have sign : decide (b < Scalar.ofNat 0) = decide (k * b < 0) := by
    rw [Exact.ofNat_eq, Nat.cast_zero]
    simp [mul_neg_iff, positive, positive.not_gt]
  have inverse' : ((scale ^ 2 : ℝ) : ℂ) * k = 1 := by exact_mod_cast inverse
  rw [sign, toComplex_scaledSqrt_sq (mul_ne_zero positive.ne' nonzero), toComplex_mk]
  push_cast at inverse' ⊢
  linear_combination (a + b * I) * inverse'

/-- The root of a number with a real part on the axis is found without any scaling. -/
theorem toComplex_sqrt_sq_of_real (a : ℝ) : (sqrt (⟨a, 0⟩ : Cx ℝ)).toComplex ^ 2 = a := by
  unfold sqrt
  dsimp only
  rw [if_pos (by simp), Exact.zero_eq]
  split
  next zero =>
    rw [Exact.beq_iff] at zero
    simp [toComplex_mk, zero]
  next nonzero =>
    split
    next negative =>
      have root : Real.sqrt (-a) ^ 2 = -a := Real.sq_sqrt (by linarith)
      rw [Exact.copysign_eq, if_neg (lt_irrefl 0), Exact.sqrt_eq, abs_of_nonneg (Real.sqrt_nonneg _),
        toComplex_mk]
      have := congrArg Complex.ofReal root
      push_cast at this ⊢
      rw [zero_add, mul_pow, this, Complex.I_sq]
      ring
    next positive =>
      rw [Exact.sqrt_eq, toComplex_mk]
      have := congrArg Complex.ofReal (Real.sq_sqrt (not_lt.mp positive))
      push_cast at this ⊢
      rw [zero_mul, add_zero, this]

theorem toComplex_sqrt_sq (z : Cx ℝ) : z.sqrt.toComplex ^ 2 = z.toComplex := by
  obtain ⟨a, b⟩ := z
  by_cases real : b = 0
  · rw [real, toComplex_sqrt_sq_of_real, toComplex_mk]
    simp
  · unfold sqrt
    dsimp only
    rw [if_neg (by simpa using real), if_neg (by simp)]
    split
    next zero =>
      rw [Exact.beq_iff, Exact.zero_eq] at zero
      have root : Real.sqrt (1 / 2 * |b|) ^ 2 = 1 / 2 * |b| := Real.sq_sqrt (by positivity)
      have parts := toComplex_sq_of_parts (a := 0) (b := b) (t := Real.sqrt (1 / 2 * |b|))
        (r := Real.sqrt (1 / 2 * |b|)) (by ring) (by rw [← pow_two, root]; ring) 1
      rw [half_eq, Exact.zero_eq, Exact.sqrt_eq, Exact.abs_eq]
      simpa [toComplex_mk, zero] using parts
    next nonzero =>
      split
      · have positive : (0 : ℝ) < 0.25 := by norm_num
        have inverse : (2 : ℝ) ^ 2 * 0.25 = 1 := by norm_num
        exact toComplex_sqrt_sq_of_scale real positive inverse
      · have positive : (0 : ℝ) < 18014398509481984 := by norm_num
        have inverse : (1 / 134217728 : ℝ) ^ 2 * 18014398509481984 = 1 := by norm_num
        rw [Exact.one_eq]
        exact toComplex_sqrt_sq_of_scale real positive inverse

theorem re_scaledSqrt_pos {a b scale : ℝ} (nonzero : b ≠ 0) (positive : 0 < scale) (downward : Bool) :
    0 < (scaledSqrt a b scale downward).re := by
  unfold scaledSqrt
  simp only [Exact.hypot_eq, Exact.sqrt_eq, Exact.abs_eq, half_eq, Exact.zero_eq]
  have below := (abs_lt.mp (abs_lt_modulus a nonzero)).2
  split
  next ahead =>
    apply mul_pos positive
    apply Real.sqrt_pos.mpr
    linarith
  next behind =>
    apply mul_pos positive
    apply abs_pos.mpr
    apply div_ne_zero (by simpa using nonzero)
    apply (Real.sqrt_pos.mpr _).ne'
    linarith

/-- The root lies in the right half plane, or on the upper half of its boundary. -/
theorem sqrt_principal (z : Cx ℝ) : 0 < z.sqrt.re ∨ z.sqrt.re = 0 ∧ 0 ≤ z.sqrt.im := by
  obtain ⟨a, b⟩ := z
  unfold sqrt
  dsimp only
  split
  next real =>
    rw [Exact.beq_iff, Exact.zero_eq] at real
    split
    next zero => exact Or.inr ⟨Exact.zero_eq, real.ge⟩
    next nonzero =>
      split
      next negative =>
        refine Or.inr ⟨Exact.zero_eq, ?_⟩
        rw [Exact.copysign_eq, if_neg real.ge.not_gt]
        exact abs_nonneg _
      next positive =>
        left
        rw [Exact.beq_iff, Exact.zero_eq] at nonzero
        rw [Exact.zero_eq, not_lt] at positive
        exact Real.sqrt_pos.mpr (lt_of_le_of_ne positive (Ne.symm nonzero))
  next off =>
    rw [Exact.beq_iff, Exact.zero_eq] at off
    left
    rw [if_neg (by simp)]
    split
    next zero =>
      rw [half_eq, Exact.sqrt_eq, Exact.abs_eq]
      have := abs_pos.mpr off
      exact Real.sqrt_pos.mpr (by positivity)
    next nonzero =>
      split
      · have factor : (0.25 : ℝ) ≠ 0 := by norm_num
        have scale : (0 : ℝ) < 2 := by norm_num
        exact re_scaledSqrt_pos (mul_ne_zero factor off) scale _
      · have factor : (18014398509481984 : ℝ) ≠ 0 := by norm_num
        have scale : (0 : ℝ) < 1 / 134217728 := by norm_num
        rw [Exact.one_eq]
        exact re_scaledSqrt_pos (mul_ne_zero factor off) scale _

theorem arg_sqrt (z : Cx ℝ) : Complex.arg z.sqrt.toComplex = Complex.arg z.toComplex / 2 := by
  set s := z.sqrt.toComplex with root
  have square : s ^ 2 = z.toComplex := toComplex_sqrt_sq z
  have range : s.arg + s.arg ∈ Set.Ioc (-Real.pi) Real.pi := by
    have upper : s.arg ≤ Real.pi / 2 := by
      rw [Complex.arg_le_pi_div_two_iff, root, re_toComplex]
      rcases sqrt_principal z with right | ⟨boundary, -⟩
      · exact Or.inl right.le
      · exact Or.inl boundary.ge
    have lower : -(Real.pi / 2) < s.arg := by
      rw [Complex.neg_pi_div_two_lt_arg_iff, root, re_toComplex, im_toComplex]
      exact (sqrt_principal z).imp id And.right
    constructor <;> linarith
  rcases eq_or_ne s 0 with zero | nonzero
  · rw [← square, zero]
    simp
  · rw [← square, pow_two, Complex.arg_mul nonzero nonzero range]
    ring

/-- The root of a number of modulus one is the point at half its angle. -/
theorem toComplex_sqrt_of_unit {z : Cx ℝ} (unit : ‖z.toComplex‖ = 1) :
    z.sqrt.toComplex = Complex.exp ((z.arg / 2 : ℝ) * I) := by
  have square := congrArg norm (toComplex_sqrt_sq z)
  rw [norm_pow, unit] at square
  have modulus : ‖z.sqrt.toComplex‖ = 1 := by
    rwa [pow_eq_one_iff_of_nonneg (norm_nonneg _) two_ne_zero] at square
  rw [← Complex.norm_mul_exp_arg_mul_I z.sqrt.toComplex, modulus, arg_sqrt, arg_eq]
  simp

end Entangle.Cx

end
