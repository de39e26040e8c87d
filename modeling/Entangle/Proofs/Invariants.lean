import Mathlib
import Entangle.Proofs.Determinant
import Entangle.Proofs.LocalInvariance

/-!
# Invariants under one-qubit operations

In an orthonormal magic basis the product of a matrix with its transpose is the change of basis of one that needs no
basis, so that the invariants are quotients of that product's traces by the determinant. Regular one-qubit operations on
both sides change the product by a basis and a factor, and the determinant by the square of this factor: the quotients
stay as they are, whether or not the operations are unitary. For an interaction the product is that of the doubled angles,
which gives its invariants in closed form.
-/

noncomputable section

namespace Entangle.Weyl

open Matrix Complex

/-! ## The orthonormal magic basis -/

/-- The places that the vectors of the magic basis have among those of length one. -/
def magicOrder : Equiv.Perm (Fin 4) where
  toFun := ![0, 2, 3, 1]
  invFun := ![0, 3, 1, 2]
  left_inv := by decide
  right_inv := by decide

theorem toMatrix_magicUnitary :
    (magicUnitary : Mat4 ℝ).toMatrix = ((Scalar.sqrtHalf : ℝ) : ℂ) • magic.toMatrix.submatrix id magicOrder := by
  rw [toMatrix_magic, magicUnitary, Mat4.toMatrix_of]
  ext i j
  fin_cases i <;> fin_cases j <;> simp [magicOrder, Cx.toComplex_mk]

theorem magicUnitary_mul_transpose : (magicUnitary : Mat4 ℝ).toMatrix * magicUnitary.toMatrixᵀ = Axis.y.pair := by
  rw [toMatrix_magicUnitary, Matrix.transpose_smul, Matrix.smul_mul, Matrix.mul_smul, smul_smul, Euler.ofReal_sqrtHalf_mul_self,
    Matrix.transpose_submatrix, Matrix.submatrix_mul_equiv, magic_mul_transpose, Matrix.submatrix_id_id, smul_smul]
  norm_num

theorem magicUnitary_unitary : (magicUnitary : Mat4 ℝ).Unitary := by
  rw [Square.Unitary, mem_unitaryGroup_iff, star_eq_conjTranspose, toMatrix_magicUnitary, Matrix.conjTranspose_smul,
    Matrix.smul_mul, Matrix.mul_smul, smul_smul, Complex.star_def, Complex.conj_ofReal, Euler.ofReal_sqrtHalf_mul_self,
    Matrix.conjTranspose_submatrix, Matrix.submatrix_mul_equiv, magic_conjTranspose, Matrix.mul_smul,
    magic_mul_magicInverse, Matrix.submatrix_id_id, smul_smul]
  norm_num

/-- The basis as a change of basis. -/
def magicFrame : TwoQubitˣ :=
  ⟨magicUnitary.toMatrix, magicUnitary.toMatrixᴴ, mem_unitaryGroup_iff.mp magicUnitary_unitary,
    mem_unitaryGroup_iff'.mp magicUnitary_unitary⟩

theorem pair_conjTranspose : Axis.y.pairᴴ = Axis.y.pair := by
  rw [form_eq, ← Matrix.ext_iff]
  simp [Matrix.conjTranspose_apply, Fin.forall_fin_succ]

/-- Between a magic basis and its adjoint, the product with the transpose is the one without a basis. -/
theorem transpose_mul_of_magic {b : TwoQubit} (unitary : b ∈ unitaryGroup (Fin 4) ℂ) (form : b * bᵀ = Axis.y.pair)
    (w : TwoQubit) : (bᴴ * w * b)ᵀ * (bᴴ * w * b) = bᴴ * gram w * b := by
  have inverse : bᴴ * b = 1 := mem_unitaryGroup_iff'.mp unitary
  have left : bᵀ = bᴴ * Axis.y.pair := by
    rw [← form, ← Matrix.mul_assoc, inverse, Matrix.one_mul]
  have middle : bᴴᵀ * bᴴ = Axis.y.pair := by
    rw [← pair_conjTranspose, ← form, Matrix.conjTranspose_mul]
    rfl
  calc
    _ = bᵀ * wᵀ * (bᴴᵀ * bᴴ) * w * b := by
      simp only [Matrix.transpose_mul, Matrix.mul_assoc]
    _ = _ := by
      rw [middle, left, gram]
      simp only [Matrix.mul_assoc]

/-! ## The invariants without a basis -/

/-- The complex invariant, of which the first two numbers are the parts. -/
def firstInvariant (w : TwoQubit) : ℂ := (gram w).trace ^ 2 / (16 * w.det)

/-- The invariant of which the third number is the real part. -/
def secondInvariant (w : TwoQubit) : ℂ := ((gram w).trace ^ 2 - (gram w * gram w).trace) / (4 * w.det)

/-- A change of basis of a product. -/
theorem conj_mul_conj (s : TwoQubitˣ) (x y : TwoQubit) :
    ((s⁻¹ : TwoQubitˣ) * x * (s : TwoQubit)) * ((s⁻¹ : TwoQubitˣ) * y * (s : TwoQubit)) =
      (s⁻¹ : TwoQubitˣ) * (x * y) * (s : TwoQubit) := by
  simp only [Matrix.mul_assoc, Units.mul_inv_cancel_left]

/-- The invariants of a stored matrix are those of the matrix. -/
theorem ofMatrix_eq (u : Mat4 ℝ) :
    Invariants.ofMatrix u =
      ⟨(firstInvariant u.toMatrix).re, (firstInvariant u.toMatrix).im, (secondInvariant u.toMatrix).re⟩ := by
  set w := u.toMatrix
  set ub : Mat4 ℝ := magicUnitary.dagger * u * magicUnitary with ub_def
  set m : Mat4 ℝ := ub.transpose * ub with m_def
  have image : ub.toMatrix = (magicFrame⁻¹ : TwoQubitˣ) * w * (magicFrame : TwoQubit) := by
    rw [ub_def, Mat4.toMatrix_mul, Mat4.toMatrix_mul, Square.toMatrix_dagger]
    rfl
  have product : m.toMatrix = (magicFrame⁻¹ : TwoQubitˣ) * gram w * (magicFrame : TwoQubit) := by
    rw [m_def, Mat4.toMatrix_mul, Square.toMatrix_transpose, image]
    exact transpose_mul_of_magic magicUnitary_unitary magicUnitary_mul_transpose w
  have det : (Mat4.det ub).toComplex = w.det := by
    rw [Mat4.toComplex_det, image, Matrix.det_units_conj']
  have trace : (Mat4.trace m).toComplex = (gram w).trace := by
    rw [Mat4.toComplex_trace, product, Matrix.trace_units_conj']
  have square : (Mat4.trace (m * m)).toComplex = (gram w * gram w).trace := by
    rw [Mat4.toComplex_trace, Mat4.toMatrix_mul, product, conj_mul_conj, Matrix.trace_units_conj']
  have first : (Mat4.trace m * Mat4.trace m / (16 * Mat4.det ub)).toComplex = firstInvariant w := by
    rw [Cx.toComplex_div, Cx.toComplex_mul, Cx.toComplex_mul, Cx.toComplex_ofNat, trace, det, firstInvariant, pow_two]
  have second : ((Mat4.trace m * Mat4.trace m - Mat4.trace (m * m)) / (4 * Mat4.det ub)).toComplex = secondInvariant w := by
    rw [Cx.toComplex_div, Cx.toComplex_sub, Cx.toComplex_mul, Cx.toComplex_mul, Cx.toComplex_ofNat, trace, square, det,
      secondInvariant, pow_two]
  rw [← first, ← second]
  simp only [Invariants.ofMatrix, Exact.zero_eq, add_zero]
  rfl

/-! ## One-qubit operations -/

section Local

variable {a b c d : OneQubit} {z : ℂ}

theorem localFactor_ne_zero (nonzero : z ≠ 0) (ha : IsUnit a) (hb : IsUnit b) (hc : IsUnit c) (hd : IsUnit d) :
    localFactor z a b c d ≠ 0 := by
  simp only [Matrix.isUnit_iff_isUnit_det, isUnit_iff_ne_zero] at ha hb hc hd
  simp [localFactor, nonzero, ha, hb, hc, hd]

theorem trace_gram_sq_local (z : ℂ) (a b : OneQubit) (hc : IsUnit c) (hd : IsUnit d) (w : TwoQubit) :
    (gram (z • (tensor a b * w * tensor c d)) * gram (z • (tensor a b * w * tensor c d))).trace =
      localFactor z a b c d ^ 2 * (gram w * gram w).trace := by
  obtain ⟨s, moved⟩ := exists_gram_local z a b hc hd w
  rw [moved, Matrix.smul_mul, Matrix.mul_smul, smul_smul, conj_mul_conj, Matrix.trace_smul, Matrix.trace_units_conj',
    smul_eq_mul, pow_two]

theorem firstInvariant_local (nonzero : z ≠ 0) (ha : IsUnit a) (hb : IsUnit b) (hc : IsUnit c) (hd : IsUnit d)
    (w : TwoQubit) : firstInvariant (z • (tensor a b * w * tensor c d)) = firstInvariant w := by
  have factor := pow_ne_zero 2 (localFactor_ne_zero nonzero ha hb hc hd)
  rw [firstInvariant, trace_gram_local z a b hc hd, det_local, mul_pow, mul_left_comm, mul_div_mul_left _ _ factor,
    firstInvariant]

theorem secondInvariant_local (nonzero : z ≠ 0) (ha : IsUnit a) (hb : IsUnit b) (hc : IsUnit c) (hd : IsUnit d)
    (w : TwoQubit) : secondInvariant (z • (tensor a b * w * tensor c d)) = secondInvariant w := by
  have factor := pow_ne_zero 2 (localFactor_ne_zero nonzero ha hb hc hd)
  rw [secondInvariant, trace_gram_local z a b hc hd, trace_gram_sq_local z a b hc hd, det_local, mul_pow, ← mul_sub,
    mul_left_comm, mul_div_mul_left _ _ factor, secondInvariant]

end Local

/-- Regular one-qubit operations on both sides and a factor other than zero leave the invariants of every matrix. -/
theorem ofMatrix_local {z : Cx ℝ} {a b c d : Mat2 ℝ} (nonzero : z ≠ 0) (ha : IsUnit a.toMatrix) (hb : IsUnit b.toMatrix)
    (hc : IsUnit c.toMatrix) (hd : IsUnit d.toMatrix) (u : Mat4 ℝ) :
    Invariants.ofMatrix ((Mat4.kron a b * u * Mat4.kron c d).scale z) = Invariants.ofMatrix u := by
  have factor : z.toComplex ≠ 0 := by
    intro zero
    exact nonzero (Cx.toComplex_injective (zero.trans Cx.toComplex_zero.symm))
  have image : ((Mat4.kron a b * u * Mat4.kron c d).scale z).toMatrix =
      z.toComplex • (tensor a.toMatrix b.toMatrix * u.toMatrix * tensor c.toMatrix d.toMatrix) := by
    rw [Square.toMatrix_scale, Mat4.toMatrix_mul, Mat4.toMatrix_mul, Mat4.toMatrix_kron, Mat4.toMatrix_kron]
  rw [ofMatrix_eq, ofMatrix_eq, image, firstInvariant_local factor ha hb hc hd, secondInvariant_local factor ha hb hc hd]

/-- A shear and a stretch around a matrix that is not unitary, under an imaginary factor. -/
theorem ofMatrix_local_diagonal :
    (⟨0, 5⟩ : Cx ℝ) ≠ 0 ∧ IsUnit (Mat2.of 1 1 0 1 : Mat2 ℝ).toMatrix ∧ IsUnit (Mat2.of 2 0 0 1 : Mat2 ℝ).toMatrix ∧
      Invariants.ofMatrix ((Mat4.kron (.of 1 1 0 1) (.of 2 0 0 1) * Mat4.diag 1 2 3 4 *
        Mat4.kron (.of 2 0 0 1) (.of 1 1 0 1) : Mat4 ℝ).scale ⟨0, 5⟩) = ⟨25 / 24, 0, 37 / 12⟩ := by
  have factor : (⟨0, 5⟩ : Cx ℝ) ≠ 0 := by
    intro zero
    have imaginary : (5 : ℝ) = ((0 : ℕ) : ℝ) := congrArg Cx.im zero
    norm_num at imaginary
  have shear : IsUnit (Mat2.of 1 1 0 1 : Mat2 ℝ).toMatrix := by
    simp [Matrix.isUnit_iff_isUnit_det]
  have stretch : IsUnit (Mat2.of 2 0 0 1 : Mat2 ℝ).toMatrix := by
    rw [Matrix.isUnit_iff_isUnit_det, Mat2.toMatrix_of, Cx.toComplex_ofNat]
    simp
  have product : gram (diagonal ![1, 2, 3, 4]) = diagonal ![4, 6, 6, 4] := by
    rw [gram, Matrix.diagonal_transpose, form_eq]
    ext i j
    rw [Matrix.mul_diagonal]
    fin_cases i <;> fin_cases j <;> simp [Matrix.mul_apply, Fin.sum_univ_four, Matrix.vecMul_diagonal] <;> norm_num
  refine ⟨factor, shear, stretch, ?_⟩
  rw [ofMatrix_local factor shear stretch stretch shear, ofMatrix_eq, Mat4.toMatrix_diag, Cx.toComplex_one,
    Cx.toComplex_ofNat, Cx.toComplex_ofNat, Cx.toComplex_ofNat, firstInvariant, secondInvariant, product,
    Matrix.diagonal_mul_diagonal, Matrix.trace_diagonal, Matrix.trace_diagonal, Matrix.det_diagonal]
  simp [Fin.sum_univ_four, Fin.prod_univ_four]
  norm_num

/-! ## The invariants of an interaction -/

theorem firstInvariant_coupling (θ : Axis → ℝ) :
    firstInvariant (coupling θ) = (doubled Real.cos θ + doubled Real.sin θ * I) ^ 2 := by
  rw [firstInvariant, trace_gram_coupling, det_coupling]
  ring

/-- The square of the product with the transpose has the doubled angles doubled once more. -/
theorem secondInvariant_coupling (θ : Axis → ℝ) :
    secondInvariant (coupling θ) = 4 * (doubled Real.cos θ + doubled Real.sin θ * I) ^ 2 -
      (doubled Real.cos (θ + θ) + doubled Real.sin (θ + θ) * I) := by
  have square : gram (coupling θ) * gram (coupling θ) = gram (coupling (θ + θ)) := by
    rw [gram_coupling, gram_coupling, coupling_mul]
  rw [secondInvariant, square, trace_gram_coupling, trace_gram_coupling, det_coupling]
  ring

/-- The sines of the doubled angles double once more, one factor two for each axis. -/
theorem doubled_sin_add (θ : Axis → ℝ) : doubled Real.sin (θ + θ) = 8 * (doubled Real.cos θ * doubled Real.sin θ) := by
  simp only [doubled, Pi.add_apply, ← two_mul, Real.sin_two_mul (2 * _)]
  ring

theorem productOver_eq (a b c : ℝ) (f : ℝ → ℝ) : Invariants.productOver a b c f = f a * f b * f c := by
  rw [Invariants.productOver, Exact.one_eq, one_mul]

/-- The closed form, by the products over the axes. -/
theorem ofCoordinates_eq (a b c : ℝ) :
    Invariants.ofCoordinates a b c =
      ⟨doubled Real.cos (angles a b c) ^ 2 - doubled Real.sin (angles a b c) ^ 2,
        doubled Real.sin (angles a b c + angles a b c) / 4,
        4 * (doubled Real.cos (angles a b c) ^ 2 - doubled Real.sin (angles a b c) ^ 2) -
          doubled Real.cos (angles a b c + angles a b c)⟩ := by
  have twice (w : ℝ) : 2 * (w + w) = 4 * w := by ring
  simp only [Invariants.ofCoordinates, productOver_eq, Exact.zero_eq, Exact.numeral_eq, Exact.cos_eq, Exact.sin_eq, add_zero,
    doubled, angles, Pi.add_apply, twice]
  congr 1 <;> ring

/-- The invariants of the interaction are given in closed form by its angles, whether or not they are in the chamber. -/
theorem ofMatrix_interaction (a b c : ℝ) : Invariants.ofMatrix (interaction a b c) = Invariants.ofCoordinates a b c := by
  set θ := angles a b c with angles_def
  have first : firstInvariant (coupling θ) =
      ((doubled Real.cos θ ^ 2 - doubled Real.sin θ ^ 2 : ℝ) : ℂ) + ((doubled Real.sin (θ + θ) / 4 : ℝ) : ℂ) * I := by
    rw [firstInvariant_coupling, doubled_sin_add]
    push_cast
    linear_combination (doubled Real.sin θ : ℂ) ^ 2 * Complex.I_sq
  have second : secondInvariant (coupling θ) =
      ((4 * (doubled Real.cos θ ^ 2 - doubled Real.sin θ ^ 2) - doubled Real.cos (θ + θ) : ℝ) : ℂ) := by
    rw [secondInvariant_coupling, doubled_sin_add]
    push_cast
    linear_combination 4 * (doubled Real.sin θ : ℂ) ^ 2 * Complex.I_sq
  have parts (x y : ℝ) : ((x : ℂ) + (y : ℂ) * I).re = x ∧ ((x : ℂ) + (y : ℂ) * I).im = y := by simp
  rw [ofMatrix_eq, toMatrix_interaction, ← angles_def, first, second, (parts _ _).1, (parts _ _).2, Complex.ofReal_re,
    ofCoordinates_eq]

end Entangle.Weyl

end
