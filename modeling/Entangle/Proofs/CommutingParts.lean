import Mathlib
import Entangle.Proofs.NearProducts

/-!
# Commuting parts

A complex symmetric matrix whose real and imaginary parts commute is diagonal in a real frame. What another frame leaves
off the diagonal is a sum over the pairs of values, each pair by the square of their distance, so a frame leaves less of
the matrix with the closer values. A matrix that is near a diagonalised one has parts that nearly commute.
-/

noncomputable section

namespace Entangle

open Matrix Complex Module.End
open scoped Matrix.Norms.Frobenius

/-! ## Common frames -/

section Operators

variable {E : Type} [NormedAddCommGroup E] [InnerProductSpace ℝ E] [FiniteDimensional ℝ E] {s t : E →ₗ[ℝ] E} {n : ℕ}

/-- Two symmetric operators that commute have an orthonormal basis of common eigenvectors. -/
theorem exists_joint_basis (symmetricS : s.IsSymmetric) (symmetricT : t.IsSymmetric) (commute : Commute s t)
    (dimension : Module.finrank ℝ E = n) :
    ∃ (basis : OrthonormalBasis (Fin n) ℝ E) (α β : Fin n → ℝ),
      ∀ k, s (basis k) = α k • basis k ∧ t (basis k) = β k • basis k := by
  have parts := symmetricS.directSum_isInternal_of_commute symmetricT commute
  have family := symmetricS.orthogonalFamily_eigenspace_inf_eigenspace symmetricT
  -- only finitely many of the common eigenspaces are not trivial
  have nonzero := DirectSum.isInternal_ne_bot_iff.mpr parts
  have finite : Fintype {i : ℝ × ℝ // eigenspace s i.2 ⊓ eigenspace t i.1 ≠ ⊥} :=
    parts.submodule_iSupIndep.fintypeNeBotOfFiniteDimensional
  have family' := family.comp (Subtype.val_injective (p := fun i : ℝ × ℝ => eigenspace s i.2 ⊓ eigenspace t i.1 ≠ ⊥))
  refine ⟨nonzero.subordinateOrthonormalBasis dimension family',
    fun k => (nonzero.subordinateOrthonormalBasisIndex dimension k family').1.2,
    fun k => (nonzero.subordinateOrthonormalBasisIndex dimension k family').1.1, fun k => ?_⟩
  obtain ⟨first, second⟩ := nonzero.subordinateOrthonormalBasis_subordinate dimension k family'
  exact ⟨mem_eigenspace_iff.mp first, mem_eigenspace_iff.mp second⟩

end Operators

/-- Two symmetric matrices that commute are diagonal in one frame. -/
theorem exists_joint_frame {n : ℕ} {a b : Matrix (Fin n) (Fin n) ℝ} (symmetricA : aᵀ = a) (symmetricB : bᵀ = b)
    (commute : Commute a b) :
    ∃ q : Matrix (Fin n) (Fin n) ℝ, q * qᵀ = 1 ∧ ∃ α β : Fin n → ℝ, a = q * diagonal α * qᵀ ∧ b = q * diagonal β * qᵀ := by
  have selfA : (toEuclideanLin a).IsSymmetric :=
    isSymmetric_toEuclideanLin_iff.mpr ((conjTranspose_eq_transpose_of_trivial a).trans symmetricA)
  have selfB : (toEuclideanLin b).IsSymmetric :=
    isSymmetric_toEuclideanLin_iff.mpr ((conjTranspose_eq_transpose_of_trivial b).trans symmetricB)
  have together : Commute (toEuclideanLin a) (toEuclideanLin b) := by
    refine LinearMap.ext fun v => ?_
    simp only [Module.End.mul_apply, toLpLin_apply, Matrix.mulVec_mulVec, commute.eq]
  obtain ⟨basis, α, β, values⟩ := exists_joint_basis selfA selfB together finrank_euclideanSpace_fin
  set q := (EuclideanSpace.basisFun (Fin n) ℝ).toBasis.toMatrix basis with frame
  have inverse : q * qᵀ = 1 :=
    mem_unitaryGroup_iff.mp (OrthonormalBasis.toMatrix_orthonormalBasis_mem_unitary _ _)
  have columns {c : Matrix (Fin n) (Fin n) ℝ} {γ : Fin n → ℝ} (own : ∀ k, toEuclideanLin c (basis k) = γ k • basis k) :
      c = q * diagonal γ * qᵀ := by
    have turned : c * q = q * diagonal γ := by
      ext i k
      have component := congrArg (· i) (own k)
      rw [Matrix.mul_diagonal, Matrix.mul_apply, mul_comm]
      exact component
    rw [← turned, Matrix.mul_assoc, inverse, Matrix.mul_one]
  exact ⟨q, inverse, α, β, columns fun k => (values k).1, columns fun k => (values k).2⟩

namespace Weyl

/-! ## Parts of a diagonalised matrix -/

section Parts

variable {m : TwoQubit} {p : Matrix (Fin 4) (Fin 4) ℝ} {values : Fin 4 → ℂ}

theorem map_re_add_map_im (m : TwoQubit) : (m.map re).map ofReal + I • (m.map im).map ofReal = m := by
  ext i j
  simp [mul_comm I, Complex.re_add_im]

/-- A real linear function of the entries goes past the frame. -/
theorem Diagonalizes.map_linear (given : Diagonalizes m p values) (f : ℂ →ₗ[ℝ] ℝ) :
    m.map f = p * diagonal (fun k => f (values k)) * pᵀ := by
  rw [← given.product]
  ext i j
  rw [Matrix.map_apply, Matrix.mul_apply, Matrix.mul_apply, map_sum]
  refine Finset.sum_congr rfl fun k _ => ?_
  rw [Matrix.mul_diagonal, Matrix.mul_diagonal, Matrix.transpose_apply, Matrix.transpose_apply, Matrix.map_apply, Matrix.map_apply]
  have factor : (p i k : ℂ) * values k * p j k = (p i k * p j k) • values k := by
    rw [Complex.real_smul]
    push_cast
    ring
  rw [factor, map_smul, smul_eq_mul]
  ring

theorem map_frame (p : Matrix (Fin 4) (Fin 4) ℝ) (γ : Fin 4 → ℝ) :
    (p * diagonal γ * pᵀ).map ofReal = p.map ofReal * (diagonal fun k => (γ k : ℂ)) * (p.map ofReal)ᵀ := by
  ext i j
  simp [Matrix.mul_apply, Matrix.diagonal_apply]

theorem Diagonalizes.linear (given : Diagonalizes m p values) (f : ℂ →ₗ[ℝ] ℝ) :
    Diagonalizes ((m.map f).map ofReal) p fun k => (f (values k) : ℂ) :=
  ⟨given.orthogonal, by rw [given.map_linear, map_frame]⟩

/-- A turned matrix has a turned frame. -/
theorem Diagonalizes.turn (given : Diagonalizes m p values) {q : Matrix (Fin 4) (Fin 4) ℝ} (orthogonal : q * qᵀ = 1) :
    Diagonalizes ((q.map ofReal)ᵀ * m * q.map ofReal) (qᵀ * p) values := by
  constructor
  · calc
      qᵀ * p * (qᵀ * p)ᵀ = qᵀ * (p * pᵀ) * q := by
        rw [Matrix.transpose_mul, Matrix.transpose_transpose]
        simp only [Matrix.mul_assoc]
      _ = 1 := by rw [given.orthogonal, Matrix.mul_one, mul_eq_one_comm.mp orthogonal]
  · have image : (qᵀ * p).map ofReal = (q.map ofReal)ᵀ * p.map ofReal := by
      ext i j
      simp [Matrix.mul_apply]
    rw [image, ← given.product, Matrix.transpose_mul, Matrix.transpose_transpose]
    simp only [Matrix.mul_assoc]

theorem Diagonalizes.symmetric (given : Diagonalizes m p values) : mᵀ = m := by
  rw [← given.product, Matrix.transpose_mul, Matrix.transpose_mul, Matrix.transpose_transpose, Matrix.diagonal_transpose,
    Matrix.mul_assoc]

theorem Diagonalizes.commute (given : Diagonalizes m p values) : Commute (m.map re) (m.map im) := by
  have inverse : pᵀ * p = 1 := mul_eq_one_comm.mp given.orthogonal
  have turned (x y : Matrix (Fin 4) (Fin 4) ℝ) : p * x * pᵀ * (p * y * pᵀ) = p * (x * y) * pᵀ := by
    calc
      _ = p * x * (pᵀ * p) * y * pᵀ := by simp only [Matrix.mul_assoc]
      _ = _ := by rw [inverse, Matrix.mul_one, Matrix.mul_assoc p]
  have real : m.map re = p * diagonal (fun k => (values k).re) * pᵀ := given.map_linear reLm
  have imaginary : m.map im = p * diagonal (fun k => (values k).im) * pᵀ := given.map_linear imLm
  rw [Commute, SemiconjBy, real, imaginary, turned, turned, Matrix.diagonal_mul_diagonal, Matrix.diagonal_mul_diagonal]
  simp only [mul_comm]

/-- A symmetric matrix is diagonal in a real frame just where its parts commute. -/
theorem exists_diagonalizes (symmetric : mᵀ = m) (commute : Commute (m.map re) (m.map im)) :
    ∃ p values, Diagonalizes m p values := by
  have symmetricRe : (m.map re)ᵀ = m.map re := by rw [← Matrix.transpose_map, symmetric]
  have symmetricIm : (m.map im)ᵀ = m.map im := by rw [← Matrix.transpose_map, symmetric]
  obtain ⟨q, orthogonal, α, β, real, imaginary⟩ := exists_joint_frame symmetricRe symmetricIm commute
  refine ⟨q, fun k => α k + I * β k, orthogonal, ?_⟩
  conv_rhs => rw [← map_re_add_map_im m, real, imaginary, map_frame, map_frame]
  rw [← Matrix.diagonal_add, Matrix.mul_add, Matrix.add_mul]
  congr 1
  have scaled : (diagonal fun k => I * (β k : ℂ)) = I • diagonal fun k => (β k : ℂ) := by
    rw [← Matrix.diagonal_smul]
    rfl
  rw [scaled, Matrix.mul_smul, Matrix.smul_mul]

end Parts

/-! ## What a frame leaves off the diagonal -/

section Distances

variable {m m' : TwoQubit} {v : Matrix (Fin 4) (Fin 4) ℝ} {values values' : Fin 4 → ℂ} {c : ℝ}

/-- The variance of values under weights, by their distances. -/
theorem sum_norm_sq_sub_sq {weight : Fin 4 → ℝ} (whole : ∑ k, weight k = 1) (values : Fin 4 → ℂ) :
    ∑ k, weight k * ‖values k‖ ^ 2 - ‖∑ k, weight k * values k‖ ^ 2 =
      ∑ k, ∑ l, weight k * weight l / 2 * ‖values k - values l‖ ^ 2 := by
  simp only [← Complex.normSq_eq_norm_sq, Complex.normSq_apply, Fin.sum_univ_four, Complex.add_re, Complex.add_im,
    Complex.sub_re, Complex.sub_im, Complex.re_ofReal_mul, Complex.im_ofReal_mul] at whole ⊢
  set x := fun k => (values k).re * (values k).re + (values k).im * (values k).im with square
  linear_combination -(weight 0 * x 0 + weight 1 * x 1 + weight 2 * x 2 + weight 3 * x 3) * whole

/-- What is left off the diagonal is the distances of the values, by the entries of the frame. -/
theorem Diagonalizes.norm_off_sq_eq (given : Diagonalizes m v values) :
    ‖off m‖ ^ 2 = ∑ i, ∑ k, ∑ l, v i k ^ 2 * v i l ^ 2 / 2 * ‖values k - values l‖ ^ 2 := by
  have frame := map_mem_unitary given.orthogonal
  have adjoint := transpose_map_ofReal v
  have inverse : vᵀ * v = 1 := mul_eq_one_comm.mp given.orthogonal
  have row (i : Fin 4) : ∑ k, v i k ^ 2 = 1 := by
    have entry := congrFun (congrFun given.orthogonal i) i
    rw [Matrix.mul_apply, Matrix.one_apply_eq] at entry
    simpa only [Matrix.transpose_apply, ← sq] using entry
  have column (k : Fin 4) : ∑ i, v i k ^ 2 = 1 := by
    have entry := congrFun (congrFun inverse k) k
    rw [Matrix.mul_apply, Matrix.one_apply_eq] at entry
    simpa only [Matrix.transpose_apply, ← sq] using entry
  have whole : ‖m‖ ^ 2 = ∑ i, ∑ k, v i k ^ 2 * ‖values k‖ ^ 2 := by
    rw [← given.product, adjoint, norm_mul_unitary _ (Unitary.star_mem frame), norm_unitary_mul _ frame, frobenius_sq_diagonal,
      Finset.sum_comm]
    refine Finset.sum_congr rfl fun k _ => ?_
    rw [← Finset.sum_mul, column, one_mul]
  have corner (i : Fin 4) : m i i = ∑ k, (v i k ^ 2 : ℝ) * values k := by
    rw [← given.product, Matrix.mul_apply]
    refine Finset.sum_congr rfl fun k _ => ?_
    rw [Matrix.mul_diagonal, Matrix.transpose_apply, Matrix.map_apply]
    push_cast
    ring
  rw [norm_off_sq, whole, ← Finset.sum_sub_distrib]
  refine Finset.sum_congr rfl fun i _ => ?_
  rw [corner, sum_norm_sq_sub_sq (row i)]

/-- A frame leaves less of the matrix with the closer values. -/
theorem Diagonalizes.norm_off_sq_le_of (given : Diagonalizes m v values) (given' : Diagonalizes m' v values')
    (closer : ∀ k l, ‖values k - values l‖ ^ 2 ≤ c * ‖values' k - values' l‖ ^ 2) : ‖off m‖ ^ 2 ≤ c * ‖off m'‖ ^ 2 := by
  rw [given.norm_off_sq_eq, given'.norm_off_sq_eq, Finset.mul_sum]
  refine Finset.sum_le_sum fun i _ => ?_
  rw [Finset.mul_sum]
  refine Finset.sum_le_sum fun k _ => ?_
  rw [Finset.mul_sum]
  refine Finset.sum_le_sum fun l _ => ?_
  rw [mul_left_comm]
  exact mul_le_mul_of_nonneg_left (closer k l) (by positivity)

end Distances

/-! ## Normal matrices -/

/-- A symmetric matrix is as far from commuting with its adjoint as its parts are from commuting with each other. -/
theorem norm_adjoint_commutator {m : TwoQubit} (symmetric : mᵀ = m) :
    ‖m * mᴴ - mᴴ * m‖ = 2 * ‖m.map re * m.map im - m.map im * m.map re‖ := by
  set x := (m.map re).map ofReal with real
  set y := (m.map im).map ofReal with imaginary
  have whole : x + I • y = m := map_re_add_map_im m
  have conjugate : mᴴ = x - I • y := by
    rw [Matrix.conjTranspose, symmetric]
    ext i j
    simp [x, y, Complex.ext_iff]
  have image : (m.map re * m.map im - m.map im * m.map re).map ofReal = x * y - y * x := by
    ext i j
    simp [x, y, Matrix.mul_apply]
  have split : m * mᴴ - mᴴ * m = (-2 * I) • (m.map re * m.map im - m.map im * m.map re).map ofReal := by
    calc
      _ = (x + I • y) * (x - I • y) - (x - I • y) * (x + I • y) := by rw [conjugate, whole]
      _ = (-2 * I) • (x * y - y * x) := by
        simp only [Matrix.add_mul, Matrix.mul_add, Matrix.sub_mul, Matrix.mul_sub, Matrix.smul_mul, Matrix.mul_smul]
        module
      _ = _ := by rw [image]
  rw [split, norm_smul, Matrix.frobenius_norm_map_eq _ _ fun a => Complex.norm_real a]
  simp

/-- The parts of a symmetric matrix commute where it commutes with its adjoint. -/
theorem commute_parts {m : TwoQubit} (symmetric : mᵀ = m) (normal : m * mᴴ = mᴴ * m) : Commute (m.map re) (m.map im) := by
  have distance := norm_adjoint_commutator symmetric
  rw [normal, sub_self, norm_zero, eq_comm, mul_eq_zero, norm_eq_zero] at distance
  exact sub_eq_zero.mp (distance.resolve_left two_ne_zero)

/-! ## Near a diagonalised matrix -/

/-- A map of the entries lengthens a matrix by no more than it lengthens a number. -/
theorem norm_map_sq_le {f : ℂ → ℝ} {c : ℝ} (bound : ∀ z, f z ^ 2 ≤ c * ‖z‖ ^ 2) (x : TwoQubit) :
    ‖x.map f‖ ^ 2 ≤ c * ‖x‖ ^ 2 := by
  rw [frobenius_sq, frobenius_sq, Finset.mul_sum]
  refine Finset.sum_le_sum fun i _ => ?_
  rw [Finset.mul_sum]
  refine Finset.sum_le_sum fun j _ => ?_
  rw [Matrix.map_apply, Real.norm_eq_abs, sq_abs]
  exact bound _

/-- A part of a matrix is no longer than the matrix. -/
theorem norm_map_le {f : ℂ → ℝ} (bound : ∀ z, |f z| ≤ ‖z‖) (x : TwoQubit) : ‖x.map f‖ ≤ ‖x‖ := by
  refine (pow_le_pow_iff_left₀ (norm_nonneg _) (norm_nonneg _) two_ne_zero).mp ?_
  rw [← one_mul (‖x‖ ^ 2)]
  refine norm_map_sq_le (fun z => ?_) x
  rw [one_mul, ← sq_abs]
  exact pow_le_pow_left₀ (abs_nonneg _) (bound z) 2

/-- What is diagonalised has parts that commute up to the tolerance. -/
theorem norm_commutator_le {m : Mat4 ℝ} {d : Diagonalization ℝ} (found : diagonalize m = .ok d)
    (size : ‖m.toMatrix‖ ≤ 21 / 10) :
    ‖m.toMatrix.map re * m.toMatrix.map im - m.toMatrix.map im * m.toMatrix.map re‖ ≤ 5e-12 := by
  obtain ⟨-, orthogonal, close⟩ := diagonalize_eq_ok found
  have near := norm_sub_le_of_isClose close
  have commute := (diagonalizes_own orthogonal).commute.eq
  set x := m.toMatrix - d.matrix.toMatrix with rest
  have real : d.matrix.toMatrix.map re = m.toMatrix.map re - x.map re := by
    ext i j
    simp [rest]
  have imaginary : d.matrix.toMatrix.map im = m.toMatrix.map im - x.map im := by
    ext i j
    simp [rest]
  set a := m.toMatrix.map re
  set b := m.toMatrix.map im
  set e := x.map re
  set f := x.map im
  have split : a * b - b * a = (a * f - f * a) + (e * b - b * e) - (e * f - f * e) := by
    rw [real, imaginary] at commute
    simp only [Matrix.mul_sub, Matrix.sub_mul] at commute
    rw [← sub_eq_zero] at commute ⊢
    rw [← commute]
    abel
  have sizeA : ‖a‖ ≤ 21 / 10 := (norm_map_le Complex.abs_re_le_norm _).trans size
  have sizeB : ‖b‖ ≤ 21 / 10 := (norm_map_le Complex.abs_im_le_norm _).trans size
  have sizeE : ‖e‖ ≤ 57e-14 := (norm_map_le Complex.abs_re_le_norm _).trans near
  have sizeF : ‖f‖ ≤ 57e-14 := (norm_map_le Complex.abs_im_le_norm _).trans near
  have swap (y z : Matrix (Fin 4) (Fin 4) ℝ) : ‖y * z - z * y‖ ≤ 2 * (‖y‖ * ‖z‖) := by
    refine (norm_sub_le _ _).trans ?_
    linarith [Matrix.frobenius_norm_mul y z, Matrix.frobenius_norm_mul z y]
  rw [split]
  refine (norm_sub_le _ _).trans ((add_le_add_left (norm_add_le _ _) _).trans ?_)
  have first := mul_le_mul sizeA sizeF (norm_nonneg _) (by norm_num)
  have second := mul_le_mul sizeE sizeB (norm_nonneg _) (by norm_num)
  have third := mul_le_mul sizeE sizeF (norm_nonneg _) (by norm_num)
  norm_num at first second third ⊢
  linarith [swap a f, swap e b, swap e f]

end Weyl

end Entangle

end
