import Mathlib
import Entangle.Proofs.Emission
import Entangle.Proofs.NearProducts

/-!
# Emission of nearly unitary matrices

Euler angles of a matrix that is not quite unitary stand for a unitary. The polar angle normalises the first
column and the phases are those of the last row, so what the matrix lacks of a unitary moves every entry, by a
few times its defect and no more.
-/

noncomputable section

namespace Entangle.Euler

open Matrix Complex
open Weyl (Nearly)
open scoped Matrix.Norms.Frobenius

variable {k : Mat2 ℝ} {μ : ℝ}

/-- The columns of a nearly unitary matrix are nearly orthonormal pairs. -/
theorem defects_le (near : Nearly μ k) :
    ‖(k 0 0).toComplex - k.toMatrix.det * star (k 1 1).toComplex‖ ^ 2 +
      ‖(k 0 1).toComplex + k.toMatrix.det * star (k 1 0).toComplex‖ ^ 2 ≤ μ ^ 2 := by
  have defects := Weyl.frobenius_sq_eq_defects k.toMatrix near.det
  have unit : (star k.toMatrix.det * k.toMatrix.det).re = 1 := by
    rw [mul_comm, Complex.star_def, Complex.mul_conj', near.det]
    norm_num
  rw [unit] at defects
  have size := near.size
  rw [defects] at size
  simp only [Square.toMatrix_apply] at size ⊢
  linarith

/-- The first column of a nearly unitary matrix has nearly unit length. -/
theorem abs_column_sub_one_le (near : Nearly μ k) (nonneg : 0 ≤ μ) (small : μ ≤ 1 / 10) :
    |√(‖(k 0 0).toComplex‖ ^ 2 + ‖(k 1 0).toComplex‖ ^ 2) - 1| ≤ μ := by
  set r := √(‖(k 0 0).toComplex‖ ^ 2 + ‖(k 1 0).toComplex‖ ^ 2) with first
  set t := √(‖(k 0 1).toComplex‖ ^ 2 + ‖(k 1 1).toComplex‖ ^ 2) with second
  have square : r ^ 2 = ‖(k 0 0).toComplex‖ ^ 2 + ‖(k 1 0).toComplex‖ ^ 2 := Real.sq_sqrt (by positivity)
  have square' : t ^ 2 = ‖(k 0 1).toComplex‖ ^ 2 + ‖(k 1 1).toComplex‖ ^ 2 := Real.sq_sqrt (by positivity)
  have size : r ^ 2 + t ^ 2 ≤ 2 + μ ^ 2 := by
    have whole := near.size
    rw [frobenius_sq, Fin.sum_univ_two, Fin.sum_univ_two, Fin.sum_univ_two] at whole
    simp only [Square.toMatrix_apply] at whole
    linarith
  have r0 : 0 ≤ r := Real.sqrt_nonneg _
  have t0 : 0 ≤ t := Real.sqrt_nonneg _
  have product : 1 ≤ r * t := by
    have det : 1 ≤ ‖(k 0 0).toComplex‖ * ‖(k 1 1).toComplex‖ + ‖(k 0 1).toComplex‖ * ‖(k 1 0).toComplex‖ := by
      rw [← near.det, Matrix.det_fin_two]
      refine (norm_sub_le _ _).trans_eq ?_
      rw [norm_mul, norm_mul]
      rfl
    refine det.trans (abs_le_of_sq_le_sq' ?_ (mul_nonneg r0 t0)).2
    rw [mul_pow, square, square']
    linarith [sq_nonneg (‖(k 0 0).toComplex‖ * ‖(k 0 1).toComplex‖ - ‖(k 1 0).toComplex‖ * ‖(k 1 1).toComplex‖)]
  have apart : (r - t) ^ 2 ≤ μ ^ 2 := by linarith
  obtain ⟨lower, upper⟩ := abs_le.mp (abs_le_of_sq_le_sq apart nonneg)
  rw [abs_le]
  constructor
  · by_contra! short
    nlinarith
  · by_contra! long
    nlinarith

theorem norm_mul_exp_arg_sub (t : ℝ) (z : Cx ℝ) : ‖t * exp (z.arg * I) - z.toComplex‖ = |t - ‖z.toComplex‖| := by
  have factor : t * exp (z.arg * I) - z.toComplex = ((t - ‖z.toComplex‖ : ℝ) : ℂ) * exp (z.arg * I) := by
    rw [Complex.ofReal_sub, sub_mul, norm_mul_exp_arg]
  rw [factor, norm_mul, Complex.norm_exp_ofReal_mul_I, mul_one, Complex.norm_real, Real.norm_eq_abs]

theorem norm_mul_exp_neg_arg_sub (t : ℝ) (z : Cx ℝ) :
    ‖t * exp (-(z.arg * I)) - star z.toComplex‖ = |t - ‖z.toComplex‖| := by
  have factor : t * exp (-(z.arg * I)) - star z.toComplex = ((t - ‖z.toComplex‖ : ℝ) : ℂ) * exp ((-z.arg : ℝ) * I) := by
    rw [Complex.ofReal_neg, neg_mul, Complex.ofReal_sub, sub_mul, norm_mul_exp_neg_arg]
  rw [factor, norm_mul, Complex.norm_exp_ofReal_mul_I, mul_one, Complex.norm_real, Real.norm_eq_abs]

/-- The polar angle has the moduli of the first column up to its length. -/
theorem polar_near (near : Nearly μ k) (nonneg : 0 ≤ μ) (small : μ ≤ 1 / 10) :
    |Real.cos ((Angles.zyz k).theta / 2) - ‖(k 0 0).toComplex‖| ≤ μ ∧
      |Real.sin ((Angles.zyz k).theta / 2) - ‖(k 1 0).toComplex‖| ≤ μ := by
  have length := abs_column_sub_one_le near nonneg small
  set r := √(‖(k 0 0).toComplex‖ ^ 2 + ‖(k 1 0).toComplex‖ ^ 2)
  have each {t n : ℝ} (value : r * t = n) (bounded : |t| ≤ 1) : |t - n| ≤ μ := by
    have factor : t - n = -(r - 1) * t := by linear_combination value
    rw [factor, abs_mul, abs_neg]
    exact (mul_le_of_le_one_right (abs_nonneg _) bounded).trans length
  obtain ⟨first, second⟩ := zyz_theta k
  exact ⟨each first (Real.abs_cos_le_one _), each second (Real.abs_sin_le_one _)⟩

/-- The Euler angles of a nearly unitary matrix stand for a unitary near it. -/
theorem norm_zyz_sub_le (near : Nearly μ k) (nonneg : 0 ≤ μ) (small : μ ≤ 1 / 10) :
    ‖(Angles.zyz k).product .z .y - k.toMatrix‖ ≤ 5 * μ := by
  obtain ⟨cosine, sine⟩ := polar_near near nonneg small
  have defects := defects_le near
  set c := Real.cos ((Angles.zyz k).theta / 2) with cosineDef
  set s := Real.sin ((Angles.zyz k).theta / 2) with sineDef
  set x := (k 0 0).toComplex - k.toMatrix.det * star (k 1 1).toComplex with corner
  set y := (k 0 1).toComplex + k.toMatrix.det * star (k 1 0).toComplex with upper
  have xSmall : ‖x‖ ≤ μ := (abs_le_of_sq_le_sq' (by linarith [sq_nonneg ‖y‖]) nonneg).2
  have ySmall : ‖y‖ ≤ μ := (abs_le_of_sq_le_sq' (by linarith [sq_nonneg ‖x‖]) nonneg).2
  have cosine' : |c - ‖(k 1 1).toComplex‖| ≤ 2 * μ := by
    have other : |‖(k 0 0).toComplex‖ - ‖(k 1 1).toComplex‖| ≤ μ := by
      have modulus : ‖k.toMatrix.det * star (k 1 1).toComplex‖ = ‖(k 1 1).toComplex‖ := by
        rw [norm_mul, near.det, one_mul, norm_star]
      rw [← modulus]
      exact (abs_norm_sub_norm_le _ _).trans xSmall
    have whole := abs_sub_le c ‖(k 0 0).toComplex‖ ‖(k 1 1).toComplex‖
    linarith
  have e00 : ‖k.toMatrix.det * (c * exp (-((k 1 1).arg * I))) - (k 0 0).toComplex‖ ≤ 3 * μ := by
    have split : k.toMatrix.det * (c * exp (-((k 1 1).arg * I))) - (k 0 0).toComplex =
        k.toMatrix.det * (c * exp (-((k 1 1).arg * I)) - star (k 1 1).toComplex) - x := by
      rw [corner]
      ring
    have triangle := norm_sub_le (k.toMatrix.det * (c * exp (-((k 1 1).arg * I)) - star (k 1 1).toComplex)) x
    rw [norm_mul, near.det, one_mul, norm_mul_exp_neg_arg_sub] at triangle
    rw [split]
    linarith
  have e01 : ‖-(k.toMatrix.det * (s * exp (-((k 1 0).arg * I)))) - (k 0 1).toComplex‖ ≤ 2 * μ := by
    have split : -(k.toMatrix.det * (s * exp (-((k 1 0).arg * I)))) - (k 0 1).toComplex =
        -(k.toMatrix.det * (s * exp (-((k 1 0).arg * I)) - star (k 1 0).toComplex)) - y := by
      rw [upper]
      ring
    have triangle := norm_sub_le (-(k.toMatrix.det * (s * exp (-((k 1 0).arg * I)) - star (k 1 0).toComplex))) y
    rw [norm_neg, norm_mul, near.det, one_mul, norm_mul_exp_neg_arg_sub] at triangle
    rw [split]
    linarith
  have e10 : ‖s * exp ((k 1 0).arg * I) - (k 1 0).toComplex‖ ≤ μ := (norm_mul_exp_arg_sub _ _).trans_le sine
  have e11 : ‖c * exp ((k 1 1).arg * I) - (k 1 1).toComplex‖ ≤ 2 * μ := (norm_mul_exp_arg_sub _ _).trans_le cosine'
  rw [zyz_product_of_det near.det rfl rfl, ← cosineDef, ← sineDef]
  refine (abs_le_of_sq_le_sq' ?_ (by linarith)).2
  rw [frobenius_sq, Fin.sum_univ_two, Fin.sum_univ_two, Fin.sum_univ_two]
  have square {z : ℂ} {n : ℝ} (le : ‖z‖ ≤ n) : ‖z‖ ^ 2 ≤ n ^ 2 := pow_le_pow_left₀ (norm_nonneg z) le 2
  calc
    _ ≤ (3 * μ) ^ 2 + (2 * μ) ^ 2 + (μ ^ 2 + (2 * μ) ^ 2) :=
      add_le_add (add_le_add (square e00) (square e01)) (add_le_add (square e10) (square e11))
    _ ≤ (5 * μ) ^ 2 := by linarith [sq_nonneg μ]

/-- So does the product of rotations that any gate set writes it as. -/
theorem Basis.norm_product_sub_le (basis : Basis) (near : Nearly μ k) (nonneg : 0 ≤ μ) (small : μ ≤ 1 / 10) :
    ‖basis.product k - k.toMatrix‖ ≤ 5 * μ := by
  obtain ⟨w, frame, turned⟩ := basis.exists_frame
  have adjoint : w.toMatrixᴴ ∈ unitaryGroup (Fin 2) ℂ := Unitary.star_mem frame
  have inverse : w.toMatrix * w.toMatrixᴴ = 1 := mem_unitaryGroup_iff.mp frame
  have value : (w.dagger * k * w).toMatrix = w.toMatrixᴴ * k.toMatrix * w.toMatrix := by
    rw [Mat2.toMatrix_mul, Mat2.toMatrix_mul, Square.toMatrix_dagger]
  have inside : Nearly μ (w.dagger * k * w) := by
    constructor
    · rw [value, Matrix.det_mul, Matrix.det_mul, norm_mul, norm_mul, norm_det_of_unitary frame, norm_det_of_unitary adjoint,
        near.det, one_mul, mul_one]
    · rw [value, norm_mul_unitary _ frame, norm_unitary_mul _ adjoint]
      exact near.size
  have own : w.toMatrix * (w.dagger * k * w).toMatrix * w.toMatrixᴴ = k.toMatrix := by
    rw [value, Matrix.mul_assoc, Matrix.mul_assoc _ w.toMatrix, inverse, Matrix.mul_one, ← Matrix.mul_assoc, inverse,
      Matrix.one_mul]
  have back : basis.product k - k.toMatrix = w.toMatrix *
      ((Angles.zyz (w.dagger * k * w)).product .z .y - (w.dagger * k * w).toMatrix) * w.toMatrixᴴ := by
    rw [turned, Matrix.mul_sub, Matrix.sub_mul, own]
  rw [back, norm_mul_unitary _ adjoint, norm_unitary_mul _ frame]
  exact norm_zyz_sub_le inside nonneg small

/-- Two factors at once are written near their product. -/
theorem Basis.norm_tensor_sub_le (basis : Basis) {l r : Mat2 ℝ} (left : Nearly μ l) (right : Nearly μ r) (nonneg : 0 ≤ μ)
    (small : μ ≤ 1 / 100) :
    ‖tensor (basis.product l) (basis.product r) - tensor l.toMatrix r.toMatrix‖ ≤ 15 * μ := by
  have first := basis.norm_product_sub_le left nonneg (by linarith)
  have second := basis.norm_product_sub_le right nonneg (by linarith)
  have bounded {k : Mat2 ℝ} (near : Nearly μ k) : ‖k.toMatrix‖ ≤ 145 / 100 := by
    refine (abs_le_of_sq_le_sq' ?_ (by norm_num)).2
    nlinarith [near.size]
  have written : ‖basis.product r‖ ≤ 15 / 10 := by
    have triangle := norm_le_insert' (basis.product r) r.toMatrix
    linarith [bounded right]
  have split : tensor (basis.product l) (basis.product r) - tensor l.toMatrix r.toMatrix =
      tensor (basis.product l - l.toMatrix) (basis.product r) + tensor l.toMatrix (basis.product r - r.toMatrix) := by
    rw [tensor_sub_left, tensor_sub_right, sub_add_sub_cancel]
  rw [split]
  refine (norm_add_le _ _).trans ?_
  rw [norm_tensor, norm_tensor]
  nlinarith [norm_nonneg (basis.product l - l.toMatrix), norm_nonneg (basis.product r - r.toMatrix), bounded left,
    norm_nonneg l.toMatrix, norm_nonneg (basis.product r)]

/-- A form whose outer factors are nearly unitary differs little from the one with the factors as they are written. -/
theorem Basis.norm_form_sub_le (basis : Basis) {f : Weyl.Form ℝ} (given : f.OuterHas (Nearly μ)) (nonneg : 0 ≤ μ)
    (small : μ ≤ 1 / 100) (i j : Fin 4) :
    ‖(exp (f.phase * I) • (tensor (basis.product f.k1l) (basis.product f.k1r) * Weyl.coupling (Weyl.angles f.a f.b f.c) *
      tensor f.k2l.toMatrix f.k2r.toMatrix)) i j - f.matrix.toMatrix i j‖ ≤ 15 * μ := by
  set inner := Weyl.coupling (Weyl.angles f.a f.b f.c) * tensor f.k2l.toMatrix f.k2r.toMatrix
  have member : inner ∈ unitaryGroup (Fin 4) ℂ :=
    mul_mem (Weyl.coupling_mem_unitary _) (tensor_mem_unitary given.innerLeft given.innerRight)
  rw [Weyl.toMatrix_form, Weyl.dressed, Matrix.mul_assoc, Matrix.mul_assoc, ← Matrix.sub_apply, ← smul_sub, ← Matrix.sub_mul]
  refine (norm_apply_le _ i j).trans ?_
  rw [norm_smul, Complex.norm_exp_ofReal_mul_I, one_mul, norm_mul_unitary _ member]
  exact basis.norm_tensor_sub_le given.outerLeft given.outerRight nonneg small

end Entangle.Euler

namespace Entangle.Weyl.Decomposition

open Matrix Complex

/-- The product that a decomposition stands for, with its factors as a gate set writes them. -/
def written (d : Decomposition ℝ) (basis : Euler.Basis) : TwoQubit :=
  exp (d.phase * I) • (tensor (basis.product d.k1l) (basis.product d.k1r) * coupling (angles d.a d.b d.c) *
    tensor (basis.product d.k2l) (basis.product d.k2r))

theorem written_eq {d : Decomposition ℝ} (factored : d.Factored) (basis : Euler.Basis) :
    d.written basis = d.reconstruct.toMatrix := by
  rw [written, basis.product_eq factored.outerLeft, basis.product_eq factored.outerRight,
    basis.product_eq factored.innerLeft, basis.product_eq factored.innerRight, reconstruct, toMatrix_form, dressed]

end Entangle.Weyl.Decomposition

end
