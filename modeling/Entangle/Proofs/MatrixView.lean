import Mathlib
import Entangle.Matrix.Mat4
import Entangle.Proofs.ComplexView

/-!
# Stored matrices as matrices

A stored matrix over exact arithmetic is a complex matrix, and every operation on stored matrices is
the operation of linear algebra that it is named for. The Kronecker product of two one-qubit matrices
is carried from pairs of bits to indices below four, with the first factor on the high bit.
-/

noncomputable section

namespace Entangle

open Matrix
open scoped Kronecker

/-- Complex matrices on one qubit. -/
abbrev OneQubit := Matrix (Fin 2) (Fin 2) ℂ

/-- Complex matrices on two qubits. -/
abbrev TwoQubit := Matrix (Fin 4) (Fin 4) ℂ

namespace Square

variable {n : ℕ}

/-- The complex matrix that stored entries stand for. -/
def toMatrix (m : Square n (Cx ℝ)) : Matrix (Fin n) (Fin n) ℂ := .of fun i j => (m i j).toComplex

@[simp]
theorem toMatrix_apply (m : Square n (Cx ℝ)) (i j : Fin n) : m.toMatrix i j = (m i j).toComplex := rfl

theorem toMatrix_injective : Function.Injective (toMatrix : Square n (Cx ℝ) → _) := by
  intro a b same
  apply Square.ext
  intro i j
  exact Cx.toComplex_injective (congrFun (congrFun same i) j)

@[simp]
theorem toMatrix_dagger (m : Square n (Cx ℝ)) : m.dagger.toMatrix = m.toMatrixᴴ := by
  ext i j
  simp

@[simp]
theorem toMatrix_transpose (m : Square n (Cx ℝ)) : m.transpose.toMatrix = m.toMatrixᵀ := by
  ext i j
  simp

@[simp]
theorem toMatrix_scale (m : Square n (Cx ℝ)) (s : Cx ℝ) :
    (m.scale s).toMatrix = s.toComplex • m.toMatrix := by
  ext i j
  simp

@[simp]
theorem toMatrix_identity : (identity : Square n (Cx ℝ)).toMatrix = 1 := by
  ext i j
  rw [toMatrix_apply, get_identity, Matrix.one_apply, apply_ite Cx.toComplex, Cx.toComplex_one,
    Cx.toComplex_zero]

@[simp]
theorem toMatrix_diagonal (entry : Fin n → Cx ℝ) :
    (diagonal 0 entry).toMatrix = Matrix.diagonal fun i => (entry i).toComplex := by
  ext i j
  rw [toMatrix_apply, get_diagonal, Matrix.diagonal_apply, apply_ite Cx.toComplex, Cx.toComplex_zero]

/-- Exactly unitary. -/
def Unitary (m : Square n (Cx ℝ)) : Prop := m.toMatrix ∈ unitaryGroup (Fin n) ℂ

theorem identity_unitary : (identity : Square n (Cx ℝ)).Unitary := by
  rw [Unitary, toMatrix_identity]
  exact one_mem _

@[simp]
theorem isFinite_eq (m : Square n (Cx ℝ)) : m.isFinite = true := by
  rw [isFinite, all_iff]
  intro i j
  exact Cx.isFinite_eq _

/-- The real matrix that stored real entries are. -/
def toReal (m : Square n ℝ) : Matrix (Fin n) (Fin n) ℝ := .of fun i j => m i j

@[simp]
theorem toReal_apply (m : Square n ℝ) (i j : Fin n) : m.toReal i j = m i j := rfl

end Square

/-! ## One qubit -/

namespace Mat2

@[simp]
theorem toMatrix_mul (a b : Mat2 ℝ) : (a * b).toMatrix = a.toMatrix * b.toMatrix := by
  ext i j
  rw [Matrix.mul_apply, Fin.sum_univ_two, Square.toMatrix_apply, get_mul]
  simp

theorem mul_assoc (a b c : Mat2 ℝ) : a * b * c = a * (b * c) := by
  apply Square.toMatrix_injective
  simp [Matrix.mul_assoc]

@[simp]
theorem toMatrix_of (a b c d : Cx ℝ) :
    (of a b c d).toMatrix = !![a.toComplex, b.toComplex; c.toComplex, d.toComplex] := by
  ext i j
  fin_cases i <;> fin_cases j <;> rfl

@[simp]
theorem toComplex_det (m : Mat2 ℝ) : m.det.toComplex = m.toMatrix.det := by
  rw [Matrix.det_fin_two, det]
  simp

theorem unitary_of {a b c d : Cx ℝ} (upper : a.toComplex * star a.toComplex + b.toComplex * star b.toComplex = 1)
    (lower : c.toComplex * star c.toComplex + d.toComplex * star d.toComplex = 1)
    (across : a.toComplex * star c.toComplex + b.toComplex * star d.toComplex = 0) : (of a b c d).Unitary := by
  have across' : c.toComplex * star a.toComplex + d.toComplex * star b.toComplex = 0 := by
    have adjoint := congrArg star across
    simpa [mul_comm] using adjoint
  rw [Square.Unitary, mem_unitaryGroup_iff, toMatrix_of, Matrix.star_eq_conjTranspose]
  ext i j
  fin_cases i <;> fin_cases j <;> simpa [Matrix.mul_apply] using ‹_›

theorem unitary_mul {u v : Mat2 ℝ} (first : u.Unitary) (second : v.Unitary) : (u * v).Unitary := by
  rw [Square.Unitary, toMatrix_mul]
  exact mul_mem first second

theorem unitary_dagger {u : Mat2 ℝ} (unitary : u.Unitary) : u.dagger.Unitary := by
  rw [Square.Unitary, Square.toMatrix_dagger]
  exact Unitary.star_mem unitary

end Mat2

theorem norm_det_of_unitary {n : ℕ} {u : Matrix (Fin n) (Fin n) ℂ}
    (unitary : u ∈ unitaryGroup (Fin n) ℂ) : ‖u.det‖ = 1 :=
  CStarRing.norm_of_mem_unitary (Matrix.det_of_mem_unitary unitary)

theorem star_exp_mul_exp (t : ℝ) : star (Complex.exp (t * Complex.I)) * Complex.exp (t * Complex.I) = 1 := by
  rw [Complex.star_def, Complex.conj_mul', Complex.norm_exp_ofReal_mul_I]
  simp

/-- A phase keeps a unitary unitary. -/
theorem exp_smul_mem_unitary {n : ℕ} (t : ℝ) {u : Matrix (Fin n) (Fin n) ℂ}
    (unitary : u ∈ unitaryGroup (Fin n) ℂ) : Complex.exp (t * Complex.I) • u ∈ unitaryGroup (Fin n) ℂ := by
  rw [mem_unitaryGroup_iff', star_smul, Matrix.smul_mul, Matrix.mul_smul, smul_smul, star_exp_mul_exp, one_smul,
    mem_unitaryGroup_iff'.mp unitary]

theorem sum_normSq_column {u : OneQubit} (unitary : u ∈ unitaryGroup (Fin 2) ℂ) :
    ‖u 0 0‖ ^ 2 + ‖u 1 0‖ ^ 2 = 1 := by
  have corner := congrFun (congrFun (mem_unitaryGroup_iff'.mp unitary) 0) 0
  rw [star_eq_conjTranspose, Matrix.mul_apply, Fin.sum_univ_two] at corner
  simp only [Matrix.conjTranspose_apply, Complex.star_def, Matrix.one_apply_eq, Complex.conj_mul'] at corner
  exact_mod_cast corner

/-! ## Two qubits -/

/-- An index below four is a pair of bits. -/
def bits : Fin 4 ≃ Fin 2 × Fin 2 where
  toFun i := (Mat4.high i, Mat4.low i)
  invFun p := ⟨2 * p.1 + p.2, by omega⟩
  left_inv := by decide
  right_inv := by decide

@[simp]
theorem high_values : Mat4.high 0 = 0 ∧ Mat4.high 1 = 0 ∧ Mat4.high 2 = 1 ∧ Mat4.high 3 = 1 := by
  decide

@[simp]
theorem low_values : Mat4.low 0 = 0 ∧ Mat4.low 1 = 1 ∧ Mat4.low 2 = 0 ∧ Mat4.low 3 = 1 := by
  decide

/-- The Kronecker product, with the first factor on the high bit. -/
def tensor (a b : OneQubit) : TwoQubit := (a ⊗ₖ b).submatrix bits bits

@[simp]
theorem tensor_apply (a b : OneQubit) (i j : Fin 4) :
    tensor a b i j = a (Mat4.high i) (Mat4.high j) * b (Mat4.low i) (Mat4.low j) := rfl

theorem tensor_mul_tensor (a b c d : OneQubit) : tensor a b * tensor c d = tensor (a * c) (b * d) := by
  rw [tensor, tensor, tensor, Matrix.submatrix_mul_equiv, Matrix.mul_kronecker_mul]

@[simp]
theorem tensor_one_one : tensor 1 1 = 1 := by
  rw [tensor, Matrix.one_kronecker_one, Matrix.submatrix_one_equiv]

theorem tensor_conjTranspose (a b : OneQubit) : (tensor a b)ᴴ = tensor aᴴ bᴴ := by
  rw [tensor, tensor, Matrix.conjTranspose_submatrix, Matrix.conjTranspose_kronecker]

theorem tensor_transpose (a b : OneQubit) : (tensor a b)ᵀ = tensor aᵀ bᵀ := by
  rw [tensor, tensor, Matrix.transpose_submatrix, Matrix.kroneckerMap_transpose]

theorem tensor_smul_left (z : ℂ) (a b : OneQubit) : tensor (z • a) b = z • tensor a b := by
  rw [tensor, tensor, Matrix.smul_kronecker, Matrix.submatrix_smul]
  rfl

theorem tensor_smul_right (z : ℂ) (a b : OneQubit) : tensor a (z • b) = z • tensor a b := by
  rw [tensor, tensor, Matrix.kronecker_smul, Matrix.submatrix_smul]
  rfl

theorem tensor_sub_left (a b c : OneQubit) : tensor (a - b) c = tensor a c - tensor b c := by
  ext i j
  simp [sub_mul]

theorem tensor_sub_right (a b c : OneQubit) : tensor a (b - c) = tensor a b - tensor a c := by
  ext i j
  simp [mul_sub]

theorem tensor_neg_left (a b : OneQubit) : tensor (-a) b = -tensor a b := by
  rw [← neg_one_smul ℂ a, tensor_smul_left, neg_one_smul]

theorem tensor_neg_right (a b : OneQubit) : tensor a (-b) = -tensor a b := by
  rw [← neg_one_smul ℂ b, tensor_smul_right, neg_one_smul]

theorem det_tensor (a b : OneQubit) : (tensor a b).det = a.det ^ 2 * b.det ^ 2 := by
  rw [tensor, Matrix.det_submatrix_equiv_self, Matrix.det_kronecker]
  rfl

theorem tensor_mem_unitary {a b : OneQubit} (ha : a ∈ unitaryGroup (Fin 2) ℂ)
    (hb : b ∈ unitaryGroup (Fin 2) ℂ) : tensor a b ∈ unitaryGroup (Fin 4) ℂ := by
  rw [mem_unitaryGroup_iff, star_eq_conjTranspose, tensor_conjTranspose, tensor_mul_tensor,
    ← star_eq_conjTranspose, ← star_eq_conjTranspose, mem_unitaryGroup_iff.mp ha,
    mem_unitaryGroup_iff.mp hb, tensor_one_one]

namespace Mat4

@[simp]
theorem toMatrix_mul (a b : Mat4 ℝ) : (a * b).toMatrix = a.toMatrix * b.toMatrix := by
  ext i j
  rw [Matrix.mul_apply, Fin.sum_univ_four, Square.toMatrix_apply, get_mul]
  simp

theorem toMatrix_square (a : Mat4 ℝ) : (a.transpose * a).toMatrix = a.toMatrixᵀ * a.toMatrix := by
  rw [toMatrix_mul, Square.toMatrix_transpose]

@[simp]
theorem toMatrix_kron (a b : Mat2 ℝ) : (kron a b).toMatrix = tensor a.toMatrix b.toMatrix := by
  ext i j
  simp

@[simp]
theorem toComplex_trace (m : Mat4 ℝ) : m.trace.toComplex = m.toMatrix.trace := by
  rw [Matrix.trace, Fin.sum_univ_four, trace]
  simp

@[simp]
theorem toMatrix_of (a b c d e f g h i j k l m n o p : Cx ℝ) :
    (of #v[a, b, c, d] #v[e, f, g, h] #v[i, j, k, l] #v[m, n, o, p]).toMatrix =
      !![a.toComplex, b.toComplex, c.toComplex, d.toComplex;
        e.toComplex, f.toComplex, g.toComplex, h.toComplex;
        i.toComplex, j.toComplex, k.toComplex, l.toComplex;
        m.toComplex, n.toComplex, o.toComplex, p.toComplex] := by
  ext row column
  fin_cases row <;> fin_cases column <;> rfl

@[simp]
theorem toMatrix_diag (d0 d1 d2 d3 : Cx ℝ) :
    (diag d0 d1 d2 d3).toMatrix =
      Matrix.diagonal ![d0.toComplex, d1.toComplex, d2.toComplex, d3.toComplex] := by
  rw [diag, Square.toMatrix_diagonal]
  congr 1
  funext k
  fin_cases k <;> rfl

end Mat4

namespace Real4

@[simp]
theorem toMatrix_complex (m : Real4 ℝ) : m.complex.toMatrix = m.toReal.map Complex.ofReal := by
  ext i j
  simp [complex]

end Real4

end Entangle

end
