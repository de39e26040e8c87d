import Mathlib
import Entangle.Weyl.Product
import Entangle.Proofs.MatrixView

/-!
# Splitting products

A product of special unitary matrices times a phase is split into special unitary factors and a phase
that give it back. One of the first two blocks is regular enough to fix the right factor up to sign,
and the root in the left factor takes the phase along.
-/

noncomputable section

namespace Entangle.Weyl.Product

open Matrix Complex

variable {u : Mat4 ℝ} {z : ℂ} {l r : OneQubit}

theorem tenth_eq : @OfScientific.ofScientific ℝ Scalar.instOfScientific 1 true 1 = 1 / 10 := by
  rw [Exact.decimal_eq]
  norm_num

theorem ninth_eq : @OfScientific.ofScientific ℝ Scalar.instOfScientific 9 true 1 = 9 / 10 := by
  rw [Exact.decimal_eq]
  norm_num

theorem toMatrix_block (split : u.toMatrix = z • tensor l r) :
    (Mat4.block u 0 0).toMatrix = (z * l 0 0) • r ∧ (Mat4.block u 2 0).toMatrix = (z * l 1 0) • r := by
  have entry (i j : Fin 4) : (u i j).toComplex = z * tensor l r i j := congrFun (congrFun split i) j
  constructor <;>
  · rw [Mat4.block, Mat2.toMatrix_of]
    ext i j
    fin_cases i <;> fin_cases j <;> simp [entry, mul_assoc]

/-- The block that fixes the right factor is a multiple of it, and not a small one. -/
theorem rightBlock_spec (unit : ‖z‖ = 1) (column : 1 / 5 ≤ ‖l 0 0‖ ^ 2 + ‖l 1 0‖ ^ 2)
    (right : r ∈ specialUnitaryGroup (Fin 2) ℂ) (split : u.toMatrix = z • tensor l r) :
    ∃ w : ℂ, (rightBlock u).1.toMatrix = w • r ∧ (rightBlock u).2.toComplex = w ^ 2 ∧
      1 / 10 ≤ ‖w‖ ^ 2 := by
  obtain ⟨top, bottom⟩ := toMatrix_block split
  have det_multiple (w : ℂ) : (w • r).det = w ^ 2 := by
    rw [Matrix.det_smul, (mem_specialUnitaryGroup_iff.mp right).2, mul_one, Fintype.card_fin]
  have size (i : Fin 2) : ‖z * l i 0‖ ^ 2 = ‖l i 0‖ ^ 2 := by rw [norm_mul, unit, one_mul]
  have topDet : (Mat4.block u 0 0).det.toComplex = (z * l 0 0) ^ 2 := by
    rw [Mat2.toComplex_det, top, det_multiple]
  have bottomDet : (Mat4.block u 2 0).det.toComplex = (z * l 1 0) ^ 2 := by
    rw [Mat2.toComplex_det, bottom, det_multiple]
  have test : (Mat4.block u 0 0).det.abs = ‖l 0 0‖ ^ 2 := by
    rw [Cx.abs_eq, topDet, norm_pow, size]
  unfold rightBlock
  dsimp only
  rw [test, tenth_eq]
  split
  next small =>
    refine ⟨z * l 1 0, bottom, bottomDet, ?_⟩
    rw [size]
    linarith
  next large =>
    refine ⟨z * l 0 0, top, topDet, ?_⟩
    rw [size]
    linarith

theorem toMatrix_strided (split : u.toMatrix = z • tensor l 1) :
    (Mat4.strided u 0 0).toMatrix = z • l := by
  have entry (i j : Fin 4) : (u i j).toComplex = z * tensor l 1 i j := congrFun (congrFun split i) j
  rw [Mat4.strided, Mat2.toMatrix_of]
  ext i j
  fin_cases i <;> fin_cases j <;> simp [entry, Matrix.one_apply]

theorem sign_smul_mem {sign : ℂ} (isSign : sign = 1 ∨ sign = -1)
    (special : l ∈ specialUnitaryGroup (Fin 2) ℂ) : sign • l ∈ specialUnitaryGroup (Fin 2) ℂ := by
  obtain ⟨unitary, determinant⟩ := mem_specialUnitaryGroup_iff.mp special
  rw [mem_unitaryGroup_iff] at unitary
  rw [mem_specialUnitaryGroup_iff, mem_unitaryGroup_iff, Matrix.det_smul, determinant]
  rcases isSign with rfl | rfl <;> simp [unitary]

/-- Dividing by the root of the determinant leaves a matrix of determinant one up to sign. -/
theorem toMatrix_normalize {m : Mat2 ℝ} {det : Cx ℝ} {w : ℂ} {a : OneQubit} (multiple : m.toMatrix = w • a)
    (square : det.toComplex = w ^ 2) (nonzero : w ≠ 0) :
    ∃ sign : ℂ, (sign = 1 ∨ sign = -1) ∧ sign * det.sqrt.toComplex = w ∧
      (normalize m det).toMatrix = sign • a := by
  have root := Cx.toComplex_sqrt_sq det
  have rootNonzero : det.sqrt.toComplex ≠ 0 := by
    intro zero
    rw [zero, square] at root
    exact nonzero (by simpa using root.symm)
  refine ⟨w / det.sqrt.toComplex, ?_, div_mul_cancel₀ w rootNonzero, ?_⟩
  · rw [← mul_self_eq_one_iff, ← pow_two, div_pow, root, square]
    exact div_self (pow_ne_zero 2 nonzero)
  · rw [normalize, Square.toMatrix_scale, multiple, Cx.toComplex_div, Cx.toComplex_one, smul_smul]
    congr 1
    ring

theorem rightBlock_det (u : Mat4 ℝ) : (rightBlock u).2 = (rightBlock u).1.det := by
  unfold rightBlock
  dsimp only
  split <;> rfl

/-- A matrix is split where its block is far from singular, and the left factor further. -/
theorem decompose_of_far {right left : Mat2 ℝ} (rightEq : normalize (rightBlock u).1 (rightBlock u).2 = right)
    (leftEq : Mat4.strided (u * Mat4.kron Square.identity right.dagger) 0 0 = left)
    (rightFar : 1 / 10 ≤ ‖(rightBlock u).2.toComplex‖) (leftFar : 9 / 10 ≤ ‖left.det.toComplex‖) :
    decompose u = .ok ⟨normalize left left.det, right, left.det.arg / 2⟩ := by
  subst rightEq leftEq
  unfold decompose
  dsimp only
  rw [tenth_eq, ninth_eq, Cx.abs_eq, Cx.abs_eq, if_neg (not_lt.mpr rightFar), if_neg (not_lt.mpr leftFar)]
  rfl

/-- A product times a phase is split where the left factor has determinant one and its first column is not small: the
left factor is found up to sign, and the right one is special unitary. -/
theorem decompose_of_det (unit : ‖z‖ = 1) (determinant : l.det = 1) (column : 1 / 5 ≤ ‖l 0 0‖ ^ 2 + ‖l 1 0‖ ^ 2)
    (right : r ∈ specialUnitaryGroup (Fin 2) ℂ) (split : u.toMatrix = z • tensor l r) :
    ∃ (p : Product ℝ) (sign : ℂ), decompose u = .ok p ∧ (sign = 1 ∨ sign = -1) ∧ p.left.toMatrix = sign • l ∧
      p.right.toMatrix ∈ specialUnitaryGroup (Fin 2) ℂ ∧
      exp (p.phase * I) • tensor p.left.toMatrix p.right.toMatrix = u.toMatrix := by
  obtain ⟨w, blockEq, blockDet, size⟩ := rightBlock_spec unit column right split
  have nonzero : w ≠ 0 := by
    rintro rfl
    norm_num at size
  obtain ⟨ε, isSign, -, rightEq⟩ := toMatrix_normalize blockEq blockDet nonzero
  set right' := normalize (rightBlock u).1 (rightBlock u).2 with rightDef
  set left' := Mat4.strided (u * Mat4.kron Square.identity right'.dagger) 0 0 with leftDef
  have real : star ε = ε := by rcases isSign with rfl | rfl <;> simp
  have own : ε * ε = 1 := by rcases isSign with rfl | rfl <;> simp
  have leftEq : left'.toMatrix = (z * ε) • l := by
    apply toMatrix_strided
    have inverse : r * rᴴ = 1 := mem_unitaryGroup_iff.mp (mem_specialUnitaryGroup_iff.mp right).1
    rw [Mat4.toMatrix_mul, Mat4.toMatrix_kron, Square.toMatrix_identity, Square.toMatrix_dagger, rightEq,
      split, Matrix.smul_mul, tensor_mul_tensor, Matrix.conjTranspose_smul, real, Matrix.mul_smul, inverse,
      Matrix.mul_one, tensor_smul_right, smul_smul]
  have leftDet : left'.det.toComplex = (z * ε) ^ 2 := by
    rw [Mat2.toComplex_det, leftEq, Matrix.det_smul, determinant, mul_one, Fintype.card_fin]
  have leftUnit : ‖left'.det.toComplex‖ = 1 := by
    rw [leftDet, norm_pow, norm_mul, unit, one_mul]
    rcases isSign with rfl | rfl <;> simp
  have leftNonzero : z * ε ≠ 0 := by
    intro zero
    rw [leftDet, zero] at leftUnit
    norm_num at leftUnit
  obtain ⟨η, isSign', root, normalEq⟩ := toMatrix_normalize leftEq leftDet leftNonzero
  refine ⟨⟨normalize left' left'.det, right', left'.det.arg / 2⟩, η, ?_, isSign', normalEq, ?_, ?_⟩
  · refine decompose_of_far rightDef.symm leftDef.symm ?_ ?_
    · rw [blockDet, norm_pow]
      exact size
    · rw [leftUnit]
      norm_num
  · rw [rightEq]
    exact sign_smul_mem isSign right
  · dsimp only
    have phase := Cx.toComplex_sqrt_of_unit leftUnit
    rw [← phase, normalEq, rightEq, tensor_smul_left, tensor_smul_right, split, smul_smul, smul_smul]
    congr 1
    linear_combination ε * root + z * own

/-- A product of special unitary factors times a phase is split into such factors and a phase that give it back. -/
theorem decompose_tensor (unit : ‖z‖ = 1) (left : l ∈ specialUnitaryGroup (Fin 2) ℂ)
    (right : r ∈ specialUnitaryGroup (Fin 2) ℂ) (split : u.toMatrix = z • tensor l r) :
    ∃ p : Product ℝ, decompose u = .ok p ∧ p.left.toMatrix ∈ specialUnitaryGroup (Fin 2) ℂ ∧
      p.right.toMatrix ∈ specialUnitaryGroup (Fin 2) ℂ ∧
      exp (p.phase * I) • tensor p.left.toMatrix p.right.toMatrix = u.toMatrix := by
  obtain ⟨unitary, determinant⟩ := mem_specialUnitaryGroup_iff.mp left
  have column := sum_normSq_column unitary
  obtain ⟨p, sign, found, isSign, leftEq, rightMem, value⟩ :=
    decompose_of_det unit determinant (by rw [column]; norm_num) right split
  exact ⟨p, found, leftEq ▸ sign_smul_mem isSign left, rightMem, value⟩

/-- A unitary is a special unitary under a phase. -/
theorem exists_special {a : OneQubit} (unitary : a ∈ unitaryGroup (Fin 2) ℂ) :
    ∃ t : ℝ, ∃ s ∈ specialUnitaryGroup (Fin 2) ℂ, a = exp (t * I) • s := by
  set angle := a.det.arg / 2 with half
  have phase : exp (angle * I) ^ 2 = a.det := by
    have polar := Complex.norm_mul_exp_arg_mul_I a.det
    rw [norm_det_of_unitary unitary, Complex.ofReal_one, one_mul] at polar
    calc
      exp (angle * I) ^ 2 = exp (a.det.arg * I) := by
        rw [← Complex.exp_nat_mul, half]
        congr 1
        push_cast
        ring
      _ = a.det := polar
  have back : exp (angle * I) * exp ((-angle : ℝ) * I) = 1 := by
    rw [← Complex.exp_add, ← add_mul, ← Complex.ofReal_add, add_neg_cancel, Complex.ofReal_zero, zero_mul, Complex.exp_zero]
  refine ⟨angle, exp ((-angle : ℝ) * I) • a, ?_, ?_⟩
  · rw [mem_specialUnitaryGroup_iff, Matrix.det_smul, Fintype.card_fin, ← phase, ← mul_pow, mul_comm (exp _), back, one_pow]
    exact ⟨exp_smul_mem_unitary _ unitary, rfl⟩
  · rw [smul_smul, back, one_smul]

theorem det_of_special {m : Mat2 ℝ} (special : m.toMatrix ∈ specialUnitaryGroup (Fin 2) ℂ) : m.det = 1 := by
  apply Cx.toComplex_injective
  rw [Mat2.toComplex_det, Cx.toComplex_one]
  exact (mem_specialUnitaryGroup_iff.mp special).2

/-- A product of any unitary factors under a phase is split into special unitary factors and a phase that give it
back. -/
theorem decompose_kron {a b : Mat2 ℝ} (left : a.Unitary) (right : b.Unitary) (phi : ℝ) :
    ∃ p : Product ℝ, decompose ((Mat4.kron a b).scale (Cx.cis phi)) = .ok p ∧ p.left.Unitary ∧ p.right.Unitary ∧
      p.left.det = 1 ∧ p.right.det = 1 ∧
      (Mat4.kron p.left p.right).scale (Cx.cis p.phase) = (Mat4.kron a b).scale (Cx.cis phi) := by
  obtain ⟨s, l, specialL, leftEq⟩ := exists_special left
  obtain ⟨t, r, specialR, rightEq⟩ := exists_special right
  have split : ((Mat4.kron a b).scale (Cx.cis phi)).toMatrix = exp ((phi + s + t : ℝ) * I) • tensor l r := by
    rw [Square.toMatrix_scale, Mat4.toMatrix_kron, Cx.toComplex_cis, leftEq, rightEq, tensor_smul_left, tensor_smul_right,
      smul_smul, smul_smul, ← Complex.exp_add, ← Complex.exp_add]
    push_cast
    ring_nf
  obtain ⟨p, found, ownL, ownR, value⟩ :=
    decompose_tensor (Complex.norm_exp_ofReal_mul_I _) specialL specialR split
  refine ⟨p, found, (mem_specialUnitaryGroup_iff.mp ownL).1, (mem_specialUnitaryGroup_iff.mp ownR).1, det_of_special ownL,
    det_of_special ownR, ?_⟩
  apply Square.toMatrix_injective
  rw [← value, Square.toMatrix_scale, Mat4.toMatrix_kron, Cx.toComplex_cis]

/-- A flip on the left, which leaves the upper block empty, and a quarter of a turn on the right. -/
theorem decompose_kron_flip :
    (Mat2.of 0 1 1 0 : Mat2 ℝ).Unitary ∧ (Mat2.of 1 0 0 Cx.i : Mat2 ℝ).Unitary ∧
      ∃ p : Product ℝ, decompose ((Mat4.kron (.of 0 1 1 0) (.of 1 0 0 Cx.i)).scale (Cx.cis 3)) = .ok p ∧ p.left.Unitary ∧
        p.right.Unitary ∧ p.left.det = 1 ∧ p.right.det = 1 ∧
        (Mat4.kron p.left p.right).scale (Cx.cis p.phase) = (Mat4.kron (.of 0 1 1 0) (.of 1 0 0 Cx.i)).scale (Cx.cis 3) := by
  have left : (Mat2.of 0 1 1 0 : Mat2 ℝ).Unitary := by
    refine Mat2.unitary_of ?_ ?_ ?_ <;> simp
  have right : (Mat2.of 1 0 0 Cx.i : Mat2 ℝ).Unitary := by
    refine Mat2.unitary_of ?_ ?_ ?_ <;> simp
  exact ⟨left, right, decompose_kron left right 3⟩

end Entangle.Weyl.Product

end
