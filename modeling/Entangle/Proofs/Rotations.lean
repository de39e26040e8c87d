import Mathlib
import Entangle.Euler.Angles
import Entangle.Gate.Matrices
import Entangle.Proofs.Interaction

/-!
# One-qubit rotations and Euler angles

The rotations about one axis are a one-parameter group of special unitary matrices, and a change of
frame that takes one half turn to another takes the rotations along. Every unitary is the product of
rotations by its Euler angles under its phase.
-/

noncomputable section

namespace Entangle

open Matrix Complex

namespace Weyl.Axis

/-- The rotation by an angle about an axis, `exp(-itP/2)` for its Pauli matrix `P`. -/
def rotation (k : Axis) (t : ℝ) : OneQubit :=
  cos (t / 2 : ℂ) • 1 - sin (t / 2 : ℂ) • k.halfTurn

theorem rotation_mul (k : Axis) (s t : ℝ) : k.rotation s * k.rotation t = k.rotation (s + t) := by
  have half : ((s + t : ℝ) : ℂ) / 2 = s / 2 + t / 2 := by
    push_cast
    ring
  simp only [rotation, Matrix.sub_mul, Matrix.mul_sub, Matrix.smul_mul, Matrix.mul_smul, Matrix.one_mul,
    Matrix.mul_one, halfTurn_mul_self, half, Complex.cos_add, Complex.sin_add]
  module

@[simp]
theorem rotation_zero (k : Axis) : k.rotation 0 = 1 := by
  simp [rotation]

theorem rotation_mul_neg (k : Axis) (t : ℝ) : k.rotation t * k.rotation (-t) = 1 := by
  rw [rotation_mul, add_neg_cancel, rotation_zero]

theorem rotation_conjTranspose (k : Axis) (t : ℝ) : (k.rotation t)ᴴ = k.rotation (-t) := by
  have real : starRingEnd ℂ (t / 2) = t / 2 := by rw [map_div₀, Complex.conj_ofReal, map_ofNat]
  rw [rotation, Matrix.conjTranspose_sub, Matrix.conjTranspose_smul, Matrix.conjTranspose_smul,
    Matrix.conjTranspose_one, halfTurn_conjTranspose, rotation, Complex.star_def, ← Complex.cos_conj, ← Complex.sin_conj, real]
  simp [neg_div]

theorem rotation_mem_unitary (k : Axis) (t : ℝ) : k.rotation t ∈ unitaryGroup (Fin 2) ℂ := by
  rw [mem_unitaryGroup_iff, star_eq_conjTranspose, rotation_conjTranspose, rotation_mul_neg]

/-- A frame that takes one half turn to another takes the rotations along. -/
theorem mul_rotation_of_halfTurn {w : OneQubit} {j k : Axis}
    (frame : w * j.halfTurn = k.halfTurn * w) (t : ℝ) : w * j.rotation t = k.rotation t * w := by
  rw [rotation, rotation, Matrix.mul_sub, Matrix.sub_mul, Matrix.mul_smul, Matrix.mul_smul, frame,
    Matrix.smul_mul, Matrix.smul_mul, Matrix.mul_one, Matrix.one_mul]

/-- A frame that reverses a half turn on the way reverses the rotations. -/
theorem mul_rotation_of_reversed {w : OneQubit} {j k : Axis}
    (frame : w * j.halfTurn = -(k.halfTurn * w)) (t : ℝ) : w * j.rotation t = k.rotation (-t) * w := by
  rw [rotation, rotation, Matrix.mul_sub, Matrix.sub_mul, Matrix.mul_smul, Matrix.mul_smul, frame,
    Matrix.smul_mul, Matrix.smul_mul, Matrix.mul_one, Matrix.one_mul, Complex.ofReal_neg, neg_div, Complex.cos_neg,
    Complex.sin_neg, neg_smul, smul_neg]

theorem rotation_z_eq (t : ℝ) : z.rotation t = !![exp (-(t / 2 * I)), 0; 0, exp (t / 2 * I)] := by
  rw [rotation, halfTurn, Matrix.one_fin_two, ← neg_mul, Complex.exp_mul_I, Complex.exp_mul_I,
    Complex.cos_neg, Complex.sin_neg]
  ext i j
  fin_cases i <;> fin_cases j <;> simp
  ring

theorem rotation_x_eq (t : ℝ) :
    x.rotation t = !![cos (t / 2 : ℂ), -(I * sin (t / 2 : ℂ)); -(I * sin (t / 2 : ℂ)), cos (t / 2 : ℂ)] := by
  simp [rotation, halfTurn, Matrix.one_fin_two, mul_comm]

theorem rotation_y_eq (t : ℝ) :
    y.rotation t = !![cos (t / 2 : ℂ), -sin (t / 2 : ℂ); sin (t / 2 : ℂ), cos (t / 2 : ℂ)] := by
  simp [rotation, halfTurn, Matrix.one_fin_two]

/-- The quarter turn about the third axis takes the first axis to the second. -/
theorem rotation_y_eq_turned (t : ℝ) :
    z.rotation (Real.pi / 2) * x.rotation t * z.rotation (-(Real.pi / 2)) = y.rotation t := by
  have quarter : I * exp (-((Real.pi / 2 : ℝ) / 2 * I)) = exp ((Real.pi / 2 : ℝ) / 2 * I) := by
    have sum : exp (Real.pi / 2 * I) * exp (-((Real.pi / 2 : ℝ) / 2 * I)) =
        exp ((Real.pi / 2 : ℝ) / 2 * I) := by
      rw [← Complex.exp_add]
      push_cast
      ring_nf
    rwa [Complex.exp_pi_div_two_mul_I] at sum
  have frame : z.rotation (Real.pi / 2) * x.halfTurn = y.halfTurn * z.rotation (Real.pi / 2) := by
    rw [rotation_z_eq, ← quarter]
    ext i j
    fin_cases i <;> fin_cases j <;> simp [halfTurn]
    · rw [mul_comm]
    · rw [mul_right_comm, Complex.I_mul_I, neg_one_mul]
  rw [mul_rotation_of_halfTurn frame, Matrix.mul_assoc, rotation_mul_neg, Matrix.mul_one]

end Weyl.Axis

namespace Gate

open Weyl (Axis)

@[simp]
theorem toMatrix_rxMatrix (t : ℝ) : (rxMatrix t).toMatrix = Axis.x.rotation t := by
  simp [rxMatrix, Axis.rotation, Axis.halfTurn, Matrix.one_fin_two, Cx.toComplex_mk]

@[simp]
theorem toMatrix_ryMatrix (t : ℝ) : (ryMatrix t).toMatrix = Axis.y.rotation t := by
  simp [ryMatrix, Axis.rotation, Axis.halfTurn, Matrix.one_fin_two, Cx.toComplex_mk]

@[simp]
theorem toMatrix_rzMatrix (t : ℝ) : (rzMatrix t).toMatrix = Axis.z.rotation t := by
  rw [rzMatrix, Mat2.toMatrix_of, Axis.rotation_z_eq]
  simp [neg_div]

theorem rxMatrix_unitary (t : ℝ) : (rxMatrix t).Unitary := by
  rw [Square.Unitary, toMatrix_rxMatrix]
  exact Axis.x.rotation_mem_unitary t

theorem ryMatrix_unitary (t : ℝ) : (ryMatrix t).Unitary := by
  rw [Square.Unitary, toMatrix_ryMatrix]
  exact Axis.y.rotation_mem_unitary t

theorem rzMatrix_unitary (t : ℝ) : (rzMatrix t).Unitary := by
  rw [Square.Unitary, toMatrix_rzMatrix]
  exact Axis.z.rotation_mem_unitary t

end Gate

/-! ## Euler angles -/

namespace Euler

open Weyl (Axis)

/-- The product of rotations about two axes that Euler angles stand for. -/
def Angles.product (a : Angles ℝ) (outer inner : Axis) : OneQubit :=
  exp (a.phase * I) • (outer.rotation a.phi * inner.rotation a.theta * outer.rotation a.lambda)

theorem zyz_entries (phi theta lambda : ℝ) :
    Axis.z.rotation phi * Axis.y.rotation theta * Axis.z.rotation lambda =
      !![exp (-((phi + lambda) / 2 * I)) * cos (theta / 2 : ℂ),
          -(exp (-((phi - lambda) / 2 * I)) * sin (theta / 2 : ℂ));
        exp ((phi - lambda) / 2 * I) * sin (theta / 2 : ℂ),
          exp ((phi + lambda) / 2 * I) * cos (theta / 2 : ℂ)] := by
  have sum : exp ((phi + lambda) / 2 * I) = exp (phi / 2 * I) * exp (lambda / 2 * I) := by
    rw [← Complex.exp_add]
    ring_nf
  have difference : exp ((phi - lambda) / 2 * I) = exp (phi / 2 * I) * exp (-(lambda / 2 * I)) := by
    rw [← Complex.exp_add]
    ring_nf
  have sum' : exp (-((phi + lambda) / 2 * I)) = exp (-(phi / 2 * I)) * exp (-(lambda / 2 * I)) := by
    rw [← Complex.exp_add]
    ring_nf
  have difference' : exp (-((phi - lambda) / 2 * I)) = exp (-(phi / 2 * I)) * exp (lambda / 2 * I) := by
    rw [← Complex.exp_add]
    ring_nf
  rw [Axis.rotation_z_eq, Axis.rotation_z_eq, Axis.rotation_y_eq, sum, difference, sum', difference']
  simp only [Matrix.mul_fin_two, mul_zero, zero_mul, add_zero, zero_add]
  ext i j
  fin_cases i <;> fin_cases j <;> simp <;> ring

theorem entries_of_unitary {u : OneQubit} (unitary : u ∈ unitaryGroup (Fin 2) ℂ) :
    u 0 0 = u.det * star (u 1 1) ∧ u 0 1 = -(u.det * star (u 1 0)) := by
  have inverse : u * star u = 1 := mem_unitaryGroup_iff.mp unitary
  have adjugate : u.adjugate = u.det • star u := by
    rw [← Matrix.mul_one u.adjugate, ← inverse, ← Matrix.mul_assoc, Matrix.adjugate_mul, Matrix.smul_mul,
      Matrix.one_mul]
  rw [Matrix.adjugate_fin_two] at adjugate
  have corner := congrFun (congrFun adjugate 1) 1
  have upper := congrFun (congrFun adjugate 0) 1
  simp [Matrix.star_apply] at corner upper
  exact ⟨corner, by rw [Complex.star_def, ← upper, neg_neg]⟩

/-- The polar angle is that of the moduli in a column. -/
theorem zyz_theta (u : Mat2 ℝ) :
    √(‖(u 0 0).toComplex‖ ^ 2 + ‖(u 1 0).toComplex‖ ^ 2) * Real.cos ((Angles.zyz u).theta / 2) = ‖(u 0 0).toComplex‖ ∧
      √(‖(u 0 0).toComplex‖ ^ 2 + ‖(u 1 0).toComplex‖ ^ 2) * Real.sin ((Angles.zyz u).theta / 2) = ‖(u 1 0).toComplex‖ := by
  set z : ℂ := ⟨‖(u 0 0).toComplex‖, ‖(u 1 0).toComplex‖⟩ with point
  have half : (Angles.zyz u).theta / 2 = z.arg := by
    simp only [Angles.zyz, Exact.atan2_eq, Exact.numeral_eq, Cx.abs_eq]
    rw [mul_div_cancel_left₀ _ two_ne_zero]
  have length : √(‖(u 0 0).toComplex‖ ^ 2 + ‖(u 1 0).toComplex‖ ^ 2) = ‖z‖ := by
    rw [← Real.sqrt_sq (norm_nonneg z), ← Complex.normSq_eq_norm_sq z, Complex.normSq_apply, ← pow_two, ← pow_two]
  rw [half, length]
  exact ⟨Complex.norm_mul_cos_arg z, Complex.norm_mul_sin_arg z⟩

/-- What the Euler angles of a matrix stand for, where its determinant has modulus one: the phases are those of the
last row, and of the determinant. -/
theorem zyz_product_of_det {u : Mat2 ℝ} (unit : ‖u.toMatrix.det‖ = 1) {c s : ℝ}
    (cosine : Real.cos ((Angles.zyz u).theta / 2) = c) (sine : Real.sin ((Angles.zyz u).theta / 2) = s) :
    (Angles.zyz u).product .z .y =
      !![u.toMatrix.det * (c * exp (-((u 1 1).arg * I))), -(u.toMatrix.det * (s * exp (-((u 1 0).arg * I))));
        s * exp ((u 1 0).arg * I), c * exp ((u 1 1).arg * I)] := by
  have det : exp (u.det.arg * I) = u.toMatrix.det := by
    have polar := Complex.norm_mul_exp_arg_mul_I u.det.toComplex
    rwa [← Cx.arg_eq, Mat2.toComplex_det, unit, Complex.ofReal_one, one_mul] at polar
  have cosine' : cos ((Angles.zyz u).theta / 2 : ℂ) = c := by
    rw [← cosine]
    push_cast
    rfl
  have sine' : sin ((Angles.zyz u).theta / 2 : ℂ) = s := by
    rw [← sine]
    push_cast
    rfl
  have phi : (Angles.zyz u).phi = (u 1 1).arg + (u 1 0).arg - u.det.arg := rfl
  have lambda : (Angles.zyz u).lambda = (u 1 1).arg - (u 1 0).arg := rfl
  have phase : (Angles.zyz u).phase = u.det.arg / 2 := rfl
  rw [Angles.product, zyz_entries, cosine', sine', phi, lambda, phase, ← det]
  set a := (u 1 1).arg
  set b := (u 1 0).arg
  set d := u.det.arg
  have e00 : exp ((d / 2 : ℝ) * I) * exp (-(((a + b - d : ℝ) + (a - b : ℝ)) / 2 * I)) =
      exp (d * I) * exp (-(a * I)) := by
    rw [← Complex.exp_add, ← Complex.exp_add]
    push_cast
    ring_nf
  have e01 : exp ((d / 2 : ℝ) * I) * exp (-(((a + b - d : ℝ) - (a - b : ℝ)) / 2 * I)) =
      exp (d * I) * exp (-(b * I)) := by
    rw [← Complex.exp_add, ← Complex.exp_add]
    push_cast
    ring_nf
  have e10 : exp ((d / 2 : ℝ) * I) * exp (((a + b - d : ℝ) - (a - b : ℝ)) / 2 * I) = exp (b * I) := by
    rw [← Complex.exp_add]
    push_cast
    ring_nf
  have e11 : exp ((d / 2 : ℝ) * I) * exp (((a + b - d : ℝ) + (a - b : ℝ)) / 2 * I) = exp (a * I) := by
    rw [← Complex.exp_add]
    push_cast
    ring_nf
  ext i j
  fin_cases i <;> fin_cases j
  · change exp ((d / 2 : ℝ) * I) * (exp _ * _) = exp (d * I) * (c * exp (-(a * I)))
    rw [← mul_assoc, e00]
    ring
  · change exp ((d / 2 : ℝ) * I) * -(exp _ * _) = -(exp (d * I) * (s * exp (-(b * I))))
    rw [mul_neg, ← mul_assoc, e01]
    ring
  · change exp ((d / 2 : ℝ) * I) * (exp _ * _) = s * exp (b * I)
    rw [← mul_assoc, e10, mul_comm]
  · change exp ((d / 2 : ℝ) * I) * (exp _ * _) = c * exp (a * I)
    rw [← mul_assoc, e11, mul_comm]

theorem norm_mul_exp_arg (z : Cx ℝ) : (‖z.toComplex‖ : ℂ) * exp (z.arg * I) = z.toComplex := by
  rw [Cx.arg_eq, Complex.norm_mul_exp_arg_mul_I]

theorem norm_mul_exp_neg_arg (z : Cx ℝ) : (‖z.toComplex‖ : ℂ) * exp (-(z.arg * I)) = star z.toComplex := by
  rw [← norm_mul_exp_arg z, Complex.star_def, map_mul, ← Complex.exp_conj, map_mul, Complex.conj_ofReal,
    Complex.conj_ofReal, Complex.conj_I, norm_mul_exp_arg, mul_neg]

/-- The Euler angles of a unitary give it back. -/
theorem zyz_product {u : Mat2 ℝ} (unitary : u.Unitary) :
    (Angles.zyz u).product .z .y = u.toMatrix := by
  obtain ⟨corner, upper⟩ := entries_of_unitary unitary
  have unit := norm_det_of_unitary unitary
  have column : ‖(u 0 0).toComplex‖ ^ 2 + ‖(u 1 0).toComplex‖ ^ 2 = 1 := sum_normSq_column unitary
  have same : ‖(u 0 0).toComplex‖ = ‖(u 1 1).toComplex‖ := by
    have modulus := congrArg norm corner
    rwa [norm_mul, unit, one_mul, norm_star] at modulus
  obtain ⟨cosine, sine⟩ := zyz_theta u
  rw [column, Real.sqrt_one, one_mul] at cosine sine
  rw [zyz_product_of_det unit (cosine.trans same) sine, norm_mul_exp_arg, norm_mul_exp_arg, norm_mul_exp_neg_arg,
    norm_mul_exp_neg_arg, ← Square.toMatrix_apply, ← Square.toMatrix_apply, ← corner, ← upper]
  exact (Matrix.eta_fin_two _).symm

/-- Rotations in a rotated frame are rotations about the axes of that frame. -/
theorem product_of_frame {w : Mat2 ℝ} {k j : Axis} (frame : w.Unitary)
    (outer : w.toMatrix * Axis.z.halfTurn = k.halfTurn * w.toMatrix)
    (inner : w.toMatrix * Axis.y.halfTurn = j.halfTurn * w.toMatrix) (a : Angles ℝ) :
    a.product k j = w.toMatrix * a.product .z .y * w.toMatrixᴴ := by
  have inverse : w.toMatrix * w.toMatrixᴴ = 1 := mem_unitaryGroup_iff.mp frame
  have turned : a.product k j * w.toMatrix = w.toMatrix * a.product .z .y := by
    rw [Angles.product, Angles.product, Matrix.smul_mul, Matrix.mul_smul]
    congr 1
    rw [Matrix.mul_assoc, ← Axis.mul_rotation_of_halfTurn outer, ← Matrix.mul_assoc,
      Matrix.mul_assoc _ _ w.toMatrix, ← Axis.mul_rotation_of_halfTurn inner, ← Matrix.mul_assoc,
      ← Axis.mul_rotation_of_halfTurn outer]
    simp only [Matrix.mul_assoc]
  rw [← turned, Matrix.mul_assoc, inverse, Matrix.mul_one]

/-- Angles found in a rotated frame give a unitary back in that frame. -/
theorem zyz_product_in_frame {u w : Mat2 ℝ} (unitary : u.Unitary) (frame : w.Unitary) :
    w.toMatrix * (Angles.zyz (w.dagger * u * w)).product .z .y * w.toMatrixᴴ = u.toMatrix := by
  have inverse : w.toMatrix * w.toMatrixᴴ = 1 := mem_unitaryGroup_iff.mp frame
  rw [zyz_product (Mat2.unitary_mul (Mat2.unitary_mul (Mat2.unitary_dagger frame) unitary) frame), Mat2.toMatrix_mul,
    Mat2.toMatrix_mul, Square.toMatrix_dagger, Matrix.mul_assoc, Matrix.mul_assoc, inverse, Matrix.mul_one, ← Matrix.mul_assoc,
    inverse, Matrix.one_mul]

theorem sqrtHalf_mul_self : (Scalar.sqrtHalf : ℝ) * Scalar.sqrtHalf = 1 / 2 := by
  rw [Scalar.sqrtHalf, Exact.sqrt_eq, Exact.one_eq, Exact.numeral_eq]
  exact Real.mul_self_sqrt (by norm_num)

theorem ofReal_sqrtHalf_mul_self : ((Scalar.sqrtHalf : ℝ) : ℂ) * (Scalar.sqrtHalf : ℝ) = 1 / 2 := by
  rw [← Complex.ofReal_mul, sqrtHalf_mul_self]
  norm_num

theorem quarterTurnY_unitary : (quarterTurnY : Mat2 ℝ).Unitary := by
  rw [Square.Unitary, mem_unitaryGroup_iff, quarterTurnY, Mat2.toMatrix_of]
  ext i j
  fin_cases i <;> fin_cases j <;> simp [Cx.toComplex_mk, Matrix.mul_apply] <;> rw [ofReal_sqrtHalf_mul_self] <;> norm_num

/-- The frame of the first convention about `X`. -/
theorem xyx_frame (u : Mat2 ℝ) : (Angles.xyx u).product .x .y = (quarterTurnY : Mat2 ℝ).toMatrix *
    (Angles.zyz (quarterTurnY.dagger * u * quarterTurnY)).product .z .y * (quarterTurnY : Mat2 ℝ).toMatrixᴴ := by
  refine product_of_frame quarterTurnY_unitary ?_ ?_ _ <;>
  · rw [quarterTurnY, Mat2.toMatrix_of]
    ext i j
    fin_cases i <;> fin_cases j <;> simp [Cx.toComplex_mk, Axis.halfTurn, mul_comm]

theorem xyx_product {u : Mat2 ℝ} (unitary : u.Unitary) : (Angles.xyx u).product .x .y = u.toMatrix :=
  (xyx_frame u).trans (zyz_product_in_frame unitary quarterTurnY_unitary)

theorem cyclicTurn_unitary : (cyclicTurn : Mat2 ℝ).Unitary := by
  have two : starRingEnd ℂ 2 = 2 := map_ofNat _ 2
  rw [Square.Unitary, mem_unitaryGroup_iff, cyclicTurn, Mat2.toMatrix_of]
  ext i j
  fin_cases i <;> fin_cases j <;> simp [Cx.toComplex_mk, Matrix.mul_apply] <;> ring_nf <;>
    norm_num [two]

/-- The frame of the second convention about `X`. -/
theorem xzx_frame (u : Mat2 ℝ) : (Angles.xzx u).product .x .z = (cyclicTurn : Mat2 ℝ).toMatrix *
    (Angles.zyz (cyclicTurn.dagger * u * cyclicTurn)).product .z .y * (cyclicTurn : Mat2 ℝ).toMatrixᴴ := by
  refine product_of_frame cyclicTurn_unitary ?_ ?_ _ <;>
  · rw [cyclicTurn, Mat2.toMatrix_of]
    ext i j
    fin_cases i <;> fin_cases j <;> simp [Cx.toComplex_mk, Axis.halfTurn]
    all_goals ring_nf
    all_goals rw [Complex.I_sq]
    all_goals ring

theorem xzx_product {u : Mat2 ℝ} (unitary : u.Unitary) : (Angles.xzx u).product .x .z = u.toMatrix :=
  (xzx_frame u).trans (zyz_product_in_frame unitary cyclicTurn_unitary)

/-- A quarter turn on either side exchanges the inner axes. -/
theorem zxz_eq_zyz (u : Mat2 ℝ) : (Angles.zxz u).product .z .x = (Angles.zyz u).product .z .y := by
  have parts : Angles.zxz u = { Angles.zyz u with
      phi := (Angles.zyz u).phi + Real.pi / 2, lambda := -(Real.pi / 2) + (Angles.zyz u).lambda } := by
    rw [Angles.zxz, Exact.halfPi_eq, sub_eq_add_neg, add_comm (-_)]
  rw [parts, Angles.product, Angles.product]
  dsimp only
  rw [← Axis.rotation_y_eq_turned, ← Axis.rotation_mul, ← Axis.rotation_mul]
  simp only [Matrix.mul_assoc]

theorem zxz_product {u : Mat2 ℝ} (unitary : u.Unitary) : (Angles.zxz u).product .z .x = u.toMatrix :=
  (zxz_eq_zyz u).trans (zyz_product unitary)

end Euler

end Entangle

end
