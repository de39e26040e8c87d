import Mathlib
import Entangle.Proofs.Emission

/-!
# Conventions for Euler angles

Every gate set has a convention by which three angles and a phase make a unitary: three rotations about two axes, the
gate with three angles, or two quarter turns about the first axis between phases. The angles of a unitary make it again
in the convention of the gate set that they were asked for, and the polar angle is between zero and a half turn. All
conventions go back to the rotations about the third and the second axis.
-/

noncomputable section

namespace Entangle

open Matrix Complex

/-! ## Quarter turns -/

namespace Weyl.Axis

/-- Two quarter turns about the first axis turn a rotation about the third axis to the second. -/
theorem quarter_rotation_quarter (t : ℝ) :
    x.rotation (Real.pi / 2) * z.rotation (t - Real.pi) * x.rotation (Real.pi / 2) =
      z.rotation (-Real.pi) * y.rotation t := by
  have square : exp ((Real.pi / 4 : ℝ) * I) * exp ((Real.pi / 4 : ℝ) * I) = I := by
    have angle : ((Real.pi / 4 : ℝ) * I + (Real.pi / 4 : ℝ) * I : ℂ) = Real.pi / 2 * I := by
      push_cast
      ring
    rw [← Complex.exp_add, angle, Complex.exp_pi_div_two_mul_I]
  have turned := Gate.sx_rotation_sx t
  rw [Gate.toMatrix_sxMatrix, Matrix.smul_mul, Matrix.smul_mul, Matrix.mul_smul, smul_smul, square] at turned
  exact smul_right_injective _ Complex.I_ne_zero turned

/-- A whole turn is a change of sign. -/
theorem rotation_add_pi (k : Weyl.Axis) (t : ℝ) :
    k.rotation (t + Real.pi) = exp (Real.pi * I) • k.rotation (t - Real.pi) := by
  have whole := k.exp_smul_rotation (t + Real.pi) 1
  have angle : t + Real.pi - 2 * Real.pi = t - Real.pi := by ring
  rw [Int.cast_one, mul_one, mul_one, angle] at whole
  exact whole.symm

end Weyl.Axis

namespace Euler

open Gate (phaseMatrix rxMatrix ryMatrix rzMatrix u3Matrix)
open Weyl (Axis)

/-- Two quarter turns between phases. -/
def rootWord (theta phi lambda : ℝ) : Mat2 ℝ :=
  phaseMatrix (phi + Real.pi) * rxMatrix (Real.pi / 2) * phaseMatrix (theta + Real.pi) * rxMatrix (Real.pi / 2) *
    phaseMatrix lambda

/-- They are three rotations, under half the sum of the angles. -/
theorem toMatrix_rootWord (theta phi lambda : ℝ) :
    (rootWord theta phi lambda).toMatrix = exp (((theta + phi + lambda) / 2 : ℝ) * I) •
      (Axis.z.rotation phi * Axis.y.rotation theta * Axis.z.rotation lambda) := by
  have back : Axis.z.rotation (phi + Real.pi) * Axis.z.rotation (-Real.pi) = Axis.z.rotation phi := by
    rw [Axis.rotation_mul, add_neg_cancel_right]
  have phases : exp (((phi + Real.pi) / 2 : ℝ) * I) * exp (((theta + Real.pi) / 2 : ℝ) * I) * exp ((lambda / 2 : ℝ) * I) *
      exp (Real.pi * I) = exp (((theta + phi + lambda) / 2 : ℝ) * I) := by
    have angle : ((phi + Real.pi) / 2 : ℝ) * I + ((theta + Real.pi) / 2 : ℝ) * I + (lambda / 2 : ℝ) * I + Real.pi * I =
        ((theta + phi + lambda) / 2 : ℝ) * I + 2 * Real.pi * I := by
      push_cast
      ring
    rw [← Complex.exp_add, ← Complex.exp_add, ← Complex.exp_add, angle, Complex.exp_add, Complex.exp_two_pi_mul_I,
      mul_one]
  calc
    _ = (exp (((phi + Real.pi) / 2 : ℝ) * I) * exp (((theta + Real.pi) / 2 : ℝ) * I) * exp ((lambda / 2 : ℝ) * I) *
          exp (Real.pi * I)) •
        (Axis.z.rotation (phi + Real.pi) * (Axis.x.rotation (Real.pi / 2) * Axis.z.rotation (theta - Real.pi) *
          Axis.x.rotation (Real.pi / 2)) * Axis.z.rotation lambda) := by
      -- a whole turn takes the angle between the quarter turns to the one that they turn to the second axis
      rw [rootWord]
      simp only [Mat2.toMatrix_mul, Gate.toMatrix_phaseMatrix, Gate.toMatrix_rxMatrix, Axis.rotation_add_pi .z theta,
        Matrix.smul_mul, Matrix.mul_smul, smul_smul, Matrix.mul_assoc]
      ring_nf
    _ = _ := by rw [phases, Axis.quarter_rotation_quarter, ← Matrix.mul_assoc, back]

/-- They make the unitary of Euler angles under the phase that the convention takes off. -/
theorem root_product (a : Angles ℝ) :
    exp ((a.phase - (a.theta + a.phi + a.lambda) / 2 : ℝ) * I) • (rootWord a.theta a.phi a.lambda).toMatrix =
      a.product .z .y := by
  rw [toMatrix_rootWord, Angles.product, smul_smul, ← Complex.exp_add]
  push_cast
  ring_nf

/-! ## Conventions -/

/-- What three angles make in the convention of a gate set, up to a phase. -/
def Basis.word (theta phi lambda : ℝ) : Basis → Mat2 ℝ
  | .zyz | .rr => rzMatrix phi * ryMatrix theta * rzMatrix lambda
  | .zxz => rzMatrix phi * rxMatrix theta * rzMatrix lambda
  | .xyx => rxMatrix phi * ryMatrix theta * rxMatrix lambda
  | .xzx => rxMatrix phi * rzMatrix theta * rxMatrix lambda
  | .u3 | .u321 | .u => u3Matrix theta phi lambda
  | .psx | .zsx | .zsxx | .u1x => rootWord theta phi lambda

/-- The unitary that Euler angles make in the convention of a gate set. -/
def Angles.rebuilt (a : Angles ℝ) (basis : Basis) : Mat2 ℝ := (basis.word a.theta a.phi a.lambda).scale (Cx.cis a.phase)

theorem toMatrix_rebuilt (a : Angles ℝ) (basis : Basis) :
    (a.rebuilt basis).toMatrix = exp (a.phase * I) • (basis.word a.theta a.phi a.lambda).toMatrix := by
  rw [Angles.rebuilt, Square.toMatrix_scale, Cx.toComplex_cis]

/-- The polar angle is between zero and a half turn. -/
theorem zyz_theta_mem (u : Mat2 ℝ) : 0 ≤ (Angles.zyz u).theta ∧ (Angles.zyz u).theta ≤ Real.pi := by
  set z : ℂ := ⟨(u 0 0).abs, (u 1 0).abs⟩ with point
  have first : 0 ≤ z.re := (norm_nonneg _).trans_eq (Cx.abs_eq _).symm
  have second : 0 ≤ z.im := (norm_nonneg _).trans_eq (Cx.abs_eq _).symm
  have value : (Angles.zyz u).theta = 2 * z.arg := by
    simp only [Angles.zyz, Exact.atan2_eq, Exact.numeral_eq, point]
  have low : 0 ≤ z.arg := Complex.arg_nonneg_iff.mpr second
  have high : z.arg ≤ Real.pi / 2 := Complex.arg_le_pi_div_two_iff.mpr (.inl first)
  rw [value]
  constructor <;> linarith

theorem inBasis_theta_mem (u : Mat2 ℝ) (basis : Basis) :
    0 ≤ (Angles.inBasis u basis).theta ∧ (Angles.inBasis u basis).theta ≤ Real.pi := by
  cases basis with
  | xyx => exact zyz_theta_mem (quarterTurnY.dagger * u * quarterTurnY)
  | xzx => exact zyz_theta_mem (cyclicTurn.dagger * u * cyclicTurn)
  | _ => exact zyz_theta_mem u

/-- The angles of a unitary make it again. -/
theorem inBasis_rebuilt {u : Mat2 ℝ} (unitary : u.Unitary) (basis : Basis) :
    (Angles.inBasis u basis).rebuilt basis = u := by
  apply Square.toMatrix_injective
  rw [toMatrix_rebuilt]
  cases basis with
  | zyz | rr =>
    simp only [Basis.word, Mat2.toMatrix_mul, Gate.toMatrix_rzMatrix, Gate.toMatrix_ryMatrix]
    exact zyz_product unitary
  | zxz =>
    simp only [Basis.word, Mat2.toMatrix_mul, Gate.toMatrix_rzMatrix, Gate.toMatrix_rxMatrix]
    exact zxz_product unitary
  | xyx =>
    simp only [Basis.word, Mat2.toMatrix_mul, Gate.toMatrix_rxMatrix, Gate.toMatrix_ryMatrix]
    exact xyx_product unitary
  | xzx =>
    simp only [Basis.word, Mat2.toMatrix_mul, Gate.toMatrix_rxMatrix, Gate.toMatrix_rzMatrix]
    exact xzx_product unitary
  | u3 | u321 | u => exact (u3_product (Angles.zyz u)).trans (zyz_product unitary)
  | psx | zsx | zsxx | u1x => exact (root_product (Angles.zyz u)).trans (zyz_product unitary)

/-- The angles of a unitary make it again in the convention of every gate set, with a polar angle between zero and a
half turn. -/
theorem ofUnitary_rebuilds {u : Mat2 ℝ} (unitary : u.Unitary) (basis : Basis) :
    ∃ a, Angles.ofUnitary u basis = .ok a ∧ 0 ≤ a.theta ∧ a.theta ≤ Real.pi ∧ a.rebuilt basis = u := by
  obtain ⟨low, high⟩ := inBasis_theta_mem u basis
  exact ⟨_, if_pos (Square.isFinite_eq u), low, high, inBasis_rebuilt unitary basis⟩

/-- The angles of the bit flip, whose diagonal gives no argument. -/
def flipAngles : Angles ℝ := ⟨Real.pi, -Real.pi, 0, Real.pi / 2⟩

theorem inBasis_flip : Angles.inBasis Gate.xMatrix .zsx = flipAngles := by
  have det : (Gate.xMatrix : Mat2 ℝ).det.arg = Real.pi := by
    rw [Cx.arg_eq, Mat2.toComplex_det, Gate.xMatrix, Mat2.toMatrix_of, Matrix.det_fin_two_of]
    simp
  have up : (Gate.xMatrix : Mat2 ℝ) 0 0 = 0 := rfl
  have across : (Gate.xMatrix : Mat2 ℝ) 1 0 = 1 := rfl
  have down : (Gate.xMatrix : Mat2 ℝ) 1 1 = 0 := rfl
  have polar : 2 * Complex.arg ⟨0, 1⟩ = Real.pi := by
    change 2 * I.arg = Real.pi
    rw [Complex.arg_I]
    ring
  simp [Angles.inBasis, Angles.zyz, flipAngles, det, up, across, down, Cx.abs_eq, Cx.arg_eq, Exact.atan2_eq, polar]

theorem ofUnitary_rebuilds_flip :
    Angles.ofUnitary Gate.xMatrix .zsx = .ok flipAngles ∧ flipAngles.theta ≤ Real.pi ∧
      flipAngles.rebuilt .zsx = Gate.xMatrix := by
  obtain ⟨a, found, -, high, rebuilt⟩ := ofUnitary_rebuilds Gate.xMatrix_unitary .zsx
  have value : Angles.ofUnitary Gate.xMatrix .zsx = .ok flipAngles := by
    rw [Angles.ofUnitary, if_pos (Square.isFinite_eq _), inBasis_flip]
  obtain rfl := Except.ok.inj (found.symm.trans value)
  exact ⟨value, high, rebuilt⟩

end Euler

end Entangle

end
