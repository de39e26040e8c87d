import Mathlib
import Entangle.Synthesis.Decomposer
import Entangle.Proofs.Commutants

/-!
# The fixed factors around an entangling gate

An entangling gate with interaction angles `(π/4, b, 0)` stands between fixed one-qubit factors that
depend on `b` alone. The factors around its first use form a frame in which rotations about the third
axis on the two qubits become interactions about the first and the second axis. The factors around
two further uses close that frame again and leave room for an interaction about the third axis.
-/

noncomputable section

namespace Entangle.Synthesis.FixedFactor

open Matrix Complex
open Weyl (Axis angles coupling coupling_eq_couple coupling_eq_cross coupling_mul coupling_neg_mul cross)

/-- `√(1/2)` as a complex number. -/
def root : ℂ := (Scalar.sqrtHalf : ℝ)

theorem ofReal_sqrtHalf : ((Scalar.sqrtHalf : ℝ) : ℂ) = root := rfl

theorem root_mul_root : root * root = 1 / 2 := Euler.ofReal_sqrtHalf_mul_self

theorem conj_root : starRingEnd ℂ root = root := Complex.conj_ofReal _

theorem cos_quarter_pi : cos (Real.pi / 4 : ℂ) = root := by
  have value : Real.cos (Real.pi / 4) = Scalar.sqrtHalf := by
    rw [Real.cos_pi_div_four, Scalar.sqrtHalf, Exact.sqrt_eq, Exact.one_eq, Exact.numeral_eq,
      Real.sqrt_div zero_le_one, Real.sqrt_one, Real.sqrt_div_self']
  rw [root, ← value]
  push_cast
  rfl

theorem sin_quarter_pi : sin (Real.pi / 4 : ℂ) = root := by
  have complement : (Real.pi / 4 : ℂ) = Real.pi / 2 - Real.pi / 4 := by ring
  rw [complement, Complex.sin_pi_div_two_sub, cos_quarter_pi]

theorem exp_mul_exp_neg (b : ℝ) : exp (b * I) * exp (-(b * I)) = 1 := by
  rw [← Complex.exp_add, add_neg_cancel, Complex.exp_zero]

theorem exp_double (z : ℂ) : exp (2 * z) = exp z ^ 2 := by
  rw [← Complex.exp_nat_mul, Nat.cast_ofNat]

/-- The interaction of the entangling gate. -/
def entangler (b : ℝ) : TwoQubit := coupling (angles (Real.pi / 4) b 0)

/-- Its entries, by the exponentials of the second angle. -/
theorem entangler_eq (b : ℝ) :
    entangler b = cross (root * ((1 - I) * exp (b * I) + (1 + I) * exp (-(b * I))) / 2)
      (root * ((I - 1) * exp (b * I) + (I + 1) * exp (-(b * I))) / 2)
      (root * ((1 + I) * exp (b * I) + (1 - I) * exp (-(b * I))) / 2)
      (root * ((I + 1) * exp (b * I) + (I - 1) * exp (-(b * I))) / 2) := by
  have square : I * I = -1 := Complex.I_mul_I
  rw [entangler, coupling_eq_cross]
  simp only [angles, Complex.ofReal_zero, zero_mul, neg_zero, Complex.exp_zero, one_mul, mul_one,
    Complex.ofReal_div, Complex.ofReal_ofNat, Complex.cos_sub, Complex.sin_sub, Complex.cos_add, Complex.sin_add,
    cos_quarter_pi, sin_quarter_pi]
  rw [Complex.cos, Complex.sin, neg_mul]
  congr 1 <;> grind

/-! ## Rotations that become interactions -/

section Frames

variable {w : TwoQubit} {j k : Axis}

/-- A frame that takes a half turn on the low qubit to a pair takes the rotations to interactions. -/
theorem rotation_right_mul (moves : tensor 1 j.halfTurn * w = w * (I • k.pair)) (t : ℝ) :
    tensor 1 (j.rotation (2 * t)) * w = w * k.couple t := by
  have whole : ((2 * t : ℝ) : ℂ) / 2 = t := by
    push_cast
    ring
  rw [Axis.rotation, whole, tensor_sub_right, tensor_smul_right, tensor_smul_right, tensor_one_one, Matrix.sub_mul,
    Matrix.smul_mul, Matrix.smul_mul, moves, Axis.couple, Matrix.mul_sub, Matrix.mul_smul, Matrix.mul_smul,
    Matrix.mul_smul, Matrix.one_mul, Matrix.mul_one, smul_smul, mul_comm I]

/-- On the high qubit, with the sense reversed. -/
theorem rotation_left_mul (moves : -tensor j.halfTurn 1 * w = w * (I • k.pair)) (t : ℝ) :
    tensor (j.rotation (-(2 * t))) 1 * w = w * k.couple t := by
  have whole : ((-(2 * t) : ℝ) : ℂ) / 2 = -t := by
    push_cast
    ring
  rw [Axis.rotation, whole, Complex.cos_neg, Complex.sin_neg, tensor_sub_left, tensor_smul_left, tensor_smul_left,
    tensor_one_one, Matrix.sub_mul, neg_smul, ← smul_neg, Matrix.smul_mul, Matrix.smul_mul, moves, Axis.couple,
    Matrix.mul_sub, Matrix.mul_smul, Matrix.mul_smul, Matrix.mul_smul, Matrix.one_mul, Matrix.mul_one, smul_smul,
    mul_comm I]

end Frames

/-! ## The frame of the first use -/

/-- The first use of the gate between its fixed factors. -/
def opening (b : ℝ) : TwoQubit :=
  tensor (k11l b).toMatrix (k11r b).toMatrix * entangler b *
    tensor (k12l : Mat2 ℝ).toMatrix (k12r : Mat2 ℝ).toMatrix

theorem k11_mul_entangler (b : ℝ) :
    tensor (k11l b).toMatrix (k11r b).toMatrix * entangler b =
      diagonal ![exp (-(b * I)) / 2, exp (-(b * I)) / 2, exp (-(b * I)) / 2, exp (b * I) ^ 3 / 2] *
        !![-I, I, I, I; -I, I, -I, -I; 1, 1, -1, 1; -1, -1, -1, 1] := by
  have half_root := root_mul_root
  have inverse := exp_mul_exp_neg b
  have square : I * I = -1 := Complex.I_mul_I
  rw [entangler_eq, cross, ← Matrix.ext_iff]
  simp only [k11l, k11r, Mat2.toMatrix_of, Matrix.mul_apply, Fin.sum_univ_four, Fin.forall_fin_succ]
  simp [minusI, half, Cx.toComplex_mk, ofReal_sqrtHalf]
  norm_num
  generalize exp (b * I) = e, exp (-(b * I)) = f, I = i, root = h at *
  refine ⟨?_, ?_, ?_, ?_⟩ <;> (refine ⟨?_, ?_, ?_, ?_⟩) <;> grind

/-- The frame has two entries of one size in each row. -/
theorem opening_eq (b : ℝ) :
    opening b = diagonal ![exp (-(b * I)), exp (-(b * I)), exp (-(b * I)), exp (b * I) ^ 3] *
      root • !![1, 0, 0, 1; 0, 1, 1, 0; 0, 1, -1, 0; 1, 0, 0, -1] := by
  have square : I * I = -1 := Complex.I_mul_I
  have turned : !![-I, I, I, I; -I, I, -I, -I; 1, 1, -1, 1; -1, -1, -1, 1] *
      tensor (k12l : Mat2 ℝ).toMatrix (k12r : Mat2 ℝ).toMatrix =
      (2 : ℂ) • root • !![1, 0, 0, 1; 0, 1, 1, 0; 0, 1, -1, 0; 1, 0, 0, -1] := by
    rw [← Matrix.ext_iff]
    simp only [k12l, k12r, Mat2.toMatrix_of, Matrix.mul_apply, Fin.sum_univ_four, Fin.forall_fin_succ]
    simp [Cx.toComplex_mk, ofReal_sqrtHalf]
    norm_num
    generalize I = i, root = h at *
    refine ⟨?_, ?_, ?_, ?_⟩ <;> (refine ⟨?_, ?_, ?_, ?_⟩) <;> grind
  have halves :
      (2 : ℂ) • diagonal ![exp (-(b * I)) / 2, exp (-(b * I)) / 2, exp (-(b * I)) / 2, exp (b * I) ^ 3 / 2] =
      diagonal ![exp (-(b * I)), exp (-(b * I)), exp (-(b * I)), exp (b * I) ^ 3] := by
    rw [← Matrix.diagonal_smul]
    congr 1
    funext k
    fin_cases k <;> simp <;> ring
  rw [opening, k11_mul_entangler, Matrix.mul_assoc, turned, Matrix.mul_smul, ← Matrix.smul_mul, halves]

theorem opening_unitary (b : ℝ) : (opening b)ᴴ * opening b = 1 := by
  have half_root := root_mul_root
  have inverse := exp_mul_exp_neg b
  rw [opening_eq, ← Matrix.ext_iff]
  simp only [Matrix.mul_apply, Fin.sum_univ_four, Fin.forall_fin_succ]
  simp [← Complex.exp_conj, conj_root]
  grind

/-- A half turn about the third axis on the high qubit becomes a pair about the first axis. -/
theorem left_mul_opening (b : ℝ) :
    -tensor Axis.z.halfTurn 1 * opening b = opening b * (I • Axis.x.pair) := by
  rw [opening_eq, Axis.pair, Axis.halfTurn, Axis.halfTurn, Matrix.one_fin_two, ← Matrix.ext_iff]
  simp only [Matrix.mul_apply, Fin.sum_univ_four, Fin.forall_fin_succ]
  simp
  ring_nf
  simp

/-- On the low qubit, it becomes a pair about the second axis. -/
theorem right_mul_opening (b : ℝ) :
    tensor 1 Axis.z.halfTurn * opening b = opening b * (I • Axis.y.pair) := by
  rw [opening_eq, Axis.pair, Axis.halfTurn, Axis.halfTurn, Matrix.one_fin_two, ← Matrix.ext_iff]
  simp only [Matrix.mul_apply, Fin.sum_univ_four, Fin.forall_fin_succ]
  simp
  ring_nf
  simp

/-! ## The frames of the further uses -/

theorem toMatrix_k32lk21l (b : ℝ) :
    (k32lk21l b).toMatrix =
      root • !![1 + I * (exp (b * I) ^ 2 + exp (-(b * I)) ^ 2) / 2, (exp (b * I) ^ 2 - exp (-(b * I)) ^ 2) / 2;
        (exp (b * I) ^ 2 - exp (-(b * I)) ^ 2) / 2, 1 - I * (exp (b * I) ^ 2 + exp (-(b * I)) ^ 2) / 2] := by
  have square : I * I = -1 := Complex.I_mul_I
  rw [← exp_double, ← exp_double, ← mul_assoc, mul_neg, ← mul_assoc]
  simp [k32lk21l, half, Cx.toComplex_mk, ofReal_sqrtHalf, Complex.cos, Complex.sin]
  grind

theorem rotation_y_gate (b : ℝ) :
    Axis.y.rotation (-(2 * b)) =
      !![(exp (b * I) + exp (-(b * I))) / 2, -I * (exp (b * I) - exp (-(b * I))) / 2;
        I * (exp (b * I) - exp (-(b * I))) / 2, (exp (b * I) + exp (-(b * I))) / 2] := by
  have whole : ((-(2 * b) : ℝ) : ℂ) / 2 = -b := by
    push_cast
    ring
  rw [Axis.rotation_y_eq, whole, Complex.cos_neg, Complex.sin_neg, neg_neg, Complex.cos, Complex.sin, neg_mul]
  congr 1
  ext i j
  fin_cases i <;> fin_cases j <;> simp <;> ring

theorem k32r_mul_k21r (b : ℝ) :
    (k32r b).toMatrix * (k21r b).toMatrix = Axis.y.rotation (-(2 * b)) := by
  have inverse := exp_mul_exp_neg b
  have square : I * I = -1 := Complex.I_mul_I
  rw [rotation_y_gate, k32r, k21r, Mat2.toMatrix_of, Mat2.toMatrix_of, Matrix.mul_fin_two]
  simp [minusI, Cx.toComplex_mk, mul_assoc, ← mul_neg, exp_double]
  norm_num
  refine ⟨⟨?_, ?_⟩, ?_, ?_⟩ <;> grind

theorem k21r_mul_halfTurn (b : ℝ) :
    (k21r b).toMatrix * Axis.y.halfTurn = -(Axis.z.halfTurn * (k21r b).toMatrix) := by
  have square : I * I = -1 := Complex.I_mul_I
  rw [k21r, Mat2.toMatrix_of, Axis.halfTurn, Axis.halfTurn, Matrix.mul_fin_two, Matrix.mul_fin_two]
  simp [minusI, Cx.toComplex_mk]
  grind

/-- A rotation between the low factors of the last two uses is one about the second axis. -/
theorem k32r_rotation_k21r (b t : ℝ) :
    (k32r b).toMatrix * Axis.z.rotation (-t) * (k21r b).toMatrix =
      Axis.y.rotation (-(2 * b)) * Axis.y.rotation t := by
  rw [Matrix.mul_assoc, ← Axis.mul_rotation_of_reversed (k21r_mul_halfTurn b), ← Matrix.mul_assoc, k32r_mul_k21r]

theorem k31_mul_entangler (b : ℝ) :
    tensor (k31l b).toMatrix (k31r b).toMatrix * entangler b * tensor 1 (Axis.y.rotation (-(2 * b))) =
      diagonal ![exp (-(b * I)) / 4, exp (-(b * I)) / 4, exp (b * I) ^ 3 / 4, exp (-(b * I)) / 4] *
        !![(I - 1) * exp (-(b * I)) + (1 + I) * exp (b * I), -(1 + I) * exp (-(b * I)) + (I - 1) * exp (b * I),
            (1 + I) * exp (-(b * I)) + (I - 1) * exp (b * I), (I - 1) * exp (-(b * I)) - (1 + I) * exp (b * I);
          (1 - I) * exp (-(b * I)) + (1 + I) * exp (b * I), -(1 + I) * exp (-(b * I)) + (1 - I) * exp (b * I),
            (1 + I) * exp (-(b * I)) + (1 - I) * exp (b * I), (1 - I) * exp (-(b * I)) - (1 + I) * exp (b * I);
          (1 - I) * exp (-(b * I)) - (1 + I) * exp (b * I), -(1 + I) * exp (-(b * I)) + (I - 1) * exp (b * I),
            (1 + I) * exp (-(b * I)) + (I - 1) * exp (b * I), (1 - I) * exp (-(b * I)) + (1 + I) * exp (b * I);
          (1 - I) * exp (-(b * I)) + (1 + I) * exp (b * I), (1 + I) * exp (-(b * I)) + (I - 1) * exp (b * I),
            -(1 + I) * exp (-(b * I)) + (I - 1) * exp (b * I),
            (1 - I) * exp (-(b * I)) - (1 + I) * exp (b * I)] := by
  have half_root := root_mul_root
  have inverse := exp_mul_exp_neg b
  have square : I * I = -1 := Complex.I_mul_I
  rw [entangler_eq, rotation_y_gate, Matrix.one_fin_two, cross, ← Matrix.ext_iff]
  simp only [k31l, k31r, Mat2.toMatrix_of, Matrix.mul_apply, Fin.sum_univ_four, Fin.forall_fin_succ]
  simp [minusI, half, Cx.toComplex_mk, ofReal_sqrtHalf]
  generalize exp (b * I) = e, exp (-(b * I)) = f, I = i, root = h at *
  refine ⟨?_, ?_, ?_, ?_⟩ <;> (refine ⟨?_, ?_, ?_, ?_⟩) <;> grind

theorem last_uses_eq (b : ℝ) :
    tensor (k31l b).toMatrix (k31r b).toMatrix * entangler b * tensor 1 (Axis.y.rotation (-(2 * b))) *
        tensor (k32lk21l b).toMatrix 1 * entangler b =
      !![-exp (-(b * I)) ^ 3 / 2, -exp (b * I) / 2, exp (-(b * I)) ^ 3 / 2, -exp (b * I) / 2;
        exp (b * I) / 2, exp (b * I) / 2, exp (b * I) / 2, -exp (b * I) / 2;
        exp (b * I) / 2, -exp (b * I) / 2, exp (b * I) / 2, exp (b * I) / 2;
        exp (-(b * I)) ^ 3 / 2, -exp (b * I) / 2, -exp (-(b * I)) ^ 3 / 2, -exp (b * I) / 2] := by
  have half_root := root_mul_root
  have inverse := exp_mul_exp_neg b
  have square : I * I = -1 := Complex.I_mul_I
  rw [k31_mul_entangler, entangler_eq, toMatrix_k32lk21l, Matrix.one_fin_two, Matrix.mul_assoc, cross, ← Matrix.ext_iff]
  simp only [Matrix.mul_apply, Fin.sum_univ_four, Fin.forall_fin_succ]
  simp
  generalize exp (b * I) = e, exp (-(b * I)) = f, I = i, root = h at *
  refine ⟨?_, ?_, ?_, ?_⟩ <;> (refine ⟨?_, ?_, ?_, ?_⟩) <;> grind

/-- The last two uses undo the frame of the first one. -/
theorem last_uses_mul_k22 (b : ℝ) :
    tensor (k31l b).toMatrix (k31r b).toMatrix * entangler b *
        tensor (k32lk21l b).toMatrix (Axis.y.rotation (-(2 * b))) * entangler b *
        tensor (k22l : Mat2 ℝ).toMatrix (k22r : Mat2 ℝ).toMatrix = (opening b)ᴴ := by
  have split : tensor (k32lk21l b).toMatrix (Axis.y.rotation (-(2 * b))) =
      tensor 1 (Axis.y.rotation (-(2 * b))) * tensor (k32lk21l b).toMatrix 1 := by
    rw [tensor_mul_tensor, Matrix.one_mul, Matrix.mul_one]
  have half_root := root_mul_root
  rw [split, ← Matrix.mul_assoc, last_uses_eq, opening_eq, k22l, k22r, Mat2.toMatrix_of, Mat2.toMatrix_of,
    ← Matrix.ext_iff]
  simp only [Matrix.mul_apply, Fin.sum_univ_four, Fin.forall_fin_succ]
  simp [half, ofReal_sqrtHalf, ← Complex.exp_conj, conj_root, Cx.toComplex_mk]
  grind

theorem halfTurn_x_mul_y : Axis.x.halfTurn * Axis.y.halfTurn = -Axis.z.halfTurn := by
  simp [Axis.halfTurn]

/-- A half turn about the second axis on the low qubit passes the gate. -/
theorem right_mul_entangler (b : ℝ) :
    tensor 1 Axis.y.halfTurn * entangler b = entangler b * -(I • tensor Axis.x.halfTurn Axis.z.halfTurn) := by
  have turned : Axis.y.sense * angles (Real.pi / 4) b 0 =
      angles (Real.pi / 4) b 0 + Pi.single .x (-(Real.pi / 2)) := by
    funext k
    cases k <;> simp [Axis.sense, angles]
    ring
  have quarter : Axis.x.couple (-(Real.pi / 2)) = I • Axis.x.pair := by simp [Axis.couple]
  rw [entangler, Weyl.halfTurn_right_mul_coupling, turned, ← coupling_mul, Weyl.coupling_single, quarter, Matrix.mul_assoc,
    Matrix.smul_mul, Axis.pair, tensor_mul_tensor, halfTurn_x_mul_y, Matrix.mul_one, tensor_neg_right, smul_neg]

theorem right_mul_k22 :
    tensor Axis.x.halfTurn Axis.z.halfTurn * tensor (k22l : Mat2 ℝ).toMatrix (k22r : Mat2 ℝ).toMatrix =
      -(tensor (k22l : Mat2 ℝ).toMatrix (k22r : Mat2 ℝ).toMatrix * Axis.z.pair) := by
  have left : Axis.x.halfTurn * (k22l : Mat2 ℝ).toMatrix = (k22l : Mat2 ℝ).toMatrix * Axis.z.halfTurn := by
    simp [k22l, half, Axis.halfTurn, mul_comm]
  have right : Axis.z.halfTurn * (k22r : Mat2 ℝ).toMatrix = -((k22r : Mat2 ℝ).toMatrix * Axis.z.halfTurn) := by
    simp [k22r, Axis.halfTurn, Cx.toComplex_mk]
  rw [tensor_mul_tensor, left, right, tensor_neg_right, Axis.pair, tensor_mul_tensor]

theorem pair_mul_opening (b : ℝ) : Axis.z.pair * opening b = opening b * Axis.z.pair := by
  have split : Axis.z.pair = -(-tensor Axis.z.halfTurn 1 * tensor 1 Axis.z.halfTurn) := by
    rw [Matrix.neg_mul, neg_neg, tensor_mul_tensor, Matrix.one_mul, Matrix.mul_one, Axis.pair]
  have product : (I • Axis.x.pair) * (I • Axis.y.pair) = -Axis.z.pair := by
    rw [Matrix.smul_mul, Matrix.mul_smul, smul_smul, Complex.I_mul_I, neg_one_smul, Axis.pair, Axis.pair,
      tensor_mul_tensor, halfTurn_x_mul_y, tensor_neg_left, tensor_neg_right, neg_neg, Axis.pair]
  calc
    _ = -(-tensor Axis.z.halfTurn 1 * (tensor 1 Axis.z.halfTurn * opening b)) := by
      rw [split, Matrix.neg_mul, Matrix.mul_assoc]
    _ = -(opening b * ((I • Axis.x.pair) * (I • Axis.y.pair))) := by
      rw [right_mul_opening, ← Matrix.mul_assoc, left_mul_opening, Matrix.mul_assoc]
    _ = opening b * Axis.z.pair := by rw [product, Matrix.mul_neg, neg_neg]

/-- Between the last two uses, a rotation on the low qubit becomes an interaction about the third axis. -/
theorem right_mul_frames (b : ℝ) :
    tensor 1 Axis.y.halfTurn *
        (entangler b * tensor (k22l : Mat2 ℝ).toMatrix (k22r : Mat2 ℝ).toMatrix * opening b) =
      entangler b * tensor (k22l : Mat2 ℝ).toMatrix (k22r : Mat2 ℝ).toMatrix * opening b * (I • Axis.z.pair) := by
  set inner := tensor (k22l : Mat2 ℝ).toMatrix (k22r : Mat2 ℝ).toMatrix with innerDef
  calc
    _ = entangler b * -(I • (tensor Axis.x.halfTurn Axis.z.halfTurn * inner)) * opening b := by
      rw [← Matrix.mul_assoc, ← Matrix.mul_assoc, right_mul_entangler]
      simp only [Matrix.mul_assoc, Matrix.neg_mul, Matrix.smul_mul]
    _ = entangler b * inner * (I • (Axis.z.pair * opening b)) := by
      rw [innerDef, right_mul_k22]
      simp only [smul_neg, neg_neg, Matrix.mul_assoc, Matrix.mul_smul, Matrix.smul_mul]
    _ = _ := by
      rw [pair_mul_opening]
      simp only [Matrix.mul_assoc, Matrix.mul_smul]

/-! ## Two and three uses -/

theorem rotations_mul_opening (b x y : ℝ) :
    tensor (Axis.z.rotation (-(2 * x))) (Axis.z.rotation (2 * y)) * opening b =
      opening b * coupling (angles x y 0) := by
  have split : tensor (Axis.z.rotation (-(2 * x))) (Axis.z.rotation (2 * y)) =
      tensor (Axis.z.rotation (-(2 * x))) 1 * tensor 1 (Axis.z.rotation (2 * y)) := by
    rw [tensor_mul_tensor, Matrix.one_mul, Matrix.mul_one]
  have still : Axis.z.couple 0 = 1 := by simp [Axis.couple]
  rw [split, Matrix.mul_assoc, rotation_right_mul (right_mul_opening b), ← Matrix.mul_assoc,
    rotation_left_mul (left_mul_opening b), Matrix.mul_assoc, coupling_eq_couple]
  simp only [angles, still, Matrix.mul_one]

theorem flipped_entangler (b : ℝ) :
    tensor 1 Axis.z.halfTurn * entangler b * tensor 1 Axis.z.halfTurn = -(entangler b)ᴴ := by
  have reversed : Axis.z.sense * angles (Real.pi / 4) b 0 = -angles (Real.pi / 4) b 0 := by
    funext k
    cases k <;> simp [Axis.sense, angles]
  rw [entangler, Weyl.halfTurn_right_mul_coupling, reversed, Matrix.mul_assoc, tensor_mul_tensor, Weyl.halfTurn_mul_self,
    Matrix.one_mul, tensor_neg_right, tensor_one_one, Matrix.mul_neg, Matrix.mul_one, Weyl.coupling_conjTranspose]

/-- Two uses make every interaction without an angle about the third axis, with the opposite sign. -/
theorem two_uses (b x y : ℝ) :
    tensor (k12l : Mat2 ℝ).toMatrixᴴ ((k12r : Mat2 ℝ).toMatrixᴴ * Axis.z.halfTurn) * entangler b *
        tensor ((k11l b).toMatrixᴴ * Axis.z.rotation (-(2 * x)) * (k11l b).toMatrix)
          (Axis.z.halfTurn * (k11r b).toMatrixᴴ * Axis.z.rotation (2 * y) * (k11r b).toMatrix) * entangler b *
        tensor (k12l : Mat2 ℝ).toMatrix (k12r : Mat2 ℝ).toMatrix =
      -coupling (angles x y 0) := by
  set outer := tensor (k11l b).toMatrix (k11r b).toMatrix with outerDef
  set inner := tensor (k12l : Mat2 ℝ).toMatrix (k12r : Mat2 ℝ).toMatrix with innerDef
  set turns := tensor (Axis.z.rotation (-(2 * x))) (Axis.z.rotation (2 * y)) with turnsDef
  have first : tensor (k12l : Mat2 ℝ).toMatrixᴴ ((k12r : Mat2 ℝ).toMatrixᴴ * Axis.z.halfTurn) =
      innerᴴ * tensor 1 Axis.z.halfTurn := by
    rw [innerDef, tensor_conjTranspose, tensor_mul_tensor, Matrix.mul_one]
  have middle : tensor ((k11l b).toMatrixᴴ * Axis.z.rotation (-(2 * x)) * (k11l b).toMatrix)
      (Axis.z.halfTurn * (k11r b).toMatrixᴴ * Axis.z.rotation (2 * y) * (k11r b).toMatrix) =
      tensor 1 Axis.z.halfTurn * outerᴴ * turns * outer := by
    rw [outerDef, turnsDef, tensor_conjTranspose, tensor_mul_tensor, tensor_mul_tensor, tensor_mul_tensor, Matrix.one_mul]
  calc
    _ = innerᴴ * (tensor 1 Axis.z.halfTurn * entangler b * tensor 1 Axis.z.halfTurn) * outerᴴ *
        (turns * (outer * entangler b * inner)) := by
      rw [first, middle]
      simp only [Matrix.mul_assoc]
    _ = -((opening b)ᴴ * (turns * opening b)) := by
      rw [flipped_entangler, opening, ← outerDef, ← innerDef, Matrix.conjTranspose_mul, Matrix.conjTranspose_mul]
      simp only [Matrix.mul_assoc, Matrix.mul_neg, Matrix.neg_mul]
    _ = -coupling (angles x y 0) := by
      rw [turnsDef, rotations_mul_opening, ← Matrix.mul_assoc, opening_unitary, Matrix.one_mul]

/-- Three uses make every interaction. -/
theorem three_uses (b x y z : ℝ) :
    tensor (k31l b).toMatrix (k31r b).toMatrix * entangler b *
        tensor (k32lk21l b).toMatrix ((k32r b).toMatrix * Axis.z.rotation (-(2 * z)) * (k21r b).toMatrix) * entangler b *
        tensor ((k22l : Mat2 ℝ).toMatrix * Axis.z.rotation (-(2 * x)) * (k11l b).toMatrix)
          ((k22r : Mat2 ℝ).toMatrix * Axis.z.rotation (2 * y) * (k11r b).toMatrix) * entangler b *
        tensor (k12l : Mat2 ℝ).toMatrix (k12r : Mat2 ℝ).toMatrix =
      coupling (angles x y z) := by
  set last := tensor (k31l b).toMatrix (k31r b).toMatrix
  set turned := tensor (k32lk21l b).toMatrix (Axis.y.rotation (-(2 * b))) with turnedDef
  set between := tensor (k22l : Mat2 ℝ).toMatrix (k22r : Mat2 ℝ).toMatrix with betweenDef
  set turns := tensor (Axis.z.rotation (-(2 * x))) (Axis.z.rotation (2 * y)) with turnsDef
  have second : tensor (k32lk21l b).toMatrix
      ((k32r b).toMatrix * Axis.z.rotation (-(2 * z)) * (k21r b).toMatrix) =
      turned * tensor 1 (Axis.y.rotation (2 * z)) := by
    rw [k32r_rotation_k21r, turnedDef, tensor_mul_tensor, Matrix.mul_one]
  have first : tensor ((k22l : Mat2 ℝ).toMatrix * Axis.z.rotation (-(2 * x)) * (k11l b).toMatrix)
      ((k22r : Mat2 ℝ).toMatrix * Axis.z.rotation (2 * y) * (k11r b).toMatrix) =
      between * turns * tensor (k11l b).toMatrix (k11r b).toMatrix := by
    rw [betweenDef, turnsDef, tensor_mul_tensor, tensor_mul_tensor]
  have angle : coupling (angles x y z) = Axis.z.couple z * coupling (angles x y 0) := by
    rw [← Weyl.coupling_single, coupling_mul]
    congr 1
    funext k
    cases k <;> simp [angles]
  calc
    _ = last * entangler b * turned * tensor 1 (Axis.y.rotation (2 * z)) *
        (entangler b * between * (turns * opening b)) := by
      rw [second, first, opening]
      simp only [Matrix.mul_assoc]
    _ = last * entangler b * turned *
        (tensor 1 (Axis.y.rotation (2 * z)) * (entangler b * between * opening b)) * coupling (angles x y 0) := by
      rw [turnsDef, rotations_mul_opening]
      simp only [Matrix.mul_assoc]
    _ = (last * entangler b * turned * entangler b * between) * opening b * Axis.z.couple z * coupling (angles x y 0) := by
      rw [betweenDef, rotation_right_mul (right_mul_frames b)]
      simp only [Matrix.mul_assoc]
    _ = Axis.z.couple z * coupling (angles x y 0) := by
      rw [last_uses_mul_k22, opening_unitary, Matrix.one_mul]
    _ = coupling (angles x y z) := angle.symm

end Entangle.Synthesis.FixedFactor

end
