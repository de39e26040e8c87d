import Mathlib
import Entangle.Proofs.FamilyInteraction

/-!
# The standard gates

Every standard gate has a unitary matrix at as many angles as it takes. Controlled gates are multiplied and reversed
through the gate that they control, rotations about a product of two Pauli matrices through the interactions. Every
gate but `iswap` has an adjoint among the gates, with the adjoint matrix.
-/

noncomputable section

namespace Entangle.Gate

open Matrix Complex
open Circuit.Sequence (hadamard hadamard_adjoint hadamard_mem_unitary hadamard_mul_self)
open Weyl (Axis)

/-! ## Controlled gates -/

section Controlled

variable {u v : Mat2 ℝ}

theorem toMatrix_controlledMatrix (u : Mat2 ℝ) : (controlledMatrix u).toMatrix =
    !![1, 0, 0, 0; 0, u.toMatrix 0 0, 0, u.toMatrix 0 1; 0, 0, 1, 0; 0, u.toMatrix 1 0, 0, u.toMatrix 1 1] := by
  simp [controlledMatrix]

theorem controlledMatrix_mul (u v : Mat2 ℝ) : controlledMatrix u * controlledMatrix v = controlledMatrix (u * v) := by
  apply Square.toMatrix_injective
  rw [Mat4.toMatrix_mul, toMatrix_controlledMatrix, toMatrix_controlledMatrix, toMatrix_controlledMatrix, Mat2.toMatrix_mul]
  ext i j
  fin_cases i <;> fin_cases j <;> simp [Matrix.mul_apply, Fin.sum_univ_four]

theorem controlledMatrix_identity : controlledMatrix (Square.identity : Mat2 ℝ) = Square.identity := by
  apply Square.toMatrix_injective
  rw [toMatrix_controlledMatrix, Square.toMatrix_identity, Square.toMatrix_identity]
  ext i j
  fin_cases i <;> fin_cases j <;> simp

theorem controlledMatrix_dagger (u : Mat2 ℝ) : (controlledMatrix u).dagger = controlledMatrix u.dagger := by
  apply Square.toMatrix_injective
  rw [Square.toMatrix_dagger, toMatrix_controlledMatrix, toMatrix_controlledMatrix, Square.toMatrix_dagger]
  ext i j
  fin_cases i <;> fin_cases j <;> simp

theorem controlledMatrix_unitary (unitary : u.Unitary) : (controlledMatrix u).Unitary := by
  have inverse : u * u.dagger = Square.identity := by
    apply Square.toMatrix_injective
    rw [Mat2.toMatrix_mul, Square.toMatrix_dagger, Square.toMatrix_identity]
    exact mem_unitaryGroup_iff.mp unitary
  rw [Square.Unitary, mem_unitaryGroup_iff, star_eq_conjTranspose, ← Square.toMatrix_dagger, controlledMatrix_dagger,
    ← Mat4.toMatrix_mul, controlledMatrix_mul, inverse, controlledMatrix_identity, Square.toMatrix_identity]

theorem controlledMatrix_adjoint (adjoint : v.toMatrix = u.toMatrixᴴ) :
    (controlledMatrix v).toMatrix = (controlledMatrix u).toMatrixᴴ := by
  have same : v = u.dagger := by
    apply Square.toMatrix_injective
    rw [adjoint, Square.toMatrix_dagger]
  rw [same, ← controlledMatrix_dagger, Square.toMatrix_dagger]

theorem cxMatrix_eq : (cxMatrix : Mat4 ℝ) = controlledMatrix xMatrix := rfl

theorem cyMatrix_eq : (cyMatrix : Mat4 ℝ) = controlledMatrix yMatrix := rfl

theorem czMatrix_eq : (czMatrix : Mat4 ℝ) = controlledMatrix zMatrix := rfl

theorem cphaseMatrix_eq (t : ℝ) : cphaseMatrix t = controlledMatrix (phaseMatrix t) := by
  apply Square.toMatrix_injective
  rw [toMatrix_controlledMatrix, cphaseMatrix, phaseMatrix, Mat4.toMatrix_diag, Mat2.toMatrix_of]
  ext i j
  fin_cases i <;> fin_cases j <;> simp

end Controlled

/-! ## Rotations of two qubits -/

theorem ryyMatrix_eq (theta : ℝ) : ryyMatrix theta = Weyl.single .y (-theta / 2) := by
  apply Square.toMatrix_injective
  simp [ryyMatrix, Weyl.single, Weyl.interaction, Cx.toComplex_mk, neg_div, mul_comm]

/-- A Hadamard gate on the second qubit takes its axis from the third to the first. -/
theorem toMatrix_rzxMatrix (theta : ℝ) :
    (rzxMatrix theta).toMatrix = tensor hadamard 1 * (Weyl.single .z (-theta / 2)).toMatrix * tensor hadamard 1 := by
  have turned : hadamard * Axis.z.halfTurn * hadamard = Axis.x.halfTurn := by
    have frame : hadamard * Axis.x.halfTurn = Axis.z.halfTurn * hadamard := hMatrix_mul_halfTurn
    rw [Matrix.mul_assoc, ← frame, ← Matrix.mul_assoc, hadamard_mul_self, Matrix.one_mul]
  rw [Weyl.toMatrix_single, Weyl.coupling_single, Axis.couple, Axis.pair, Matrix.mul_sub, Matrix.sub_mul, Matrix.mul_smul,
    Matrix.mul_smul, Matrix.smul_mul, Matrix.smul_mul, Matrix.mul_one, tensor_mul_tensor, tensor_mul_tensor,
    tensor_mul_tensor, turned, hadamard_mul_self, Matrix.one_mul, Matrix.mul_one, tensor_one_one]
  rw [rzxMatrix, Mat4.toMatrix_of]
  ext i j
  fin_cases i <;> fin_cases j <;> simp [Axis.halfTurn, Cx.toComplex_mk, neg_div, mul_comm]

theorem single_adjoint (k : Axis) (a : ℝ) : (Weyl.single k (- -a / 2)).toMatrix = (Weyl.single k (-a / 2)).toMatrixᴴ := by
  rw [← Square.toMatrix_dagger, Weyl.single_dagger, neg_div]

theorem rzxMatrix_adjoint (a : ℝ) : (rzxMatrix (-a)).toMatrix = (rzxMatrix a).toMatrixᴴ := by
  have frame : (tensor hadamard 1)ᴴ = tensor hadamard 1 := by
    rw [tensor_conjTranspose, hadamard_adjoint, Matrix.conjTranspose_one]
  rw [toMatrix_rzxMatrix, toMatrix_rzxMatrix, single_adjoint, Matrix.conjTranspose_mul, Matrix.conjTranspose_mul, frame,
    Matrix.mul_assoc]

theorem rzxMatrix_unitary (a : ℝ) : (rzxMatrix a).Unitary := by
  have frame := tensor_mem_unitary hadamard_mem_unitary (one_mem (unitaryGroup (Fin 2) ℂ))
  rw [Square.Unitary, toMatrix_rzxMatrix]
  exact mul_mem (mul_mem frame (Weyl.single_unitary .z (-a / 2))) frame

/-! ## The table -/

theorem xMatrix_adjoint : (xMatrix : Mat2 ℝ).toMatrix = (xMatrix : Mat2 ℝ).toMatrixᴴ :=
  toMatrix_adjoint (by simp) (by simp) (by simp) (by simp)

theorem yMatrix_adjoint : (yMatrix : Mat2 ℝ).toMatrix = (yMatrix : Mat2 ℝ).toMatrixᴴ :=
  toMatrix_adjoint (by simp) (by simp [Cx.toComplex_mk]) (by simp [Cx.toComplex_mk]) (by simp)

theorem zMatrix_adjoint : (zMatrix : Mat2 ℝ).toMatrix = (zMatrix : Mat2 ℝ).toMatrixᴴ :=
  toMatrix_adjoint (by simp) (by simp) (by simp) (by simp [Cx.toComplex_mk])

theorem toMatrix_swapMatrix : (swapMatrix : Mat4 ℝ).toMatrix = Circuit.Sequence.exchange := by
  simp [swapMatrix, Circuit.Sequence.exchange]

theorem swapMatrix_adjoint : (swapMatrix : Mat4 ℝ).toMatrix = (swapMatrix : Mat4 ℝ).toMatrixᴴ := by
  rw [toMatrix_swapMatrix, Circuit.Sequence.exchange]
  ext i j
  fin_cases i <;> fin_cases j <;> simp

/-- A standard gate on two qubits, other than `iswap`, has an adjoint with the adjoint matrix. -/
theorem Standard.matrix_adjoint_two {g : Standard} {params : List ℝ} {m : Mat4 ℝ} (known : g.matrix? params = some (.two m))
    (invertible : g ≠ .iswap) :
    ∃ params' m', (Operation.standard g).inverse params = .ok (.standard g.adjoint, params') ∧
      g.adjoint.matrix? params' = some (.two m') ∧ m'.toMatrix = m.toMatrixᴴ := by
  unfold matrix? at known
  split at known
  all_goals first
    | cases known; done
    | obtain rfl := GateMatrix.two.inj (Option.some.inj known)
  case h_21 => exact ⟨[], _, rfl, rfl, cxMatrix_eq ▸ controlledMatrix_adjoint xMatrix_adjoint⟩
  case h_22 => exact ⟨[], _, rfl, rfl, cyMatrix_eq ▸ controlledMatrix_adjoint yMatrix_adjoint⟩
  case h_23 => exact ⟨[], _, rfl, rfl, czMatrix_eq ▸ controlledMatrix_adjoint zMatrix_adjoint⟩
  case h_24 => exact ⟨[], _, rfl, rfl, swapMatrix_adjoint⟩
  case h_25 => exact absurd rfl invertible
  case h_26 a => exact ⟨[-a], _, rfl, rfl, by rw [Weyl.rxxMatrix_eq, Weyl.rxxMatrix_eq, single_adjoint]⟩
  case h_27 a => exact ⟨[-a], _, rfl, rfl, by rw [ryyMatrix_eq, ryyMatrix_eq, single_adjoint]⟩
  case h_28 a => exact ⟨[-a], _, rfl, rfl, by rw [Weyl.rzzMatrix_eq, Weyl.rzzMatrix_eq, single_adjoint]⟩
  case h_29 a => exact ⟨[-a], _, rfl, rfl, rzxMatrix_adjoint a⟩
  case h_30 a =>
    exact ⟨[-a], _, rfl, rfl, by rw [cphaseMatrix_eq, cphaseMatrix_eq, controlledMatrix_adjoint (phaseMatrix_adjoint a)]⟩
  case h_31 a | h_32 a | h_33 a =>
    exact ⟨[-a], _, rfl, rfl, controlledMatrix_adjoint (by simp [Axis.rotation_conjTranspose])⟩

theorem yMatrix_unitary : (yMatrix : Mat2 ℝ).Unitary :=
  Mat2.unitary_of (by simp [Cx.toComplex_mk]) (by simp [Cx.toComplex_mk]) (by simp)

theorem zMatrix_unitary : (zMatrix : Mat2 ℝ).Unitary :=
  Mat2.unitary_of (by simp) (by simp [Cx.toComplex_mk]) (by simp)

theorem tMatrix_unitary : (tMatrix : Mat2 ℝ).Unitary := by
  have square := Synthesis.FixedFactor.root_mul_root
  refine Mat2.unitary_of (by simp) ?_ (by simp)
  simp [Cx.toComplex_mk, Synthesis.FixedFactor.ofReal_sqrtHalf, Synthesis.FixedFactor.conj_root]
  linear_combination 2 * square - Synthesis.FixedFactor.root * Synthesis.FixedFactor.root * Complex.I_mul_I

theorem swapMatrix_unitary : (swapMatrix : Mat4 ℝ).Unitary := by
  rw [Square.Unitary, toMatrix_swapMatrix]
  exact Circuit.Sequence.exchange_mem_unitary

theorem iswapMatrix_unitary : (iswapMatrix : Mat4 ℝ).Unitary := by
  rw [Square.Unitary, mem_unitaryGroup_iff, iswapMatrix, Mat4.toMatrix_of]
  ext i j
  fin_cases i <;> fin_cases j <;> simp [Matrix.mul_apply, Fin.sum_univ_four, Cx.toComplex_mk]

theorem unitary_of_adjoint {u v : Mat2 ℝ} (unitary : u.Unitary) (adjoint : v.toMatrix = u.toMatrixᴴ) : v.Unitary := by
  rw [Square.Unitary, adjoint]
  exact Unitary.star_mem unitary

/-- A matrix of either size is unitary. -/
def GateMatrix.Unitary : GateMatrix ℝ → Prop
  | .one m => m.Unitary
  | .two m => m.Unitary

/-- Every standard gate is unitary. -/
theorem Standard.matrix_unitary {g : Standard} {params : List ℝ} {m : GateMatrix ℝ} (known : g.matrix? params = some m) :
    m.Unitary := by
  unfold matrix? at known
  split at known
  all_goals first
    | cases known; done
    | obtain rfl := Option.some.inj known
  case h_1 => exact Square.identity_unitary
  case h_2 => exact hadamard_mem_unitary
  case h_3 => exact xMatrix_unitary
  case h_4 => exact yMatrix_unitary
  case h_5 => exact zMatrix_unitary
  case h_6 => exact sMatrix_unitary
  case h_7 => exact unitary_of_adjoint sMatrix_unitary toMatrix_sdgMatrix
  case h_8 => exact tMatrix_unitary
  case h_9 => exact unitary_of_adjoint tMatrix_unitary (toMatrix_adjoint (by simp) (by simp) (by simp) (by simp [Cx.toComplex_mk]))
  case h_10 => exact sxMatrix_unitary
  case h_11 => exact unitary_of_adjoint sxMatrix_unitary sxdgMatrix_eq
  case h_12 a => exact rxMatrix_unitary a
  case h_13 a => exact ryMatrix_unitary a
  case h_14 a => exact rzMatrix_unitary a
  case h_15 a | h_16 a => exact phaseMatrix_unitary a
  case h_17 a b => exact u3Matrix_unitary _ a b
  case h_18 a b c | h_19 a b c => exact u3Matrix_unitary a b c
  case h_20 a b => exact rMatrix_unitary a b
  case h_21 => exact cxMatrix_eq ▸ controlledMatrix_unitary xMatrix_unitary
  case h_22 => exact cyMatrix_eq ▸ controlledMatrix_unitary yMatrix_unitary
  case h_23 => exact czMatrix_eq ▸ controlledMatrix_unitary zMatrix_unitary
  case h_24 => exact swapMatrix_unitary
  case h_25 => exact iswapMatrix_unitary
  case h_26 a => exact Weyl.rxxMatrix_eq a ▸ Weyl.single_unitary .x _
  case h_27 a => exact ryyMatrix_eq a ▸ Weyl.single_unitary .y _
  case h_28 a => exact Weyl.rzzMatrix_eq a ▸ Weyl.single_unitary .z _
  case h_29 a => exact rzxMatrix_unitary a
  case h_30 a => exact cphaseMatrix_eq a ▸ controlledMatrix_unitary (phaseMatrix_unitary a)
  case h_31 a => exact controlledMatrix_unitary (rxMatrix_unitary a)
  case h_32 a => exact controlledMatrix_unitary (ryMatrix_unitary a)
  case h_33 a => exact controlledMatrix_unitary (rzMatrix_unitary a)

/-- At as many angles as it takes, a standard gate has a matrix of its size. -/
theorem Standard.exists_matrix {α : Type} [Scalar α] {g : Standard} {params : List α} (count : params.length = g.angles) :
    (g.qubits = 1 ∧ ∃ m, g.matrix? params = some (.one m)) ∨ (g.qubits = 2 ∧ ∃ m, g.matrix? params = some (.two m)) := by
  cases g with
  | id | h | x | y | z | s | sdg | t | tdg | sx | sxdg =>
    obtain rfl := List.length_eq_zero_iff.mp count
    exact .inl ⟨rfl, _, rfl⟩
  | rx | ry | rz | p | u1 =>
    obtain ⟨a, rfl⟩ := List.length_eq_one_iff.mp count
    exact .inl ⟨rfl, _, rfl⟩
  | u2 | r =>
    obtain ⟨a, b, rfl⟩ := List.length_eq_two.mp count
    exact .inl ⟨rfl, _, rfl⟩
  | u3 | u =>
    obtain ⟨a, b, c, rfl⟩ := List.length_eq_three.mp count
    exact .inl ⟨rfl, _, rfl⟩
  | cx | cy | cz | swap | iswap =>
    obtain rfl := List.length_eq_zero_iff.mp count
    exact .inr ⟨rfl, _, rfl⟩
  | rxx | ryy | rzz | rzx | cp | crx | cry | crz =>
    obtain ⟨a, rfl⟩ := List.length_eq_one_iff.mp count
    exact .inr ⟨rfl, _, rfl⟩

/-- It has none at another number of angles. -/
theorem Standard.length_of_matrix {α : Type} [Scalar α] {g : Standard} {params : List α} {m : GateMatrix α}
    (known : g.matrix? params = some m) : params.length = g.angles := by
  unfold matrix? at known
  split at known
  all_goals first
    | cases known; done
    | rfl

theorem Operation.inverse_iswap : (Operation.standard .iswap : Operation ℝ).inverse [] =
    .error (Cause.within (.subject "iswap") .noInverse) := rfl

end Entangle.Gate

end
