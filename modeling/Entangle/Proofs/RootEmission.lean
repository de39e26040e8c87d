import Mathlib
import Entangle.Euler.Emission
import Entangle.Proofs.Approximation

/-!
# Emission over the square root of `X`

Over rotations about the third axis and the square root of `X`, a unitary becomes a sequence with up to
three rotations. Wrapping an angle changes a sign that the phase takes up, and each rotation or
polar angle that the tolerance leaves out costs half the tolerance, so that three of them bound the
distance of the sequence from the unitary.
-/

noncomputable section

namespace Entangle

open Matrix Complex

namespace Weyl.Axis

/-- Whole turns are signs. -/
theorem exp_smul_rotation (k : Axis) (t : ℝ) (turns : ℤ) :
    exp ((Real.pi * turns : ℝ) * I) • k.rotation (t - 2 * Real.pi * turns) = k.rotation t := by
  have half : ((t - 2 * Real.pi * turns : ℝ) : ℂ) / 2 = ((t / 2 - turns * Real.pi : ℝ) : ℂ) := by
    push_cast
    ring
  have sign : exp ((Real.pi * turns : ℝ) * I) = (-1) ^ turns := by
    have factor : ((Real.pi * turns : ℝ) * I : ℂ) = turns * (Real.pi * I) := by
      push_cast
      ring
    rw [factor, Complex.exp_int_mul, Complex.exp_pi_mul_I]
  have square : ((-1) ^ turns : ℂ) * (-1) ^ turns = 1 := by
    rw [← mul_zpow]
    simp
  rw [rotation, rotation, half, ← Complex.ofReal_cos, ← Complex.ofReal_sin, Real.cos_sub_int_mul_pi, Real.sin_sub_int_mul_pi,
    sign, smul_sub, smul_smul, smul_smul]
  push_cast
  rw [← mul_assoc, ← mul_assoc, square, one_mul, one_mul]

end Weyl.Axis

namespace Gate

open Weyl (Axis)

/-- The square root of `X` is a quarter turn about the first axis, up to a phase. -/
theorem toMatrix_sxMatrix :
    (sxMatrix : Mat2 ℝ).toMatrix = exp ((Real.pi / 4 : ℝ) * I) • Axis.x.rotation (Real.pi / 2) := by
  have quarter : ((Real.pi / 2 : ℝ) : ℂ) / 2 = (Real.pi / 4 : ℝ) := by
    push_cast
    ring
  have equal : sin ((Real.pi / 4 : ℝ) : ℂ) = cos ((Real.pi / 4 : ℝ) : ℂ) := by
    rw [← Complex.ofReal_sin, ← Complex.ofReal_cos, Real.sin_pi_div_four, Real.cos_pi_div_four]
  have square : cos ((Real.pi / 4 : ℝ) : ℂ) * cos ((Real.pi / 4 : ℝ) : ℂ) = 1 / 2 := by
    have circle := Complex.sin_sq_add_cos_sq ((Real.pi / 4 : ℝ) : ℂ)
    rw [equal] at circle
    linear_combination circle / 2
  have unit : I * I = -1 := Complex.I_mul_I
  rw [Complex.exp_mul_I, Axis.rotation, quarter, equal, Axis.halfTurn, Matrix.one_fin_two, sxMatrix, Mat2.toMatrix_of]
  generalize cos ((Real.pi / 4 : ℝ) : ℂ) = c at square
  simp [Cx.toComplex_mk]
  norm_num
  grind

theorem sxMatrix_unitary : (sxMatrix : Mat2 ℝ).Unitary := by
  rw [Square.Unitary, toMatrix_sxMatrix]
  exact exp_smul_mem_unitary _ (Axis.x.rotation_mem_unitary _)

theorem toMatrix_xMatrix : (xMatrix : Mat2 ℝ).toMatrix = sxMatrix.toMatrix * sxMatrix.toMatrix := by
  rw [xMatrix, sxMatrix, Mat2.toMatrix_of, Mat2.toMatrix_of, Matrix.mul_fin_two]
  simp [Cx.toComplex_mk]
  ring_nf
  simp
  norm_num

theorem xMatrix_unitary : (xMatrix : Mat2 ℝ).Unitary := by
  rw [Square.Unitary, toMatrix_xMatrix]
  exact mul_mem sxMatrix_unitary sxMatrix_unitary

/-- A phase on one state is a rotation about the third axis, up to half that phase. -/
theorem toMatrix_phaseMatrix (t : ℝ) :
    (phaseMatrix t).toMatrix = exp ((t / 2 : ℝ) * I) • Axis.z.rotation t := by
  have below : exp (t / 2 * I) * exp (-(t / 2 * I)) = 1 := by
    rw [← Complex.exp_add, add_neg_cancel, Complex.exp_zero]
  have above : exp (t / 2 * I) * exp (t / 2 * I) = exp (t * I) := by
    rw [← Complex.exp_add]
    ring_nf
  rw [phaseMatrix, Mat2.toMatrix_of, Axis.rotation_z_eq, Matrix.smul_of]
  simp [below, above]

theorem phaseMatrix_unitary (t : ℝ) : (phaseMatrix t).Unitary := by
  rw [Square.Unitary, toMatrix_phaseMatrix]
  exact exp_smul_mem_unitary _ (Axis.z.rotation_mem_unitary t)

/-- Two square roots of `X` around a rotation about the third axis turn it to the second. -/
theorem sx_rotation_sx (t : ℝ) :
    (sxMatrix : Mat2 ℝ).toMatrix * Axis.z.rotation (t - Real.pi) * (sxMatrix : Mat2 ℝ).toMatrix =
      I • (Axis.z.rotation (-Real.pi) * Axis.y.rotation t) := by
  have unit : I * I = -1 := Complex.I_mul_I
  have quarter : exp (-((-Real.pi : ℝ) / 2 * I)) = I := by
    have angle : -((-Real.pi : ℝ) / 2 * I : ℂ) = Real.pi / 2 * I := by
      push_cast
      ring
    rw [angle, Complex.exp_pi_div_two_mul_I]
  have quarter' : exp ((-Real.pi : ℝ) / 2 * I) = -I := by
    have angle : ((-Real.pi : ℝ) / 2 * I : ℂ) = -Real.pi / 2 * I := by
      push_cast
      ring
    rw [angle, Complex.exp_neg_pi_div_two_mul_I]
  have back : exp (-((t - Real.pi : ℝ) / 2 * I)) = exp (-(t / 2 * I)) * I := by
    have angle : -((t - Real.pi : ℝ) / 2 * I : ℂ) = -(t / 2 * I) + Real.pi / 2 * I := by
      push_cast
      ring
    rw [angle, Complex.exp_add, Complex.exp_pi_div_two_mul_I]
  have forth : exp ((t - Real.pi : ℝ) / 2 * I) = exp (t / 2 * I) * -I := by
    have angle : ((t - Real.pi : ℝ) / 2 * I : ℂ) = t / 2 * I + -Real.pi / 2 * I := by
      push_cast
      ring
    rw [angle, Complex.exp_add, Complex.exp_neg_pi_div_two_mul_I]
  rw [Axis.rotation_z_eq, Axis.rotation_z_eq, Axis.rotation_y_eq, sxMatrix, Mat2.toMatrix_of, quarter, quarter', back, forth,
    Complex.cos, Complex.sin, neg_mul]
  simp only [Matrix.mul_fin_two]
  simp [Cx.toComplex_mk]
  norm_num
  grind

end Gate

namespace Euler

open Circuit (Sequence)
open Circuit.Sequence (Within near_rotation placed placed_mul placed_one placed_smul)
open Weyl (Axis)

theorem Options.drops_iff {o : Options ℝ} {angle : ℝ} :
    o.drops angle = true ↔ o.simplify = true ∧ |angle| < o.atol := by
  simp [Options.drops]

/-- The gate for rotations about the third axis makes them, up to a phase of half the angle where it
acts on one state only. -/
structure RootX.Turns (k : RootX) : Prop where
  single : k.aboutZ.qubits = 1
  known (t : ℝ) : ∃ m : Mat2 ℝ, k.aboutZ.matrix? [t] = some (.one m) ∧ m.Unitary ∧
    m.toMatrix = exp ((if k.isPhase then t / 2 else 0 : ℝ) * I) • Axis.z.rotation t

theorem RootX.turns_of_rz {k : RootX} (gate : k.aboutZ = .rz) (halves : k.isPhase = false) : k.Turns where
  single := by rw [gate]; rfl
  known t := ⟨Gate.rzMatrix t, by rw [gate]; rfl, Gate.rzMatrix_unitary t, by simp [halves]⟩

theorem RootX.turns_of_phase {k : RootX} (gate : k.aboutZ = .p ∨ k.aboutZ = .u1) (phase : k.isPhase = true) :
    k.Turns where
  single := by rcases gate with gate | gate <;> rw [gate] <;> rfl
  known t := by
    refine ⟨Gate.phaseMatrix t, ?_, Gate.phaseMatrix_unitary t, ?_⟩
    · rcases gate with gate | gate <;> rw [gate] <;> rfl
    · rw [if_pos phase, Gate.toMatrix_phaseMatrix]

section Steps

variable {o : Options ℝ} {k : RootX} {s : Sequence ℝ} {ε : ℝ} {v : TwoQubit}

/-- The phase that comes with the gate for rotations is taken away before it. -/
theorem RootX.Turns.gate (turns : k.Turns) (wire : o.qubit = 0 ∨ o.qubit = 1) (within : s.Within ε v)
    (angle : ℝ) :
    (o.emit (if k.isPhase then s.subPhase (angle / 2) else s) k.aboutZ [angle]).Within ε
      (placed o.qubit (Axis.z.rotation angle) * v) := by
  obtain ⟨m, known, unitary, value⟩ := turns.known angle
  have start : (if k.isPhase then s.subPhase (angle / 2) else s).Within ε
      (exp (-(if k.isPhase then angle / 2 else 0 : ℝ) * I) • v) := by
    split
    · exact within.subPhase (angle / 2)
    · simpa using within
  have emitted := start.one known turns.single wire unitary
  rw [value, placed_smul, Matrix.mul_smul, Matrix.smul_mul, smul_smul, ← Complex.exp_add, neg_mul,
    neg_add_cancel, Complex.exp_zero, one_smul] at emitted
  exact emitted

/-- Wrapping an angle changes a sign that the phase takes up, and leaving the rotation out below the
tolerance costs half of it. -/
theorem wrapped_within (tolerance : 0 ≤ o.atol) (within : s.Within ε v) {axis : Axis}
    (gate : ℝ → Sequence ℝ → Sequence ℝ)
    (turns : ∀ {t : Sequence ℝ} {w : TwoQubit} (wrapped : ℝ), t.Within ε w →
      (gate wrapped t).Within ε (placed o.qubit (axis.rotation wrapped) * w))
    (angle : ℝ) :
    (if o.drops (Scalar.wrapAngle angle).1 then s.addPhase (Scalar.pi * (Scalar.wrapAngle angle).2)
      else gate (Scalar.wrapAngle angle).1 (s.addPhase (Scalar.pi * (Scalar.wrapAngle angle).2))).Within
      (ε + o.atol / 2) (placed o.qubit (axis.rotation angle) * v) := by
  rw [Exact.wrapAngle_eq]
  dsimp only
  set whole := Exact.nearestWhole (angle / (2 * Real.pi))
  set wrapped := angle - 2 * Real.pi * whole
  have turned : placed o.qubit (axis.rotation angle) * v =
      placed o.qubit (axis.rotation wrapped) * exp ((Real.pi * whole : ℝ) * I) • v := by
    rw [← axis.exp_smul_rotation angle whole, placed_smul, Matrix.smul_mul, Matrix.mul_smul]
  have moved := within.addPhase (Real.pi * whole)
  rw [turned, Exact.pi_eq]
  split
  · rename_i dropped
    exact moved.drop (Options.drops_iff.mp dropped).2.le
  · exact (turns wrapped moved).mono (by linarith)

/-- An emitted rotation about the third axis costs half the tolerance. -/
theorem RootX.Turns.turnZ (turns : k.Turns) (wire : o.qubit = 0 ∨ o.qubit = 1) (tolerance : 0 ≤ o.atol)
    (within : s.Within ε v) (angle : ℝ) :
    (k.turnZ o angle s).Within (ε + o.atol / 2) (placed o.qubit (Axis.z.rotation angle) * v) :=
  wrapped_within tolerance within _ (fun wrapped near => turns.gate wire near wrapped) angle

/-- The square root of `X` is exact. -/
theorem RootX.rootX (k : RootX) (wire : o.qubit = 0 ∨ o.qubit = 1) (within : s.Within ε v) :
    (k.root o s).Within ε (placed o.qubit (Gate.sxMatrix : Mat2 ℝ).toMatrix * v) := by
  rw [RootX.root]
  split
  · have known : Gate.Standard.rx.matrix? [Scalar.halfPi] = some (.one (Gate.rxMatrix (Scalar.halfPi : ℝ))) := rfl
    have emitted := (within.addPhase Scalar.quarterPi).one known rfl wire (Gate.rxMatrix_unitary _)
    have value : placed o.qubit (Gate.rxMatrix (Scalar.halfPi : ℝ)).toMatrix * exp ((Scalar.quarterPi : ℝ) * I) • v =
        placed o.qubit (Gate.sxMatrix : Mat2 ℝ).toMatrix * v := by
      rw [Gate.toMatrix_rxMatrix, Exact.halfPi_eq, Exact.quarterPi_eq, Gate.toMatrix_sxMatrix, placed_smul,
        Matrix.mul_smul, Matrix.smul_mul]
    rw [value] at emitted
    exact emitted
  · exact within.one rfl rfl wire Gate.sxMatrix_unitary

/-- Two square roots around a rotation, which may join to `X`, cost half the tolerance. -/
theorem RootX.Turns.sandwich (turns : k.Turns) (wire : o.qubit = 0 ∨ o.qubit = 1) (tolerance : 0 ≤ o.atol)
    (within : s.Within ε v) (angle : ℝ) :
    (if k.hasX && o.drops (Scalar.wrapAngle angle).1 then
        o.emit (s.addPhase (Scalar.pi * (Scalar.wrapAngle angle).2)) .x []
      else k.root o (k.turnZ o angle (k.root o s))).Within (ε + o.atol / 2)
      (placed o.qubit ((Gate.sxMatrix : Mat2 ℝ).toMatrix * Axis.z.rotation angle *
        (Gate.sxMatrix : Mat2 ℝ).toMatrix) * v) := by
  split
  · rename_i joined
    have dropped := (Bool.and_eq_true_iff.mp joined).2
    rw [Exact.wrapAngle_eq] at dropped ⊢
    dsimp only at dropped ⊢
    set whole := Exact.nearestWhole (angle / (2 * Real.pi))
    set wrapped := angle - 2 * Real.pi * whole
    have small := (Options.drops_iff.mp dropped).2
    have known : Gate.Standard.x.matrix? [] = some (.one (Gate.xMatrix : Mat2 ℝ)) := rfl
    have emitted := (within.addPhase (Real.pi * whole)).one known rfl wire Gate.xMatrix_unitary
    have root : Near 0 (placed o.qubit (Gate.sxMatrix : Mat2 ℝ).toMatrix)
        (placed o.qubit (Gate.sxMatrix : Mat2 ℝ).toMatrix) :=
      .refl (Sequence.placed_mem_unitary o.qubit Gate.sxMatrix_unitary)
    have chain := (((root.mul (near_rotation o.qubit .z 0 wrapped)).mul root).mul (.refl within.intended)).exp_smul
      (Real.pi * whole)
    rw [Axis.rotation_zero, placed_one, Matrix.mul_one, placed_mul, ← Gate.toMatrix_xMatrix, zero_sub, abs_neg] at chain
    have value : placed o.qubit ((Gate.sxMatrix : Mat2 ℝ).toMatrix * Axis.z.rotation angle *
        (Gate.sxMatrix : Mat2 ℝ).toMatrix) = exp ((Real.pi * whole : ℝ) * I) •
        (placed o.qubit (Gate.sxMatrix : Mat2 ℝ).toMatrix * placed o.qubit (Axis.z.rotation wrapped) *
          placed o.qubit (Gate.sxMatrix : Mat2 ℝ).toMatrix) := by
      rw [← Axis.z.exp_smul_rotation angle whole, placed_mul, placed_mul, ← placed_smul, Matrix.mul_smul, Matrix.smul_mul]
    rw [Matrix.mul_smul, Exact.pi_eq] at *
    rw [value, Matrix.smul_mul]
    exact (emitted.near chain).mono (by linarith)
  · have turned := k.rootX wire (turns.turnZ wire tolerance (k.rootX wire within) angle)
    simpa only [← placed_mul, Matrix.mul_assoc] using turned

end Steps

/-- Angles with another polar angle denote a unitary that is near. -/
theorem near_product (q : ℤ) (a : Angles ℝ) (outer inner : Axis) (theta : ℝ) :
    Near (|theta - a.theta| / 2) (placed q ({ a with theta := theta }.product outer inner))
      (placed q (a.product outer inner)) := by
  have side (t : ℝ) : Near 0 (placed q (outer.rotation t)) (placed q (outer.rotation t)) :=
    .refl (Sequence.placed_mem_unitary q (outer.rotation_mem_unitary t))
  have chain := (((side a.phi).mul (near_rotation q inner theta a.theta)).mul (side a.lambda)).exp_smul a.phase
  rw [zero_add, add_zero] at chain
  simpa only [Angles.product, placed_smul, ← placed_mul] using chain

/-- Without a polar angle, the outer rotations are one. -/
theorem flat_product (a : Angles ℝ) (outer inner : Axis) :
    { a with theta := 0 }.product outer inner = exp (a.phase * I) • outer.rotation (a.phi + a.lambda) := by
  rw [Angles.product, Axis.rotation_zero, Matrix.mul_one, Axis.rotation_mul]

/-- A polar angle within the tolerance of another costs half the tolerance. -/
theorem near_polar {o : Options ℝ} {a : Angles ℝ} {theta : ℝ} (close : |a.theta - theta| ≤ o.atol) (outer inner : Axis) :
    Near (o.atol / 2) (placed o.qubit ({ a with theta := theta }.product outer inner))
      (placed o.qubit (a.product outer inner)) := by
  have near := near_product o.qubit a outer inner theta
  rw [abs_sub_comm] at near
  exact near.mono (by linarith)

/-- A polar angle that is left out leaves one rotation about the outer axis. -/
theorem near_flat {o : Options ℝ} {a : Angles ℝ} (dropped : o.drops a.theta = true) (outer inner : Axis) :
    Near (o.atol / 2) (placed o.qubit (exp (a.phase * I) • outer.rotation (a.phi + a.lambda)))
      (placed o.qubit (a.product outer inner)) := by
  have small := (Options.drops_iff.mp dropped).2.le
  rw [← sub_zero a.theta] at small
  rw [← flat_product a outer inner]
  exact near_polar small outer inner

/-- A polar angle of a quarter turn takes one square root of `X`. -/
theorem quarter_product (phi lambda : ℝ) :
    exp (-(Real.pi / 4 : ℝ) * I) • (Axis.z.rotation (phi + Real.pi / 2) * (Gate.sxMatrix : Mat2 ℝ).toMatrix *
        Axis.z.rotation (lambda - Real.pi / 2)) =
      Axis.z.rotation phi * Axis.y.rotation (Real.pi / 2) * Axis.z.rotation lambda := by
  have phases : exp (-(Real.pi / 4 : ℝ) * I) * exp ((Real.pi / 4 : ℝ) * I) = 1 := by
    rw [← Complex.exp_add, neg_mul, neg_add_cancel, Complex.exp_zero]
  rw [Gate.toMatrix_sxMatrix, Matrix.mul_smul, Matrix.smul_mul, smul_smul, phases, one_smul, sub_eq_neg_add,
    ← Axis.rotation_mul, ← Axis.rotation_mul, ← Axis.rotation_y_eq_turned]
  simp only [Matrix.mul_assoc]

/-- Any polar angle takes two of them. -/
theorem full_product (phi theta lambda : ℝ) :
    exp (-(Real.pi / 2 : ℝ) * I) • (Axis.z.rotation (phi + Real.pi) * ((Gate.sxMatrix : Mat2 ℝ).toMatrix *
        Axis.z.rotation (theta - Real.pi) * (Gate.sxMatrix : Mat2 ℝ).toMatrix) * Axis.z.rotation lambda) =
      Axis.z.rotation phi * Axis.y.rotation theta * Axis.z.rotation lambda := by
  have phase : exp (-(Real.pi / 2 : ℝ) * I) * I = 1 := by
    have angle : (-(Real.pi / 2 : ℝ) * I : ℂ) = -Real.pi / 2 * I := by
      push_cast
      ring
    rw [angle, Complex.exp_neg_pi_div_two_mul_I, neg_mul, Complex.I_mul_I, neg_neg]
  rw [Gate.sx_rotation_sx, Matrix.mul_smul, Matrix.smul_mul, smul_smul, phase, one_smul, ← Matrix.mul_assoc,
    Axis.rotation_mul, add_neg_cancel_right]

/-- A unitary by Euler angles becomes a sequence within one and a half tolerances. -/
theorem rootSequence_within {o : Options ℝ} {k : RootX} (turns : k.Turns) (wire : o.qubit = 0 ∨ o.qubit = 1)
    (tolerance : 0 ≤ o.atol) (a : Angles ℝ) :
    (rootSequence o k a).Within (3 / 2 * o.atol) (placed o.qubit (a.product .z .y)) := by
  rw [rootSequence]
  dsimp only
  rw [Exact.zero_eq, zero_add, Exact.halfPi_eq, Exact.quarterPi_eq, Exact.pi_eq]
  have start := Within.empty a.phase
  split
  · rename_i dropped
    have turned := turns.turnZ wire tolerance start (a.phi + a.lambda)
    rw [Matrix.mul_smul, Matrix.mul_one, ← placed_smul] at turned
    exact (turned.near (near_flat dropped .z .y)).mono (by linarith)
  · split
    · rename_i dropped
      have small := (Options.drops_iff.mp dropped).2.le
      have emitted := turns.turnZ wire tolerance (k.rootX wire
        (turns.turnZ wire tolerance (start.subPhase (Real.pi / 4)) (a.lambda - Real.pi / 2))) (a.phi + Real.pi / 2)
      have value : placed o.qubit (Axis.z.rotation (a.phi + Real.pi / 2)) *
          (placed o.qubit (Gate.sxMatrix : Mat2 ℝ).toMatrix *
            (placed o.qubit (Axis.z.rotation (a.lambda - Real.pi / 2)) *
              exp (-(Real.pi / 4 : ℝ) * I) • exp (a.phase * I) • 1)) =
          placed o.qubit ({ a with theta := Real.pi / 2 }.product .z .y) := by
        rw [Angles.product, ← quarter_product, placed_smul, placed_smul, smul_comm]
        simp only [Matrix.mul_smul, Matrix.mul_one, placed_mul, Matrix.mul_assoc]
      rw [value] at emitted
      exact (emitted.near (near_polar small .z .y)).mono (by linarith)
    · have emitted := turns.turnZ wire tolerance (turns.sandwich wire tolerance
        (turns.turnZ wire tolerance (start.subPhase (Real.pi / 2)) a.lambda) (a.theta - Real.pi)) (a.phi + Real.pi)
      have value : placed o.qubit (Axis.z.rotation (a.phi + Real.pi)) *
          (placed o.qubit ((Gate.sxMatrix : Mat2 ℝ).toMatrix * Axis.z.rotation (a.theta - Real.pi) *
              (Gate.sxMatrix : Mat2 ℝ).toMatrix) *
            (placed o.qubit (Axis.z.rotation a.lambda) *
              exp (-(Real.pi / 2 : ℝ) * I) • exp (a.phase * I) • 1)) =
          placed o.qubit (a.product .z .y) := by
        rw [Angles.product, ← full_product, placed_smul, placed_smul, smul_comm]
        simp only [Matrix.mul_smul, Matrix.mul_one, placed_mul, Matrix.mul_assoc]
      rw [value, Exact.pi_eq] at emitted
      exact emitted.mono (by linarith)

/-- Over a gate set, every unitary is emitted on either qubit, within one and a half tolerances. -/
def Basis.Emits (basis : Basis) : Prop :=
  ∀ {o : Options ℝ} {u : Mat2 ℝ}, o.qubit = 0 ∨ o.qubit = 1 → 0 ≤ o.atol → u.Unitary →
    ∃ s, decompose u basis o = .ok s ∧ s.Within (3 / 2 * o.atol) (placed o.qubit u.toMatrix)

/-- Over the square root of `X`, it is. -/
theorem emits_rooted {basis : Basis} (rooted : basis = .zsx ∨ basis = .zsxx) : basis.Emits := by
  intro o u wire tolerance unitary
  refine ⟨emission o u basis, by rw [decompose, if_pos (Square.isFinite_eq u)], ?_⟩
  rw [← zyz_product unitary]
  rcases rooted with rfl | rfl
  · exact rootSequence_within (RootX.turns_of_rz rfl rfl) wire tolerance _
  · exact rootSequence_within (RootX.turns_of_rz rfl rfl) wire tolerance _

end Euler

end Entangle

end
