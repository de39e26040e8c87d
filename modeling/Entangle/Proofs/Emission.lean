import Mathlib
import Entangle.Proofs.RootEmission

/-!
# Emission over every gate set

A unitary by Euler angles becomes three rotations, one gate with up to three angles, rotations
around square roots of `X`, or rotations about axes of the equator. What the tolerance leaves out costs
at most one and a half tolerances over each of these gate sets.
-/

noncomputable section

namespace Entangle

open Matrix Complex
open Weyl (Axis)

namespace Cx

theorem cis_add (x y : ℝ) : (cis (x + y) : Cx ℝ) = cis x * cis y := by
  apply toComplex_injective
  rw [toComplex_mul, toComplex_cis, toComplex_cis, toComplex_cis, ← Complex.exp_add]
  push_cast
  ring_nf

/-- A phase does not see whole turns. -/
theorem cis_wrapAngle (x : ℝ) : cis (Scalar.wrapAngle x).1 = cis x := by
  apply toComplex_injective
  rw [Exact.wrapAngle_eq, toComplex_cis, toComplex_cis]
  have turns : ((x - 2 * Real.pi * Exact.nearestWhole (x / (2 * Real.pi)) : ℝ) * I : ℂ) =
      x * I - Exact.nearestWhole (x / (2 * Real.pi)) * (2 * Real.pi * I) := by
    push_cast
    ring
  rw [turns, Complex.exp_periodic.sub_int_mul_eq]

theorem cis_neg_wrapAngle (x : ℝ) : (cis (-(Scalar.wrapAngle x).1) : Cx ℝ) = cis (-x) := by
  have conjugate (y : ℝ) : (cis (-y) : Cx ℝ) = (cis y).conj := by
    apply toComplex_injective
    rw [toComplex_conj, toComplex_cis, toComplex_cis, Complex.star_def, ← Complex.exp_conj]
    simp
  rw [conjugate, cis_wrapAngle, conjugate]

end Cx

/-! ## Gates with angles -/

namespace Gate

theorem phaseMatrix_wrapAngle (t : ℝ) : phaseMatrix (Scalar.wrapAngle t).1 = phaseMatrix t := by
  rw [phaseMatrix, Cx.cis_wrapAngle, phaseMatrix]

theorem u3Matrix_wrapAngle (theta phi lambda : ℝ) :
    u3Matrix theta (Scalar.wrapAngle phi).1 (Scalar.wrapAngle lambda).1 = u3Matrix theta phi lambda := by
  simp only [u3Matrix, Cx.cis_add, Cx.cis_wrapAngle]

theorem rMatrix_wrapAngle (theta phi : ℝ) : rMatrix theta (Scalar.wrapAngle phi).1 = rMatrix theta phi := by
  simp only [rMatrix, Cx.cis_wrapAngle, Cx.cis_neg_wrapAngle]

/-- The gate with three angles is three rotations, under half the sum of the outer angles. -/
theorem toMatrix_u3Matrix (theta phi lambda : ℝ) :
    (u3Matrix theta phi lambda).toMatrix = exp (((phi + lambda) / 2 : ℝ) * I) •
      (Axis.z.rotation phi * Axis.y.rotation theta * Axis.z.rotation lambda) := by
  have upper : exp (((phi + lambda) / 2 : ℝ) * I) * exp (-((phi + lambda) / 2 * I)) = 1 := by
    rw [← Complex.exp_add, ← Complex.exp_zero]
    push_cast
    ring_nf
  have right : exp (((phi + lambda) / 2 : ℝ) * I) * exp (-((phi - lambda) / 2 * I)) = exp (lambda * I) := by
    rw [← Complex.exp_add]
    push_cast
    ring_nf
  have left : exp (((phi + lambda) / 2 : ℝ) * I) * exp ((phi - lambda) / 2 * I) = exp (phi * I) := by
    rw [← Complex.exp_add]
    push_cast
    ring_nf
  have lower : exp (((phi + lambda) / 2 : ℝ) * I) * exp ((phi + lambda) / 2 * I) = exp ((phi + lambda) * I) := by
    rw [← Complex.exp_add]
    push_cast
    ring_nf
  rw [Euler.zyz_entries, u3Matrix, Mat2.toMatrix_of, Matrix.smul_of]
  simp only [Matrix.smul_cons, smul_eq_mul, Matrix.smul_empty, mul_neg, ← mul_assoc, upper, right, left, lower]
  simp

theorem u3Matrix_unitary (theta phi lambda : ℝ) : (u3Matrix theta phi lambda).Unitary := by
  rw [Square.Unitary, toMatrix_u3Matrix]
  exact exp_smul_mem_unitary _ (mul_mem (mul_mem (Axis.z.rotation_mem_unitary phi) (Axis.y.rotation_mem_unitary theta))
    (Axis.z.rotation_mem_unitary lambda))

/-- Without a polar angle it is a phase on one state. -/
theorem u3Matrix_zero (phi lambda : ℝ) : (u3Matrix 0 phi lambda).toMatrix = (phaseMatrix (phi + lambda)).toMatrix := by
  rw [toMatrix_u3Matrix, Axis.rotation_zero, Matrix.mul_one, Axis.rotation_mul, toMatrix_phaseMatrix]

/-- The rotation about an axis of the equator, in the frame of the first axis. -/
theorem toMatrix_rMatrix (theta phi : ℝ) :
    (rMatrix theta phi).toMatrix = Axis.z.rotation phi * Axis.x.rotation theta * Axis.z.rotation (-phi) := by
  have cancel : exp (-(phi / 2 * I)) * exp (phi / 2 * I) = 1 := by
    rw [← Complex.exp_add, neg_add_cancel, Complex.exp_zero]
  have forth : exp (phi / 2 * I) * exp (phi / 2 * I) = exp (phi * I) := by
    rw [← Complex.exp_add]
    ring_nf
  have back : exp (-(phi / 2 * I)) * exp (-(phi / 2 * I)) = exp (-(phi * I)) := by
    rw [← Complex.exp_add]
    ring_nf
  rw [Axis.rotation_z_eq, Axis.rotation_z_eq, Axis.rotation_x_eq, rMatrix, Mat2.toMatrix_of, Matrix.mul_fin_two,
    Matrix.mul_fin_two]
  simp [Cx.toComplex_mk, neg_div]
  refine ⟨⟨?_, ?_⟩, ?_, ?_⟩
  · linear_combination -cos (theta / 2 : ℂ) * cancel
  · linear_combination -(I * sin (theta / 2 : ℂ)) * back
  · linear_combination -(I * sin (theta / 2 : ℂ)) * forth
  · linear_combination -cos (theta / 2 : ℂ) * cancel

theorem rMatrix_unitary (theta phi : ℝ) : (rMatrix theta phi).Unitary := by
  rw [Square.Unitary, toMatrix_rMatrix]
  exact mul_mem (mul_mem (Axis.z.rotation_mem_unitary phi) (Axis.x.rotation_mem_unitary theta))
    (Axis.z.rotation_mem_unitary (-phi))

/-- Two half turns about axes of the equator make a rotation about the third axis, with its sign changed. -/
theorem half_turns (phi : ℝ) :
    (rMatrix Real.pi phi).toMatrix * (rMatrix Real.pi 0).toMatrix = -Axis.z.rotation (2 * phi) := by
  rw [Axis.rotation_z_eq, rMatrix, rMatrix, Mat2.toMatrix_of, Mat2.toMatrix_of, Matrix.mul_fin_two]
  simp [Cx.toComplex_mk]
  constructor <;> rw [mul_right_comm, Complex.I_mul_I, neg_one_mul]

end Gate

namespace Euler

open Circuit (Sequence)
open Circuit.Sequence (Within near_rotation placed placed_mul placed_one placed_smul)
open Gate (Standard)

section GateSets

variable {o : Options ℝ} {s : Sequence ℝ} {ε : ℝ} {v : TwoQubit}

/-! ## Three rotations -/

/-- A gate with one angle is the rotation about an axis. -/
structure About (g : Standard) (axis : Axis) : Prop where
  single : g.qubits = 1
  known (t : ℝ) : ∃ m : Mat2 ℝ, g.matrix? [t] = some (.one m) ∧ m.toMatrix = axis.rotation t

theorem rx_about : About .rx .x := ⟨rfl, fun t => ⟨Gate.rxMatrix t, rfl, Gate.toMatrix_rxMatrix t⟩⟩

theorem ry_about : About .ry .y := ⟨rfl, fun t => ⟨Gate.ryMatrix t, rfl, Gate.toMatrix_ryMatrix t⟩⟩

theorem rz_about : About .rz .z := ⟨rfl, fun t => ⟨Gate.rzMatrix t, rfl, Gate.toMatrix_rzMatrix t⟩⟩

theorem About.rotation_within {g : Standard} {axis : Axis} (about : About g axis)
    (wire : o.qubit = 0 ∨ o.qubit = 1) (tolerance : 0 ≤ o.atol) (within : s.Within ε v) (angle : ℝ) :
    (rotation o g angle s).Within (ε + o.atol / 2) (placed o.qubit (axis.rotation angle) * v) := by
  refine wrapped_within tolerance within (fun wrapped t => o.emit t g [wrapped]) (fun wrapped near => ?_) angle
  obtain ⟨m, known, value⟩ := about.known wrapped
  have unitary : m.Unitary := by
    rw [Square.Unitary, value]
    exact axis.rotation_mem_unitary wrapped
  have emitted := near.one known about.single wire unitary
  rwa [value] at emitted

theorem threeRotations_within {outer inner : Standard} {j k : Axis} (aboutOuter : About outer j)
    (aboutInner : About inner k) (wire : o.qubit = 0 ∨ o.qubit = 1) (tolerance : 0 ≤ o.atol) (a : Angles ℝ) :
    (threeRotations o outer inner a).Within (3 / 2 * o.atol) (placed o.qubit (a.product j k)) := by
  rw [threeRotations, Exact.zero_eq, zero_add]
  have start := Within.empty a.phase
  split
  · rename_i dropped
    have turned := aboutOuter.rotation_within wire tolerance start (a.phi + a.lambda)
    rw [Matrix.mul_smul, Matrix.mul_one, ← placed_smul] at turned
    exact (turned.near (near_flat dropped j k)).mono (by linarith)
  · have turned := aboutOuter.rotation_within wire tolerance (aboutInner.rotation_within wire tolerance
      (aboutOuter.rotation_within wire tolerance start a.lambda) a.theta) a.phi
    have value : placed o.qubit (j.rotation a.phi) * (placed o.qubit (k.rotation a.theta) *
        (placed o.qubit (j.rotation a.lambda) * exp (a.phase * I) • 1)) = placed o.qubit (a.product j k) := by
      rw [Angles.product, placed_smul]
      simp only [Matrix.mul_smul, Matrix.mul_one, placed_mul, Matrix.mul_assoc]
    rw [value] at turned
    exact turned.mono (by linarith)

/-! ## One gate -/

/-- A phase on one state is no further from the identity than its angle. -/
theorem near_phase (q : ℤ) (t : ℝ) : Near |t| 1 (placed q (Gate.phaseMatrix t).toMatrix) := by
  have turn := near_rotation q .z 0 t
  rw [Axis.rotation_zero, placed_one, zero_sub, abs_neg] at turn
  have phase := Near.phase (t / 2)
  have both := phase.mul turn
  rw [Matrix.one_mul, Matrix.smul_mul, Matrix.one_mul, ← placed_smul, ← Gate.toMatrix_phaseMatrix] at both
  exact both.mono (by
    rw [abs_div, abs_two]
    linarith)

/-- The gate with three angles makes the unitary of Euler angles under the phase that it starts with. -/
theorem u3_product (a : Angles ℝ) :
    exp ((a.phase - (a.phi + a.lambda) / 2 : ℝ) * I) • (Gate.u3Matrix a.theta a.phi a.lambda).toMatrix =
      a.product .z .y := by
  rw [Gate.toMatrix_u3Matrix, Angles.product, smul_smul, ← Complex.exp_add]
  push_cast
  ring_nf

/-- One gate at the start of a sequence is exact. -/
theorem Options.emit_within (wire : o.qubit = 0 ∨ o.qubit = 1) (phase : ℝ) {g : Standard} {params : List ℝ}
    {m : Mat2 ℝ} (known : g.matrix? params = some (.one m)) (arity : g.qubits = 1) (unitary : m.Unitary) :
    (o.emit (.empty phase) g params).Within 0 (placed o.qubit (exp (phase * I) • m.toMatrix)) := by
  have emitted := (Within.empty phase).one known arity wire unitary
  rwa [Matrix.mul_smul, Matrix.mul_one, ← placed_smul] at emitted

/-- With its outer angles wrapped, the gate makes its product under the phase. -/
theorem Options.emit_u3_within (wire : o.qubit = 0 ∨ o.qubit = 1) (a : Angles ℝ) {g : Standard} {params : List ℝ}
    (arity : g.qubits = 1)
    (known : g.matrix? params =
      some (.one (Gate.u3Matrix a.theta (Scalar.wrapAngle a.phi).1 (Scalar.wrapAngle a.lambda).1))) :
    (o.emit (.empty (a.phase - (a.phi + a.lambda) / 2)) g params).Within 0 (placed o.qubit (a.product .z .y)) := by
  have emitted := Options.emit_within wire (a.phase - (a.phi + a.lambda) / 2) known arity (Gate.u3Matrix_unitary _ _ _)
  rwa [Gate.u3Matrix_wrapAngle, u3_product] at emitted

/-- Without a polar angle the gate is a phase by the sum of the outer angles, wrapped. -/
theorem phase_product (a : Angles ℝ) :
    exp ((a.phase - (a.phi + a.lambda) / 2 : ℝ) * I) •
        (Gate.phaseMatrix (Scalar.wrapAngle (a.phi + a.lambda)).1).toMatrix =
      exp (a.phase * I) • Axis.z.rotation (a.phi + a.lambda) := by
  rw [Gate.phaseMatrix_wrapAngle, ← Gate.u3Matrix_zero, u3_product { a with theta := 0 }, flat_product]

theorem oneGate_within (kind : Generic) (wire : o.qubit = 0 ∨ o.qubit = 1) (tolerance : 0 ≤ o.atol) (a : Angles ℝ) :
    (oneGate o kind a).Within (3 / 2 * o.atol) (placed o.qubit (a.product .z .y)) := by
  rw [oneGate, Exact.zero_eq, zero_add, Exact.numeral_eq]
  set phase := a.phase - (a.phi + a.lambda) / 2
  set sum := (Scalar.wrapAngle (a.phi + a.lambda)).1
  have bare (dropped : o.drops a.theta = true) (dropped' : o.drops sum = true) :
      (Sequence.empty phase).Within (3 / 2 * o.atol) (placed o.qubit (a.product .z .y)) := by
    have close := (near_phase o.qubit sum).exp_smul phase
    rw [← placed_smul, phase_product] at close
    exact (((Within.empty phase).near close).near (near_flat dropped .z .y)).mono
      (by linarith [(Options.drops_iff.mp dropped').2])
  split
  · rename_i few
    split
    · rename_i dropped
      exact bare few.2 dropped
    · have known : Standard.u1.matrix? [sum] = some (.one (Gate.phaseMatrix sum)) := rfl
      have emitted := Options.emit_within wire phase known rfl (Gate.phaseMatrix_unitary sum)
      rw [phase_product] at emitted
      exact (emitted.near (near_flat few.2 .z .y)).mono (by linarith)
  · split
    · rename_i few
      have small := (Options.drops_iff.mp few.2).2.le
      have known : Standard.u2.matrix? [(Scalar.wrapAngle a.phi).1, (Scalar.wrapAngle a.lambda).1] = some (.one
          (Gate.u3Matrix Scalar.halfPi (Scalar.wrapAngle a.phi).1 (Scalar.wrapAngle a.lambda).1)) := rfl
      have emitted := Options.emit_u3_within wire { a with theta := Scalar.halfPi } rfl known
      exact (emitted.near (near_polar small .z .y)).mono (by linarith)
    · split
      · rename_i both
        have parts := Bool.and_eq_true_iff.mp both
        exact bare parts.1 parts.2
      · split
        · exact (Options.emit_u3_within wire a rfl rfl).mono (by linarith)
        · exact (Options.emit_u3_within wire a rfl rfl).mono (by linarith)

/-! ## Axes of the equator -/

theorem r_matrix (theta phi : ℝ) : Standard.r.matrix? [theta, phi] = some (.one (Gate.rMatrix theta phi)) := rfl

/-- The rotation by the polar angle about an axis of the equator, after one about the third axis. -/
theorem equator_product (a : Angles ℝ) :
    (Gate.rMatrix a.theta (Scalar.wrapAngle (Real.pi / 2 + a.phi)).1).toMatrix *
        exp (a.phase * I) • Axis.z.rotation (a.phi + a.lambda) = a.product .z .y := by
  have before : -(Real.pi / 2 + a.phi) + (a.phi + a.lambda) = -(Real.pi / 2) + a.lambda := by ring
  rw [Gate.rMatrix_wrapAngle, Gate.toMatrix_rMatrix, Angles.product, ← Axis.rotation_y_eq_turned, Matrix.mul_smul,
    Matrix.mul_assoc, Axis.rotation_mul, before, add_comm (Real.pi / 2), ← Axis.rotation_mul, ← Axis.rotation_mul]
  simp only [Matrix.mul_assoc]

/-- Where the wrapped sum is left out, its whole turns complete the half turn that the phase starts with. -/
theorem unturned_eq (q : ℤ) (phase angle : ℝ) (whole : ℤ) :
    placed q (Axis.z.rotation (angle - 2 * Real.pi * whole)) *
        exp ((Real.pi * (whole + 1) : ℝ) * I) • exp ((phase + Real.pi : ℝ) * I) • 1 =
      placed q (exp (phase * I) • Axis.z.rotation angle) := by
  have phases : exp ((Real.pi * (whole + 1) : ℝ) * I) * exp ((phase + Real.pi : ℝ) * I) =
      exp (phase * I) * exp ((Real.pi * whole : ℝ) * I) := by
    have turns : ((Real.pi * (whole + 1) : ℝ) * I : ℂ) + (phase + Real.pi : ℝ) * I =
        phase * I + (Real.pi * whole : ℝ) * I + 2 * Real.pi * I := by
      push_cast
      ring
    rw [← Complex.exp_add, ← Complex.exp_add, turns, Complex.exp_periodic]
  rw [← Axis.z.exp_smul_rotation angle whole, placed_smul, placed_smul, smul_smul, phases, Matrix.mul_smul, Matrix.mul_one,
    smul_smul]

/-- Two half turns under the half turn that the phase starts with. -/
theorem half_turned_eq (q : ℤ) (phase angle : ℝ) :
    placed q (Gate.rMatrix Real.pi (Scalar.wrapAngle (angle / 2)).1).toMatrix *
        placed q (exp ((phase + Real.pi : ℝ) * I) • (Gate.rMatrix Real.pi 0).toMatrix) =
      placed q (exp (phase * I) • Axis.z.rotation angle) := by
  have late : exp ((phase + Real.pi : ℝ) * I) = -exp (phase * I) := by
    rw [Complex.ofReal_add, add_mul, Complex.exp_add, Complex.exp_pi_mul_I, mul_neg_one]
  rw [placed_mul, Gate.rMatrix_wrapAngle, Matrix.mul_smul, Gate.half_turns, late, neg_smul_neg,
    mul_div_cancel₀ _ two_ne_zero]

/-- Half turns about two axes of the equator, or nothing, make the rotation about the third axis. -/
theorem equator_turn (wire : o.qubit = 0 ∨ o.qubit = 1) (tolerance : 0 ≤ o.atol) (a : Angles ℝ) :
    (if o.drops (Scalar.wrapAngle (a.phi + a.lambda)).1 then
        (Sequence.empty (a.phase + Scalar.pi)).addPhase (Scalar.pi * ((Scalar.wrapAngle (a.phi + a.lambda)).2 + 1))
      else
        o.emit (o.emit (.empty (a.phase + Scalar.pi)) .r [Scalar.pi, 0]) .r
          [Scalar.pi, (Scalar.wrapAngle ((a.phi + a.lambda) / 2)).1]).Within (o.atol / 2)
      (placed o.qubit (exp (a.phase * I) • Axis.z.rotation (a.phi + a.lambda))) := by
  rw [Exact.pi_eq]
  split
  · rename_i dropped
    rw [Exact.wrapAngle_eq] at dropped ⊢
    dsimp only at dropped ⊢
    set whole := Exact.nearestWhole ((a.phi + a.lambda) / (2 * Real.pi))
    have start := (((Within.empty (a.phase + Real.pi)).addPhase (Real.pi * (whole + 1))).drop
      (q := o.qubit) (k := .z) (Options.drops_iff.mp dropped).2.le).mono (zero_add _).le
    rwa [unturned_eq] at start
  · have emitted := (Options.emit_within wire (a.phase + Real.pi) (r_matrix Real.pi 0) rfl
      (Gate.rMatrix_unitary Real.pi 0)).one (r_matrix Real.pi (Scalar.wrapAngle ((a.phi + a.lambda) / 2)).1) rfl wire
      (Gate.rMatrix_unitary _ _)
    rw [half_turned_eq] at emitted
    exact emitted.mono (by linarith)

theorem equatorial_within (wire : o.qubit = 0 ∨ o.qubit = 1) (tolerance : 0 ≤ o.atol) (a : Angles ℝ) :
    (equatorial o a).Within (3 / 2 * o.atol) (placed o.qubit (a.product .z .y)) := by
  have turned := equator_turn wire tolerance a
  rw [equatorial, Exact.zero_eq, zero_add, Exact.one_eq, Exact.numeral_eq, Exact.halfPi_eq]
  dsimp only
  split
  · rename_i dropped
    exact (turned.near (near_flat dropped .z .y)).mono (by linarith)
  · have emitted := turned.one (r_matrix a.theta (Scalar.wrapAngle (Real.pi / 2 + a.phi)).1) rfl wire
      (Gate.rMatrix_unitary _ _)
    rw [placed_mul, equator_product] at emitted
    exact emitted.mono (by linarith)

end GateSets

/-- The product of rotations that a gate set writes a matrix as. -/
def Basis.product (basis : Basis) (u : Mat2 ℝ) : OneQubit :=
  match basis with
  | .zxz => (Angles.zxz u).product .z .x
  | .xyx => (Angles.xyx u).product .x .y
  | .xzx => (Angles.xzx u).product .x .z
  | _ => (Angles.zyz u).product .z .y

/-- It is found in some frame by the angles of one convention. -/
theorem Basis.exists_frame (basis : Basis) : ∃ w : Mat2 ℝ, w.Unitary ∧
    ∀ u, basis.product u = w.toMatrix * (Angles.zyz (w.dagger * u * w)).product .z .y * w.toMatrixᴴ := by
  have standard (u : Mat2 ℝ) : (Angles.zyz u).product .z .y = (Square.identity : Mat2 ℝ).toMatrix *
      (Angles.zyz ((Square.identity : Mat2 ℝ).dagger * u * Square.identity)).product .z .y *
        (Square.identity : Mat2 ℝ).toMatrixᴴ := by
    have same : (Square.identity : Mat2 ℝ).dagger * u * Square.identity = u := by
      apply Square.toMatrix_injective
      simp
    rw [same, Square.toMatrix_identity, Matrix.one_mul, Matrix.conjTranspose_one, Matrix.mul_one]
  cases basis with
  | zxz => exact ⟨_, Square.identity_unitary, fun u => (zxz_eq_zyz u).trans (standard u)⟩
  | xyx => exact ⟨_, quarterTurnY_unitary, xyx_frame⟩
  | xzx => exact ⟨_, cyclicTurn_unitary, xzx_frame⟩
  | zyz | u3 | u | u321 | zsx | zsxx | psx | u1x | rr => exact ⟨_, Square.identity_unitary, standard⟩

/-- For a unitary it is that unitary. -/
theorem Basis.product_eq (basis : Basis) {u : Mat2 ℝ} (unitary : u.Unitary) : basis.product u = u.toMatrix := by
  obtain ⟨w, frame, turned⟩ := basis.exists_frame
  rw [turned, zyz_product_in_frame unitary frame]

/-- Every gate set writes the product of rotations, within one and a half tolerances. -/
theorem emission_within {o : Options ℝ} (wire : o.qubit = 0 ∨ o.qubit = 1) (tolerance : 0 ≤ o.atol) (basis : Basis)
    (u : Mat2 ℝ) : (emission o u basis).Within (3 / 2 * o.atol) (placed o.qubit (basis.product u)) := by
  cases basis with
  | zyz => exact threeRotations_within rz_about ry_about wire tolerance _
  | zxz => exact threeRotations_within rz_about rx_about wire tolerance _
  | xyx => exact threeRotations_within rx_about ry_about wire tolerance _
  | xzx => exact threeRotations_within rx_about rz_about wire tolerance _
  | u3 => exact oneGate_within .u3 wire tolerance _
  | u => exact oneGate_within .u wire tolerance _
  | u321 => exact oneGate_within .fewest wire tolerance _
  | zsx => exact rootSequence_within (RootX.turns_of_rz rfl rfl) wire tolerance _
  | zsxx => exact rootSequence_within (RootX.turns_of_rz rfl rfl) wire tolerance _
  | psx => exact rootSequence_within (RootX.turns_of_phase (.inl rfl) rfl) wire tolerance _
  | u1x => exact rootSequence_within (RootX.turns_of_phase (.inr rfl) rfl) wire tolerance _
  | rr => exact equatorial_within wire tolerance _

/-- Every gate set emits every unitary. -/
theorem emits (basis : Basis) : basis.Emits := by
  intro o u wire tolerance unitary
  refine ⟨emission o u basis, by rw [decompose, if_pos (Square.isFinite_eq u)], ?_⟩
  rw [← basis.product_eq unitary]
  exact emission_within wire tolerance basis u

end Euler

end Entangle

end
