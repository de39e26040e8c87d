import Mathlib
import Entangle.Proofs.Rotations

/-!
# What commutes with an interaction

An interaction with coinciding angles commutes with more than the half turns. With three equal angles
it is a mixture of the identity and the exchange of the qubits, with two it commutes with equal
rotations about the third axis, and with one angle alone it commutes with all rotations about it.
-/

noncomputable section

namespace Entangle.Weyl

open Matrix Complex

/-! ## The exchange -/

/-- The exchange of the qubits. -/
def exchange : TwoQubit := cross 1 0 0 1

theorem exchange_mul_tensor (a b : OneQubit) : exchange * tensor a b = tensor b a * exchange := by
  rw [exchange, cross, ← Matrix.ext_iff]
  simp [Matrix.mul_apply, Fin.sum_univ_four, Fin.forall_fin_succ, mul_comm]

theorem cross_eq_mixture (d o : ℂ) : cross (d + o) 0 d o = d • 1 + o • exchange := by
  rw [exchange, cross, cross, ← Matrix.ext_iff]
  simp [Fin.forall_fin_succ, Matrix.one_apply]

/-- With three equal angles, a mixture of the identity and the exchange. -/
theorem coupling_equal (x : ℝ) :
    coupling (angles x x x) =
      (exp (-x * I) * cos (x + x)) • 1 + (I * exp (-x * I) * sin (x + x)) • exchange := by
  have sum : exp (x * I) = exp (-x * I) * cos (x + x) + I * exp (-x * I) * sin (x + x) := by
    have split : exp (x * I) = exp (-x * I) * exp ((x + x) * I) := by
      rw [← Complex.exp_add]
      ring_nf
    rw [split, Complex.exp_mul_I (x + x)]
    ring
  rw [← cross_eq_mixture, ← sum, coupling_eq_cross]
  simp [angles]

theorem tensor_self_mul_coupling (v : OneQubit) (x : ℝ) :
    tensor v v * coupling (angles x x x) = coupling (angles x x x) * tensor v v := by
  rw [coupling_equal, Matrix.mul_add, Matrix.add_mul, Matrix.mul_smul, Matrix.mul_smul, Matrix.smul_mul,
    Matrix.smul_mul, exchange_mul_tensor, Matrix.mul_one, Matrix.one_mul]

/-- At an eighth of a turn about every axis, the factors change places. -/
theorem tensor_mul_coupling_eighth (a b : OneQubit) :
    tensor a b * coupling (angles (Real.pi / 4) (Real.pi / 4) (Real.pi / 4)) =
      coupling (angles (Real.pi / 4) (Real.pi / 4) (Real.pi / 4)) * tensor b a := by
  have half : ((Real.pi / 4 : ℝ) + (Real.pi / 4 : ℝ) : ℂ) = Real.pi / 2 := by
    push_cast
    ring
  rw [coupling_equal, half, Complex.cos_pi_div_two, mul_zero, zero_smul, zero_add, Matrix.mul_smul,
    Matrix.smul_mul, exchange_mul_tensor]

/-! ## Rotations about one axis -/

theorem rotation_z_tensor (s t : ℝ) : tensor (Axis.z.rotation s) (Axis.z.rotation t) =
    diagonal ![exp (-(s / 2 * I)) * exp (-(t / 2 * I)), exp (-(s / 2 * I)) * exp (t / 2 * I),
      exp (s / 2 * I) * exp (-(t / 2 * I)), exp (s / 2 * I) * exp (t / 2 * I)] := by
  rw [Axis.rotation_z_eq, Axis.rotation_z_eq, ← Matrix.ext_iff]
  simp [Fin.forall_fin_succ]

/-- Equal rotations about the third axis pass the interaction with two equal angles. -/
theorem rotation_z_mul_coupling (t a c : ℝ) :
    tensor (Axis.z.rotation t) (Axis.z.rotation t) * coupling (angles a a c) =
      coupling (angles a a c) * tensor (Axis.z.rotation t) (Axis.z.rotation t) := by
  rw [rotation_z_tensor, mul_comm (exp (t / 2 * I)) (exp (-(t / 2 * I))), coupling_eq_cross, cross,
    ← Matrix.ext_iff]
  simp only [Matrix.diagonal_mul, Matrix.mul_diagonal, Fin.forall_fin_succ]
  simp [angles, mul_comm]

/-- Between eighths of a turn, rotations about the third axis change places. -/
theorem rotation_z_mul_coupling_eighths (s t c : ℝ) :
    tensor (Axis.z.rotation s) (Axis.z.rotation t) * coupling (angles (Real.pi / 4) (Real.pi / 4) c) =
      coupling (angles (Real.pi / 4) (Real.pi / 4) c) *
        tensor (Axis.z.rotation t) (Axis.z.rotation s) := by
  have half : (Real.pi / 4 + Real.pi / 4 : ℂ) = Real.pi / 2 := by ring
  rw [rotation_z_tensor, rotation_z_tensor, coupling_eq_cross, cross, ← Matrix.ext_iff]
  simp only [Matrix.diagonal_mul, Matrix.mul_diagonal, Fin.forall_fin_succ]
  simp [angles, half, mul_comm]

theorem Axis.rotation_mul_halfTurn (k : Axis) (t : ℝ) :
    k.rotation t * k.halfTurn = k.halfTurn * k.rotation t := by
  simp [Axis.rotation, Matrix.sub_mul, Matrix.mul_sub]

/-- Rotations about the first axis pass the interaction about it. -/
theorem rotation_x_mul_coupling_single (s t a : ℝ) :
    tensor (Axis.x.rotation s) (Axis.x.rotation t) * coupling (angles a 0 0) =
      coupling (angles a 0 0) * tensor (Axis.x.rotation s) (Axis.x.rotation t) := by
  have single : angles a 0 0 = Pi.single .x a := by
    funext k
    cases k <;> simp [angles]
  have pass := mul_couple_of_pair (w := tensor (Axis.x.rotation s) (Axis.x.rotation t)) (k := .x) (.inl rfl)
    (by
      rw [Axis.pair, tensor_mul_tensor, tensor_mul_tensor, Axis.rotation_mul_halfTurn,
        Axis.rotation_mul_halfTurn]
      simp) a
  rwa [one_mul, ← coupling_single, ← single] at pass

theorem tensor_mul_cross (c s : ℂ) {d0 o0 d1 o1 : ℂ} (sum : d0 + o0 = d1 + o1) :
    tensor !![c, s; s, c] !![c, s; s, c] * cross d0 o0 d1 o1 =
      cross d0 o0 d1 o1 * tensor !![c, s; s, c] !![c, s; s, c] := by
  have first : d0 = d1 + o1 - o0 := by linear_combination sum
  rw [first, cross, ← Matrix.ext_iff]
  simp [Matrix.mul_apply, Fin.sum_univ_four, Fin.forall_fin_succ]
  ring_nf
  simp

/-- Equal rotations about the first axis pass the interaction with the other two angles equal. -/
theorem rotation_x_mul_coupling (t a b : ℝ) :
    tensor (Axis.x.rotation t) (Axis.x.rotation t) * coupling (angles a b b) =
      coupling (angles a b b) * tensor (Axis.x.rotation t) (Axis.x.rotation t) := by
  have outer : exp (b * I) * cos (a - b) + I * exp (b * I) * sin (a - b) = exp (a * I) := by
    have split : exp (a * I) = exp (b * I) * exp ((a - b) * I) := by
      rw [← Complex.exp_add]
      ring_nf
    rw [split, Complex.exp_mul_I (a - b)]
    ring
  have inner : exp (-b * I) * cos (a + b) + I * exp (-b * I) * sin (a + b) = exp (a * I) := by
    have split : exp (a * I) = exp (-b * I) * exp ((a + b) * I) := by
      rw [← Complex.exp_add]
      ring_nf
    rw [split, Complex.exp_mul_I (a + b)]
    ring
  rw [Axis.rotation_x_eq, coupling_eq_cross]
  exact tensor_mul_cross _ _ (outer.trans inner.symm)

/-! ## Reversed angles -/

/-- What commutes with the interaction after two of its angles are reversed commutes with it once half
turns stand around its low factor. -/
theorem flipped_mul_coupling (k : Axis) {a b : OneQubit} {θ : Axis → ℝ}
    (commutes : tensor a b * coupling (k.sense * θ) = coupling (k.sense * θ) * tensor a b) :
    tensor a (k.halfTurn * b * k.halfTurn) * coupling θ =
      coupling θ * tensor a (k.halfTurn * b * k.halfTurn) := by
  have split : tensor a (k.halfTurn * b * k.halfTurn) =
      tensor 1 k.halfTurn * tensor a b * tensor 1 k.halfTurn := by
    rw [tensor_mul_tensor, tensor_mul_tensor, Matrix.one_mul, Matrix.mul_one]
  have back := halfTurn_right_mul_coupling k (k.sense * θ)
  rw [sense_mul_sense_mul] at back
  rw [split]
  calc
    _ = tensor 1 k.halfTurn * tensor a b * (tensor 1 k.halfTurn * coupling θ) := by
      simp only [Matrix.mul_assoc]
    _ = tensor 1 k.halfTurn * (tensor a b * coupling (k.sense * θ)) * tensor 1 k.halfTurn := by
      rw [halfTurn_right_mul_coupling]
      simp only [Matrix.mul_assoc]
    _ = tensor 1 k.halfTurn * coupling (k.sense * θ) * tensor a b * tensor 1 k.halfTurn := by
      rw [commutes]
      simp only [Matrix.mul_assoc]
    _ = _ := by
      rw [back]
      simp only [Matrix.mul_assoc]

end Entangle.Weyl

end
