import Mathlib
import Entangle.Proofs.PlainCircuit

/-!
# Pulse-efficient circuits with three controlled-nots

Hadamard gates on both qubits reverse a controlled-not and exchange rotations about the first and the
third axis. The outer rotations of the corrections then leave one rotation on each qubit between two
controlled-nots, and a rotation of the target by a multiple of a half turn moves on to the first layer.
Angles that are close to such a multiple, to zero or to a right angle are taken for these, which costs
less than what the comparison with the target allows, so that the circuit always passes it.
-/

noncomputable section

namespace Entangle

open Matrix Complex
open Gate (hMatrix rxMatrix rzMatrix)
open Synthesis (emit)
open Weyl (Axis Decomposition)

namespace Circuit.Sequence

/-! ## The reversed controlled-not -/

/-- The Hadamard gate. -/
def hadamard : OneQubit := (hMatrix : Mat2 ℝ).toMatrix

theorem hadamard_mul_self : hadamard * hadamard = 1 := by
  rw [hadamard, hMatrix, Mat2.toMatrix_of, Matrix.mul_fin_two, Matrix.one_fin_two]
  simp [Euler.ofReal_sqrtHalf_mul_self]
  norm_num

theorem hadamard_adjoint : hadamardᴴ = hadamard := by
  rw [hadamard, hMatrix, Mat2.toMatrix_of]
  ext i j
  fin_cases i <;> fin_cases j <;> simp

theorem hadamard_mem_unitary : hadamard ∈ unitaryGroup (Fin 2) ℂ := by
  rw [mem_unitaryGroup_iff, Matrix.star_eq_conjTranspose, hadamard_adjoint, hadamard_mul_self]

/-- The Hadamard gate exchanges rotations about the first and the third axis. -/
theorem hadamard_mul_rotation_z (t : ℝ) : hadamard * Axis.z.rotation t = Axis.x.rotation t * hadamard := by
  apply Axis.mul_rotation_of_halfTurn
  rw [hadamard, hMatrix, Mat2.toMatrix_of, Axis.halfTurn, Axis.halfTurn, Matrix.mul_fin_two, Matrix.mul_fin_two]
  simp [mul_comm]

theorem hadamard_mul_rotation_x (t : ℝ) : hadamard * Axis.x.rotation t = Axis.z.rotation t * hadamard := by
  calc
    _ = hadamard * (Axis.x.rotation t * hadamard) * hadamard := by
      rw [Matrix.mul_assoc, Matrix.mul_assoc, hadamard_mul_self, Matrix.mul_one]
    _ = _ := by
      rw [← hadamard_mul_rotation_z, ← Matrix.mul_assoc, hadamard_mul_self, Matrix.one_mul]

theorem hadamard_conj_x_z (s t : ℝ) :
    hadamard * (Axis.x.rotation s * Axis.z.rotation t) * hadamard = Axis.z.rotation s * Axis.x.rotation t := by
  rw [← Matrix.mul_assoc, hadamard_mul_rotation_x, Matrix.mul_assoc (Axis.z.rotation s), hadamard_mul_rotation_z,
    Matrix.mul_assoc, Matrix.mul_assoc, hadamard_mul_self, Matrix.mul_one]

theorem hadamard_conj_z_x (s t : ℝ) :
    hadamard * (Axis.z.rotation s * Axis.x.rotation t) * hadamard = Axis.x.rotation s * Axis.z.rotation t := by
  rw [← Matrix.mul_assoc, hadamard_mul_rotation_z, Matrix.mul_assoc (Axis.x.rotation s), hadamard_mul_rotation_x,
    Matrix.mul_assoc, Matrix.mul_assoc, hadamard_mul_self, Matrix.mul_one]

/-- The controlled-not with qubit 1 as its control. -/
def reversedNot : TwoQubit := (Gate.cxMatrix : Mat4 ℝ).swapQubits.toMatrix

theorem reversedNot_eq : reversedNot = !![1, 0, 0, 0; 0, 1, 0, 0; 0, 0, 0, 1; 0, 0, 1, 0] := by
  have entry (i j : Fin 4) : reversedNot i j = controlledNot (Mat4.exchange i) (Mat4.exchange j) := by
    rw [reversedNot, Square.toMatrix_apply, Mat4.swapQubits, Square.get_ofFn]
    rfl
  have places : Mat4.exchange 0 = 0 ∧ Mat4.exchange 1 = 2 ∧ Mat4.exchange 2 = 1 ∧ Mat4.exchange 3 = 3 := by decide
  obtain ⟨e0, e1, e2, e3⟩ := places
  ext i j
  rw [entry, controlledNot, Gate.cxMatrix, Mat4.toMatrix_of]
  fin_cases i <;> fin_cases j <;> simp [e0, e1, e2, e3]

/-- Hadamard gates on both qubits reverse a controlled-not. -/
theorem controlledNot_eq_reversed :
    controlledNot = tensor hadamard hadamard * reversedNot * tensor hadamard hadamard := by
  have square := Synthesis.FixedFactor.root_mul_root
  rw [reversedNot_eq, controlledNot, Gate.cxMatrix, Mat4.toMatrix_of, hadamard, hMatrix, Mat2.toMatrix_of, ← Matrix.ext_iff]
  simp [Matrix.mul_apply, Fin.sum_univ_four, Fin.forall_fin_succ, Synthesis.FixedFactor.ofReal_sqrtHalf]
  grind

theorem reversedNot_mem_unitary : reversedNot ∈ unitaryGroup (Fin 4) ℂ := by
  rw [mem_unitaryGroup_iff, reversedNot_eq, ← Matrix.ext_iff]
  simp [Matrix.mul_apply, Fin.sum_univ_four, Fin.forall_fin_succ, Matrix.one_apply]

/-- Rotations about the first axis pass its target. -/
theorem rotation_mul_reversedNot (t : ℝ) :
    placed 0 (Axis.x.rotation t) * reversedNot = reversedNot * placed 0 (Axis.x.rotation t) := by
  rw [reversedNot_eq, placed, if_pos rfl, Axis.rotation_x_eq, Matrix.one_fin_two, ← Matrix.ext_iff]
  simp [Matrix.mul_apply, Fin.sum_univ_four, Fin.forall_fin_succ]

theorem twoQubitMatrix_reversed (index : ℕ) :
    Sequence.twoQubitMatrix index ⟨.standard .cx, [], [1, 0]⟩ = .ok (Gate.cxMatrix : Mat4 ℝ).swapQubits :=
  twoQubitMatrix_swapped rfl (Gate.Operation.matrix4_standard rfl) index

theorem Within.reversed {s : Sequence ℝ} {ε : ℝ} {v : TwoQubit} (within : s.Within ε v) :
    (emit s .cx [] [1, 0]).Within ε (reversedNot * v) :=
  within.push reversedNot_mem_unitary fun index => ⟨_, twoQubitMatrix_reversed index, rfl⟩

theorem Within.turned {s : Sequence ℝ} {ε : ℝ} {v : TwoQubit} (within : s.Within ε v) (t : ℝ) {q : ℤ}
    (wire : q = 0 ∨ q = 1) : (emit s .rz [t] [q]).Within ε (placed q (Axis.z.rotation t) * v) := by
  have known : Gate.Standard.rz.matrix? [t] = some (.one (rzMatrix t)) := rfl
  have emitted := within.one known rfl wire (Gate.rzMatrix_unitary t)
  rwa [Gate.toMatrix_rzMatrix] at emitted

end Circuit.Sequence

namespace Synthesis

open Circuit (Sequence)
open Circuit.Sequence (Within controlledNot hadamard hadamard_conj_x_z hadamard_conj_z_x hadamard_mem_unitary
  hadamard_mul_rotation_z controlledNot_eq_reversed near_rotation placed placed_mul placed_smul reversedNot
  reversedNot_mem_unitary rotation_mul_reversedNot)
open FixedFactor (root)

/-! ## The circuit as a product -/

/-- The first layer, with the rotations that the second one gives off and a given last rotation of qubit 0. -/
def threeFirst (a b : Split ℝ) (outer : ℝ) : TwoQubit :=
  tensor (hadamard * (⟨a.left.first, a.left.middle, a.left.last + b.left.first⟩ : Triple ℝ).product .x .z)
    (hadamard * (⟨a.right.first, a.right.middle, outer⟩ : Triple ℝ).product .z .x)

/-- What the second layer leaves before the second controlled-not. -/
def threeSecond (b c : Split ℝ) : TwoQubit :=
  tensor (Axis.z.rotation (b.left.last + c.left.first) * Axis.x.rotation b.left.middle)
    (Axis.x.rotation (b.right.last + c.right.first) * Axis.z.rotation b.right.middle)

/-- What the third layer leaves. -/
def threeThird (c : Split ℝ) : TwoQubit :=
  tensor (Axis.x.rotation c.left.middle) (Axis.z.rotation c.right.middle)

/-- The last layer, with the rotations that the third one gives off. -/
def threeLast (c e : Split ℝ) : TwoQubit :=
  tensor ((⟨c.left.last + e.left.first, e.left.middle, e.left.last⟩ : Triple ℝ).product .x .z * hadamard)
    ((⟨c.right.last + e.right.first, e.right.middle, e.right.last⟩ : Triple ℝ).product .z .x * hadamard)

/-- The unitary of a layer by its angles, without its phase. -/
def Split.matrix (s : Split ℝ) : TwoQubit := tensor (s.left.product .x .z) (s.right.product .z .x)

/-- The pulse form makes the same unitary. -/
theorem three_product (a b c e : Split ℝ) :
    threeLast c e * reversedNot * threeThird c * reversedNot * threeSecond b c * reversedNot *
        threeFirst a b (a.right.last + b.right.first) =
      e.matrix * controlledNot * c.matrix * controlledNot * b.matrix * controlledNot * a.matrix := by
  set both := tensor hadamard hadamard with bothDef
  set firstB := tensor (Axis.x.rotation b.left.first) (Axis.z.rotation b.right.first) with firstBDef
  set lastB := tensor (Axis.x.rotation b.left.last) (Axis.z.rotation b.right.last) with lastBDef
  set firstC := tensor (Axis.x.rotation c.left.first) (Axis.z.rotation c.right.first) with firstCDef
  set lastC := tensor (Axis.x.rotation c.left.last) (Axis.z.rotation c.right.last) with lastCDef
  set middleB := tensor (Axis.z.rotation b.left.middle) (Axis.x.rotation b.right.middle) with middleBDef
  set middleC := tensor (Axis.z.rotation c.left.middle) (Axis.x.rotation c.right.middle) with middleCDef
  have wholeB : b.matrix = lastB * middleB * firstB := by
    rw [lastBDef, middleBDef, firstBDef, tensor_mul_tensor, tensor_mul_tensor]
    rfl
  have wholeC : c.matrix = lastC * middleC * firstC := by
    rw [lastCDef, middleCDef, firstCDef, tensor_mul_tensor, tensor_mul_tensor]
    rfl
  have first : threeFirst a b (a.right.last + b.right.first) = both * firstB * a.matrix := by
    rw [threeFirst, Split.matrix, bothDef, firstBDef, tensor_mul_tensor, tensor_mul_tensor, add_comm a.left.last,
      add_comm a.right.last]
    simp only [Triple.product, ← Axis.rotation_mul, Matrix.mul_assoc]
  have last : threeLast c e = e.matrix * lastC * both := by
    rw [threeLast, Split.matrix, bothDef, lastCDef, tensor_mul_tensor, tensor_mul_tensor, add_comm c.left.last,
      add_comm c.right.last]
    simp only [Triple.product, ← Axis.rotation_mul, Matrix.mul_assoc]
  have second : threeSecond b c = both * (firstC * lastB * middleB) * both := by
    rw [threeSecond, bothDef, firstCDef, lastBDef, middleBDef, add_comm b.left.last, add_comm b.right.last]
    simp only [tensor_mul_tensor, Axis.rotation_mul]
    rw [hadamard_conj_x_z, hadamard_conj_z_x]
  have third : threeThird c = both * middleC * both := by
    have left := hadamard_conj_x_z 0 c.left.middle
    have right := hadamard_conj_z_x 0 c.right.middle
    rw [Axis.rotation_zero, Axis.rotation_zero, Matrix.one_mul, Matrix.one_mul] at left right
    rw [threeThird, bothDef, middleCDef, tensor_mul_tensor, tensor_mul_tensor, left, right]
  calc
    _ = e.matrix * lastC * (both * reversedNot * both) * middleC * (both * reversedNot * both) * (firstC * lastB) *
        middleB * (both * reversedNot * both) * firstB * a.matrix := by
      rw [first, second, third, last]
      simp only [Matrix.mul_assoc]
    _ = e.matrix * (lastC * controlledNot) * middleC * (controlledNot * firstC) * lastB * middleB *
        (controlledNot * firstB) * a.matrix := by
      rw [bothDef, ← controlledNot_eq_reversed]
      simp only [Matrix.mul_assoc]
    _ = _ := by
      rw [lastCDef, firstCDef, firstBDef, ← controlledNot_mul_rotations, controlledNot_mul_rotations c.left.first,
        controlledNot_mul_rotations b.left.first, ← lastCDef, ← firstCDef, ← firstBDef, wholeB, wholeC]
      simp only [Matrix.mul_assoc]

/-- A multiple of a half turn about the first axis keeps rotations about the third, or reverses them if it is odd. -/
theorem half_turns_mul_rotation (k : ℤ) (t : ℝ) :
    Axis.x.rotation (Real.pi * k) * Axis.z.rotation t =
      Axis.z.rotation (if Odd k then -t else t) * Axis.x.rotation (Real.pi * k) := by
  rcases Int.even_or_odd' k with ⟨j, rfl | rfl⟩
  · have whole : Axis.x.rotation (Real.pi * (2 * j : ℤ)) = exp ((Real.pi * j : ℝ) * I) • 1 := by
      have angle : Real.pi * (2 * j : ℤ) - 2 * Real.pi * j = 0 := by
        push_cast
        ring
      rw [← Axis.x.exp_smul_rotation _ j, angle, Axis.rotation_zero]
    rw [if_neg (by simp), whole, Matrix.smul_mul, Matrix.mul_smul, Matrix.one_mul, Matrix.mul_one]
  · have whole : Axis.x.rotation (Real.pi * (2 * j + 1 : ℤ)) = exp ((Real.pi * j : ℝ) * I) • Axis.x.rotation Real.pi := by
      have angle : Real.pi * (2 * j + 1 : ℤ) - 2 * Real.pi * j = Real.pi := by
        push_cast
        ring
      rw [← Axis.x.exp_smul_rotation _ j, angle]
    have reversed : Axis.x.rotation Real.pi * Axis.z.halfTurn = -(Axis.z.halfTurn * Axis.x.rotation Real.pi) := by
      rw [Axis.rotation_x_eq, Axis.halfTurn, Matrix.mul_fin_two, Matrix.mul_fin_two]
      simp
    rw [if_pos (by simp), whole, Matrix.smul_mul, Matrix.mul_smul, Axis.mul_rotation_of_reversed reversed]

/-- Such a rotation moves through the controlled-not to the first layer. -/
theorem fold_half_turns (a b : Split ℝ) (outer middle : ℝ) (k : ℤ) :
    placed 0 (Axis.x.rotation (Real.pi * k)) * (placed 0 (Axis.z.rotation middle) *
        (reversedNot * threeFirst a b outer)) =
      exp ((Real.pi * k : ℝ) * I) • (placed 0 (Axis.z.rotation (if Odd k then -middle else middle)) *
        (reversedNot * threeFirst a b (outer - Real.pi * k))) := by
  have turned : Axis.x.rotation (Real.pi * k) * (hadamard * (⟨a.right.first, a.right.middle, outer⟩ : Triple ℝ).product .z .x) =
      exp ((Real.pi * k : ℝ) * I) •
        (hadamard * (⟨a.right.first, a.right.middle, outer - Real.pi * k⟩ : Triple ℝ).product .z .x) := by
    have angle : Real.pi * k + outer - 2 * Real.pi * k = outer - Real.pi * k := by ring
    rw [Triple.product, Triple.product, ← Matrix.mul_assoc, ← Matrix.mul_assoc, ← Matrix.mul_assoc, ← hadamard_mul_rotation_z]
    simp only [Matrix.mul_assoc]
    rw [← Matrix.mul_assoc (Axis.z.rotation (Real.pi * k)), Axis.rotation_mul, ← Axis.z.exp_smul_rotation _ k, angle]
    simp only [Matrix.smul_mul, Matrix.mul_smul]
  calc
    _ = placed 0 (Axis.x.rotation (Real.pi * k) * Axis.z.rotation middle) * (reversedNot * threeFirst a b outer) := by
      rw [← placed_mul, Matrix.mul_assoc]
    _ = placed 0 (Axis.z.rotation (if Odd k then -middle else middle)) *
        (reversedNot * (placed 0 (Axis.x.rotation (Real.pi * k)) * threeFirst a b outer)) := by
      rw [half_turns_mul_rotation, ← placed_mul, Matrix.mul_assoc, ← Matrix.mul_assoc _ reversedNot,
        rotation_mul_reversedNot, Matrix.mul_assoc]
    _ = _ := by
      have moved : placed 0 (Axis.x.rotation (Real.pi * k)) * threeFirst a b outer =
          exp ((Real.pi * k : ℝ) * I) • threeFirst a b (outer - Real.pi * k) := by
        rw [placed, if_pos rfl, threeFirst, threeFirst, tensor_mul_tensor, turned, Matrix.one_mul, tensor_smul_right]
      rw [moved, Matrix.mul_smul, Matrix.mul_smul]

/-- The sign of a multiple of a half turn. -/
theorem exp_half_turns (k : ℤ) : exp ((Real.pi * k : ℝ) * I) = exp ((if Odd k then Real.pi else 0 : ℝ) * I) := by
  rcases Int.even_or_odd' k with ⟨j, rfl | rfl⟩
  · have angle : ((Real.pi * (2 * j : ℤ) : ℝ) * I : ℂ) = 0 * I + j * (2 * Real.pi * I) := by
      push_cast
      ring
    rw [if_neg (by simp), angle, Complex.exp_periodic.int_mul j, Complex.ofReal_zero]
  · have angle : ((Real.pi * (2 * j + 1 : ℤ) : ℝ) * I : ℂ) = Real.pi * I + j * (2 * Real.pi * I) := by
      push_cast
      ring
    rw [if_pos (by simp), angle, Complex.exp_periodic.int_mul j]

/-- The first layer moves no further than half its last rotation. -/
theorem near_threeFirst (a b : Split ℝ) (s t : ℝ) : Near (|s - t| / 2) (threeFirst a b s) (threeFirst a b t) := by
  set rest := tensor (hadamard * (⟨a.left.first, a.left.middle, a.left.last + b.left.first⟩ : Triple ℝ).product .x .z)
    (Axis.x.rotation a.right.middle * Axis.z.rotation a.right.first) with restDef
  have split (u : ℝ) : threeFirst a b u = placed 0 hadamard * (placed 0 (Axis.z.rotation u) * rest) := by
    rw [threeFirst, placed, placed, if_pos rfl, if_pos rfl, restDef, tensor_mul_tensor, tensor_mul_tensor, Matrix.one_mul,
      Matrix.one_mul, Triple.product, Triple.product, Matrix.mul_assoc (Axis.z.rotation u)]
  have unitary : rest ∈ unitaryGroup (Fin 4) ℂ :=
    tensor_mem_unitary (mul_mem hadamard_mem_unitary (rotations_mem_unitary _ _ _ _ _ _))
      (mul_mem (Axis.x.rotation_mem_unitary _) (Axis.z.rotation_mem_unitary _))
  have chain := (Near.refl (Sequence.placed_mem_unitary 0 hadamard_mem_unitary)).mul
    ((near_rotation 0 .z s t).mul (.refl unitary))
  rw [split, split]
  simpa using chain

/-- Taking an angle for a multiple of a half turn and moving it on costs no more than what they differ by. -/
theorem near_fold (a b : Split ℝ) (outer middle phase : ℝ) {angle δ : ℝ} {k : ℤ} (close : |angle - Real.pi * k| ≤ δ) :
    Near δ
      (exp ((if Odd k then Real.pi else 0 : ℝ) * I) • exp (phase * I) •
        (placed 0 (Axis.z.rotation (if Odd k then -middle else middle)) * (reversedNot * threeFirst a b (outer - angle))))
      (placed 0 (Axis.x.rotation angle) *
        exp (phase * I) • (placed 0 (Axis.z.rotation middle) * (reversedNot * threeFirst a b outer))) := by
  have passed (t : ℝ) : placed 0 (Axis.z.rotation t) * reversedNot ∈ unitaryGroup (Fin 4) ℂ :=
    mul_mem (Sequence.placed_mem_unitary 0 (Axis.z.rotation_mem_unitary t)) reversedNot_mem_unitary
  have moved := (((Near.refl (passed (if Odd k then -middle else middle))).mul
    (near_threeFirst a b (outer - angle) (outer - Real.pi * k))).exp_smul phase).exp_smul (Real.pi * k)
  have joined := ((near_rotation 0 .x (Real.pi * k) angle).mul
    ((Near.refl (passed middle)).mul (near_threeFirst a b outer outer))).exp_smul phase
  rw [Matrix.mul_assoc, Matrix.mul_assoc, smul_comm (exp ((Real.pi * k : ℝ) * I)) (exp (phase * I))
    (_ * (_ * threeFirst a b (outer - Real.pi * k))), ← fold_half_turns] at moved
  rw [Matrix.mul_assoc] at joined
  rw [← exp_half_turns, Matrix.mul_smul]
  refine (moved.trans joined).mono ?_
  rw [sub_sub_sub_cancel_left, abs_sub_comm (Real.pi * k), sub_self, abs_zero]
  linarith

/-! ## The joining rotation -/

theorem isNearAngle_iff (x y : ℝ) : isNearAngle x y = true ↔ |x - y| ≤ 1e-10 := by
  rw [isNearAngle, pulseAtol, decide_eq_true_iff]
  rfl

/-- Where the sine is close to zero, the angle is close to a multiple of a half turn. -/
theorem near_half_turns {x : ℝ} (small : |Real.sin x| ≤ 1e-10) : ∃ k : ℤ, |x - Real.pi * k| ≤ 2e-10 := by
  have positive := Real.pi_pos
  set k := round (x / Real.pi)
  refine ⟨k, ?_⟩
  set y := x - Real.pi * k with yDef
  have inside : |y| ≤ Real.pi / 2 := by
    have half := abs_sub_round (x / Real.pi)
    have scaled : y = Real.pi * (x / Real.pi - k) := by
      rw [yDef, mul_sub, mul_div_cancel₀ _ positive.ne']
    rw [scaled, abs_mul, abs_of_pos positive]
    nlinarith
  have sine : |Real.sin y| = |Real.sin x| := by
    rw [yDef, mul_comm, Real.sin_sub_int_mul_pi, abs_mul, abs_neg_one_zpow, one_mul]
  have slope := Real.mul_abs_le_abs_sin inside
  rw [sine, div_mul_eq_mul_div, div_le_iff₀ positive] at slope
  have bound := Real.pi_le_four
  nlinarith [abs_nonneg (Real.sin x)]

/-- The cosine tells odd multiples from even ones. -/
theorem isNearAngle_cos {x : ℝ} {k : ℤ} (close : |x - Real.pi * k| ≤ 2e-10) :
    isNearAngle (Real.cos x) (-1) = decide (Odd k) := by
  set y := x - Real.pi * k with yDef
  have square : y ^ 2 ≤ (2e-10) ^ 2 := by
    rw [← sq_abs]
    exact pow_le_pow_left₀ (abs_nonneg y) close 2
  have least : 1 - y ^ 2 / 2 ≤ Real.cos y := Real.one_sub_sq_div_two_le_cos
  have most := Real.cos_le_one y
  have turned : Real.cos y = (-1) ^ k * Real.cos x := by rw [yDef, mul_comm, Real.cos_sub_int_mul_pi]
  rw [Bool.eq_iff_iff, isNearAngle_iff, decide_eq_true_iff, abs_le]
  by_cases odd : Odd k
  · rw [odd.neg_one_zpow, neg_one_mul] at turned
    refine iff_of_true ⟨?_, ?_⟩ odd <;> norm_num at square ⊢ <;> linarith
  · rw [(Int.not_odd_iff_even.mp odd).neg_one_zpow, one_mul] at turned
    refine iff_of_false (fun bounds => ?_) odd
    norm_num at square bounds
    linarith

/-- The angle is dropped, kept, or taken for a multiple of a half turn. -/
theorem Join.cases (angle : ℝ) :
    (Join.ofAngle angle = ⟨angle, false, false, false⟩ ∧ |angle| ≤ 1e-10) ∨
      Join.ofAngle angle = ⟨angle, true, false, false⟩ ∨
      ∃ k : ℤ, Join.ofAngle angle = ⟨angle, true, true, decide (Odd k)⟩ ∧ |angle - Real.pi * k| ≤ 2e-10 := by
  rw [Join.ofAngle, Exact.sin_eq, Exact.cos_eq, Exact.zero_eq, Exact.one_eq]
  by_cases zero : isNearAngle angle 0 = true
  · left
    rw [zero]
    rw [isNearAngle_iff, sub_zero] at zero
    exact ⟨rfl, zero⟩
  · right
    rw [Bool.not_eq_true] at zero
    rw [zero]
    by_cases half : isNearAngle (Real.sin angle) 0 = true
    · right
      rw [half]
      rw [isNearAngle_iff, sub_zero] at half
      obtain ⟨k, close⟩ := near_half_turns half
      refine ⟨k, ?_, close⟩
      rw [← isNearAngle_cos close]
      rfl
    · left
      rw [Bool.not_eq_true] at half
      rw [half]
      rfl

/-! ## The emitted circuit -/

namespace Decomposer

section Steps

variable {d : Decomposer ℝ} {s : Sequence ℝ} {ε : ℝ} {v : TwoQubit}

/-- A rotation about the first axis, or the square root of `X` for one near a right angle. -/
theorem rootOrRotation_within (emits : d.options.euler.Emits) (auto : d.options.pulse = .auto) (within : s.Within ε v)
    (theta : ℝ) {q : ℤ} (wire : q = 0 ∨ q = 1) :
    ∃ t, d.rootOrRotation s theta q = .ok t ∧ t.Within (ε + 6e-11) (placed q (Axis.x.rotation theta) * v) := by
  rw [rootOrRotation]
  by_cases near : isNearAngle theta Scalar.halfPi = true
  · refine ⟨_, if_pos near, ?_⟩
    rw [isNearAngle_iff, Exact.halfPi_eq, abs_sub_comm] at near
    have known : Gate.Standard.sx.matrix? [] = some (.one (Gate.sxMatrix : Mat2 ℝ)) := rfl
    have rooted := (within.one known rfl wire Gate.sxMatrix_unitary).subPhase (Real.pi / 4)
    have value : exp (-(Real.pi / 4 : ℝ) * I) • (placed q (Gate.sxMatrix : Mat2 ℝ).toMatrix * v) =
        placed q (Axis.x.rotation (Real.pi / 2)) * v := by
      have phases : exp (-(Real.pi / 4 : ℝ) * I) * exp ((Real.pi / 4 : ℝ) * I) = 1 := by
        rw [← Complex.exp_add, neg_mul, neg_add_cancel, Complex.exp_zero]
      rw [Gate.toMatrix_sxMatrix, placed_smul, Matrix.smul_mul, smul_smul, phases, one_smul]
    have close := (near_rotation q .x (Real.pi / 2) theta).mul (.refl within.intended)
    rw [value] at rooted
    rw [Exact.quarterPi_eq]
    exact (rooted.near close).mono (by linarith)
  · obtain ⟨t, appended, near'⟩ := appendOneQubit_within emits within (Gate.rxMatrix_unitary theta) wire
    refine ⟨t, ?_, ?_⟩
    · rw [if_neg near, if_neg (by rw [auto]; decide), appended]
      rfl
    · rw [Gate.toMatrix_rxMatrix] at near'
      exact near'.mono (by norm_num)

end Steps

section Pieces

variable {α : Type} [Scalar α]

/-- The first layer as it is emitted. -/
def threeFirstLayer (a b : Split α) (outer : α) : Layer α :=
  ⟨hMatrix * rzMatrix outer * rxMatrix a.right.middle * rzMatrix a.right.first,
    hMatrix * rxMatrix (a.left.last + b.left.first) * rzMatrix a.left.middle * rxMatrix a.left.first⟩

/-- The last layer as it is emitted. -/
def threeLastLayer (c e : Split α) : Layer α :=
  ⟨rzMatrix e.right.last * rxMatrix e.right.middle * rzMatrix (c.right.last + e.right.first) * hMatrix,
    rxMatrix e.left.last * rzMatrix e.left.middle * rxMatrix (c.left.last + e.left.first) * hMatrix⟩

/-- The sequence up to the joining rotation. -/
def threeStart (d : Decomposer α) (a b : Split α) (join : Join α) (phase : α) : Attempt α (Sequence α) := do
  let outer := a.right.last + b.right.first
  let outer := if join.isFold then outer - join.angle else outer
  let s ← Attempt.ofOutcome <| d.appendLayer (.empty phase) (threeFirstLayer a b outer)
  let s := emit s .cx [] [1, 0]
  let s :=
    if join.isOdd then (emit s .rz [-b.right.middle] [0]).addPhase Scalar.pi
    else emit s .rz [b.right.middle] [0]
  if join.isTurn && !join.isFold then d.rootOrRotation s join.angle 0 else .ok s

/-- The sequence after it. -/
def threeFinish (d : Decomposer α) (b c e : Split α) (s : Sequence α) : Attempt α (Sequence α) := do
  let s ← d.rootOrRotation s b.left.middle 1
  let s := emit s .rz [b.left.last + c.left.first] [1]
  let s := emit s .cx [] [1, 0]
  let s := emit s .rz [c.right.middle] [0]
  let s ← d.rootOrRotation s c.left.middle 1
  let s := emit s .cx [] [1, 0]
  Attempt.ofOutcome <| d.appendLayer s (threeLastLayer c e)

theorem threeGateSequence_eq (d : Decomposer α) (a b c e : Split α) (phase : α) :
    d.threeGateSequence a b c e phase =
      d.threeStart a b (.ofAngle (b.right.last + c.right.first)) phase >>= d.threeFinish b c e := by
  rw [threeGateSequence, threeStart, bind_assoc]
  refine bind_congr fun s => ?_
  dsimp only
  split <;> rfl

end Pieces

theorem toMatrix_threeFirstLayer (a b : Split ℝ) (outer : ℝ) :
    (threeFirstLayer a b outer).matrix.toMatrix = threeFirst a b outer := by
  simp [threeFirstLayer, threeFirst, Triple.product, Sequence.hadamard, Matrix.mul_assoc]

theorem toMatrix_threeLastLayer (c e : Split ℝ) : (threeLastLayer c e).matrix.toMatrix = threeLast c e := by
  simp [threeLastLayer, threeLast, Triple.product, Sequence.hadamard, Matrix.mul_assoc]

theorem threeFirstLayer_unitary (a b : Split ℝ) (outer : ℝ) : (threeFirstLayer a b outer).Unitary := by
  have frame : (hMatrix : Mat2 ℝ).Unitary := hadamard_mem_unitary
  exact ⟨Mat2.unitary_mul (Mat2.unitary_mul (Mat2.unitary_mul frame (Gate.rzMatrix_unitary _)) (Gate.rxMatrix_unitary _))
      (Gate.rzMatrix_unitary _),
    Mat2.unitary_mul (Mat2.unitary_mul (Mat2.unitary_mul frame (Gate.rxMatrix_unitary _)) (Gate.rzMatrix_unitary _))
      (Gate.rxMatrix_unitary _)⟩

theorem threeLastLayer_unitary (c e : Split ℝ) : (threeLastLayer c e).Unitary := by
  have frame : (hMatrix : Mat2 ℝ).Unitary := hadamard_mem_unitary
  exact ⟨Mat2.unitary_mul (Mat2.unitary_mul (Mat2.unitary_mul (Gate.rzMatrix_unitary _) (Gate.rxMatrix_unitary _))
      (Gate.rzMatrix_unitary _)) frame,
    Mat2.unitary_mul (Mat2.unitary_mul (Mat2.unitary_mul (Gate.rxMatrix_unitary _) (Gate.rzMatrix_unitary _))
      (Gate.rxMatrix_unitary _)) frame⟩

variable {d : Decomposer ℝ}

/-- The sequence after the first controlled-not, for a given last rotation of the first layer. -/
theorem threeFirst_within (emits : d.options.euler.Emits) (a b : Split ℝ) (outer middle phase : ℝ) :
    ∃ s, d.appendLayer (.empty phase) (threeFirstLayer a b outer) = .ok s ∧
      (emit (emit s .cx [] [1, 0]) .rz [middle] [0]).Within 3e-12 (exp (phase * I) •
        (placed 0 (Axis.z.rotation middle) * (reversedNot * threeFirst a b outer))) := by
  obtain ⟨s, appended, near⟩ := appendLayer_within emits (Within.empty phase) (threeFirstLayer_unitary a b outer)
  have emitted := near.reversed.turned middle (.inl rfl)
  rw [toMatrix_threeFirstLayer, zero_add] at emitted
  simp only [Matrix.mul_smul, Matrix.mul_one] at emitted
  exact ⟨s, appended, emitted⟩

/-- Whatever becomes of the joining rotation, the sequence up to it stays close to one that has it. -/
theorem threeStart_within (emits : d.options.euler.Emits) (auto : d.options.pulse = .auto) (a b : Split ℝ)
    (angle phase : ℝ) :
    ∃ s, d.threeStart a b (.ofAngle angle) phase = .ok s ∧
      s.Within 3e-10 (placed 0 (Axis.x.rotation angle) * (exp (phase * I) •
        (placed 0 (Axis.z.rotation b.right.middle) * (reversedNot * threeFirst a b (a.right.last + b.right.first))))) := by
  rcases Join.cases angle with ⟨join, small⟩ | join | ⟨k, join, close⟩
  · obtain ⟨s, appended, near⟩ := threeFirst_within emits a b (a.right.last + b.right.first) b.right.middle phase
    refine ⟨emit (emit s .cx [] [1, 0]) .rz [b.right.middle] [0], ?_, (near.drop small).mono (by norm_num)⟩
    rw [threeStart, join]
    dsimp only
    rw [if_neg (by decide), appended]
    rfl
  · obtain ⟨s, appended, near⟩ := threeFirst_within emits a b (a.right.last + b.right.first) b.right.middle phase
    obtain ⟨t, turned, near'⟩ := rootOrRotation_within emits auto near angle (.inl rfl)
    refine ⟨t, ?_, near'.mono (by norm_num)⟩
    rw [threeStart, join]
    dsimp only
    rw [if_neg (by decide), appended]
    exact turned
  · obtain ⟨s, appended, near⟩ := threeFirst_within emits a b (a.right.last + b.right.first - angle)
      (if Odd k then -b.right.middle else b.right.middle) phase
    refine ⟨(emit (emit s .cx [] [1, 0]) .rz [if Odd k then -b.right.middle else b.right.middle] [0]).addPhase
      (if Odd k then Real.pi else 0), ?_, ?_⟩
    · rw [threeStart, join]
      dsimp only
      rw [if_pos rfl, appended]
      by_cases odd : Odd k
      · rw [if_pos odd, if_pos odd, ← Exact.pi_eq]
        simp [odd, Attempt.ofOutcome, Except.mapError, bind, Except.bind]
      · rw [if_neg odd, if_neg odd]
        simp [odd, Attempt.ofOutcome, Except.mapError, bind, Except.bind, Sequence.addPhase]
    · exact ((near.addPhase (if Odd k then Real.pi else 0)).near (near_fold a b _ _ phase close)).mono (by norm_num)

/-- From there, the two tests for a right angle and the last layer cost little more. -/
theorem threeFinish_within (emits : d.options.euler.Emits) (auto : d.options.pulse = .auto) {s : Sequence ℝ} {ε : ℝ}
    {v : TwoQubit} (within : s.Within ε v) (b c e : Split ℝ) :
    ∃ t, d.threeFinish b c e s = .ok t ∧
      t.Within (ε + 2e-10) (threeLast c e * reversedNot * threeThird c * reversedNot *
        placed 1 (Axis.z.rotation (b.left.last + c.left.first) * Axis.x.rotation b.left.middle) * v) := by
  obtain ⟨s₁, turned, near₁⟩ := rootOrRotation_within emits auto within b.left.middle (.inr rfl)
  have between := ((near₁.turned (b.left.last + c.left.first) (.inr rfl)).reversed).turned c.right.middle (.inl rfl)
  obtain ⟨s₂, turned', near₂⟩ := rootOrRotation_within emits auto between c.left.middle (.inr rfl)
  obtain ⟨t, closed, near₃⟩ := appendLayer_within emits near₂.reversed (threeLastLayer_unitary c e)
  refine ⟨t, ?_, ?_⟩
  · rw [threeFinish, turned]
    change (d.rootOrRotation _ c.left.middle 1).bind _ = _
    rw [turned']
    exact congrArg Attempt.ofOutcome closed
  · rw [toMatrix_threeLastLayer] at near₃
    rw [threeThird, tensor_eq_placed, ← placed_mul]
    simp only [Matrix.mul_assoc]
    exact near₃.mono (by linarith)

/-- The whole sequence is close to the product of the layers with controlled-nots between them. -/
theorem threeGateSequence_within (emits : d.options.euler.Emits) (auto : d.options.pulse = .auto) (a b c e : Split ℝ)
    (phase : ℝ) :
    ∃ s, d.threeGateSequence a b c e phase = .ok s ∧
      s.Within 5e-10 (exp (phase * I) •
        (e.matrix * controlledNot * c.matrix * controlledNot * b.matrix * controlledNot * a.matrix)) := by
  obtain ⟨s, started, near⟩ := threeStart_within emits auto a b (b.right.last + c.right.first) phase
  obtain ⟨t, finished, near'⟩ := threeFinish_within emits auto near b c e
  refine ⟨t, ?_, ?_⟩
  · rw [threeGateSequence_eq, started]
    exact finished
  · rw [← three_product, threeSecond, tensor_eq_placed, ← placed_mul 0]
    simp only [Matrix.mul_assoc, Matrix.mul_smul] at near' ⊢
    exact near'.mono (by norm_num)

/-- With an exact basis decomposition, what the layers make is the target. -/
theorem toMatrix_layers (basis : d.ExactBasis Gate.cxMatrix) {target : Decomposition ℝ} (factored : target.Factored)
    {a b c e : Layer ℝ} (layers : d.corrections 3 target = [a, b, c, e]) :
    exp ((target.phase - 3 * d.basis.phase + (a.phase + b.phase + c.phase + e.phase) : ℝ) * I) •
        (e.split.matrix * controlledNot * c.split.matrix * controlledNot * b.split.matrix * controlledNot *
          a.split.matrix) = target.reconstruct.toMatrix := by
  have units := corrections_unitary basis factored 3
  rw [layers] at units
  have value (layer : Layer ℝ) (member : layer ∈ [a, b, c, e]) :
      layer.matrix.toMatrix = exp (layer.phase * I) • layer.split.matrix := Layer.toMatrix_split (units layer member)
  have exact : (d.circuit Gate.cxMatrix 3 target).toMatrix = target.reconstruct.toMatrix := by
    rw [toMatrix_circuit basis, Decomposition.reconstruct, Weyl.toMatrix_form, reached]
  have phases : exp ((target.phase - 3 * d.basis.phase + (a.phase + b.phase + c.phase + e.phase) : ℝ) * I) =
      exp (d.startPhase 3 target * I) *
        (exp (a.phase * I) * (exp (b.phase * I) * (exp (c.phase * I) * exp (e.phase * I)))) := by
    have three : ((3 : Fin 4) : ℕ) = 3 := rfl
    rw [startPhase, if_neg (by decide), Exact.ofNat_eq, three]
    simp only [← Complex.exp_add]
    push_cast
    ring_nf
  rw [← exact, circuit, Square.toMatrix_scale, Cx.toComplex_cis, layers, phases]
  simp only [interleaved, Mat4.toMatrix_mul]
  rw [value a (by simp), value b (by simp), value c (by simp), value e (by simp), ← controlledNot]
  simp only [Matrix.mul_smul, Matrix.smul_mul, smul_smul]

/-- Entries that are close have close parts. -/
theorem isClose_of_near {u v : Mat4 ℝ} {ε : ℝ} (near : Near ε u.toMatrix v.toMatrix) : u.isClose v ε = true := by
  rw [Square.isClose, Square.all₂_iff]
  intro i j
  have entry := near.entry i j
  rw [Square.toMatrix_apply, Square.toMatrix_apply] at entry
  rw [Cx.isClose, Bool.and_eq_true_iff, decide_eq_true_iff, decide_eq_true_iff]
  exact ⟨(Complex.abs_re_le_norm _).trans entry, (Complex.abs_im_le_norm _).trans entry⟩

/-- The pulse form with three controlled-nots is found: its circuit is close enough to the target to pass the
comparison with it. -/
theorem exists_threeGatePulse (auto : d.options.pulse = .auto) (rooted : d.options.euler = .zsx ∨ d.options.euler = .zsxx)
    (basis : d.ExactBasis Gate.cxMatrix) {target : Decomposition ℝ} (factored : target.Factored) :
    ∃ s, d.threeGatePulse (d.corrections 3 target) target = .ok s ∧ s.Within 5e-10 target.reconstruct.toMatrix := by
  obtain ⟨a, b, c, e, layers⟩ : ∃ a b c e, d.corrections 3 target = [a, b, c, e] := ⟨_, _, _, _, rfl⟩
  obtain ⟨s, sequenced, near⟩ := threeGateSequence_within (Euler.emits_rooted rooted) auto a.split b.split c.split e.split
    (target.phase - 3 * d.basis.phase + (a.phase + b.phase + c.phase + e.phase))
  rw [toMatrix_layers basis factored layers] at near
  obtain ⟨u, computed, close⟩ := near.unitary
  have passes : u.isClose target.reconstruct 1e-9 = true := isClose_of_near (close.mono (by norm_num))
  have total : 0 + ([a, b, c, e].map Layer.phase).sum = a.phase + b.phase + c.phase + e.phase := by simp [add_assoc]
  refine ⟨s, ?_, near⟩
  rw [threeGatePulse, layers, splitLayers_eq]
  change (d.threeGateSequence a.split b.split c.split e.split _).bind _ = _
  rw [Exact.zero_eq, total, Exact.numeral_eq, sequenced]
  change (Attempt.ofOutcome s.unitary).bind _ = _
  rw [computed]
  exact if_pos passes

/-- The pulse form with three controlled-nots always applies: its circuit passes the comparison with the target. -/
theorem threeGatePulse_applies (standard : d.gate = .standard .cx) (auto : d.options.pulse = .auto)
    (rooted : d.options.euler = .zsx ∨ d.options.euler = .zsxx) (basis : d.ExactBasis Gate.cxMatrix)
    {target : Decomposition ℝ} (factored : target.Factored) :
    ∃ (s : Sequence ℝ) (u : Mat4 ℝ), d.threeGatePulse (d.corrections3 target) target = .ok s ∧ s.unitary = .ok u ∧
      u.isClose target.reconstruct 1e-9 = true ∧ d.realize 3 target = .ok s := by
  obtain ⟨s, applied, near⟩ := exists_threeGatePulse auto rooted basis factored
  obtain ⟨u, computed, close⟩ := near.unitary
  have passes : u.isClose target.reconstruct 1e-9 = true := isClose_of_near (close.mono (by norm_num))
  have formed : d.pulse 3 (d.corrections 3 target) target = .ok s := by
    rw [pulse, if_neg (by decide), if_neg (by rcases rooted with euler | euler <;> simp [euler]),
      if_neg (by simp [standard, Gate.Operation.isStandard]), if_neg (by decide), applied]
  refine ⟨s, u, applied, computed, passes, ?_⟩
  rw [realize, if_neg (by rw [auto]; decide), formed]

/-- The canonical decomposition of the controlled-not. -/
def controlledNotBasis : Decomposition ℝ :=
  { factorless (Real.pi / 4) 0 0 with
    phase := Real.pi / 4
    k1l := rxMatrix (Real.pi / 2)
    k1r := rzMatrix (Real.pi / 2) * hMatrix
    k2r := hMatrix
    unitary := Gate.cxMatrix }

theorem controlledNotBasis_reconstruct : controlledNotBasis.reconstruct = Gate.cxMatrix := by
  have half_root := FixedFactor.root_mul_root
  have square : I * I = -1 := Complex.I_mul_I
  have forth : exp (Real.pi / 4 * I) = root * (1 + I) := by
    rw [Complex.exp_mul_I, FixedFactor.cos_quarter_pi, FixedFactor.sin_quarter_pi]
    ring
  have back : exp (-(Real.pi / 4 * I)) = root * (1 - I) := by
    rw [← neg_mul, Complex.exp_mul_I, Complex.cos_neg, Complex.sin_neg, FixedFactor.cos_quarter_pi,
      FixedFactor.sin_quarter_pi]
    ring
  have angle : (Real.pi / 2 / 2 : ℂ) = Real.pi / 4 := by ring
  apply Square.toMatrix_injective
  rw [Decomposition.reconstruct, Weyl.toMatrix_form, Weyl.dressed, Weyl.coupling_eq_cross, Weyl.cross]
  simp only [controlledNotBasis, factorless, Mat2.toMatrix_mul, Gate.toMatrix_rxMatrix, Gate.toMatrix_rzMatrix,
    Axis.rotation_x_eq, Axis.rotation_z_eq, hMatrix, Mat2.toMatrix_of, Square.toMatrix_identity, Matrix.one_fin_two,
    Gate.cxMatrix, Mat4.toMatrix_of]
  rw [← Matrix.ext_iff]
  simp [Weyl.angles, Matrix.mul_apply, Fin.sum_univ_four, Fin.forall_fin_succ, FixedFactor.ofReal_sqrtHalf, angle, forth,
    back, FixedFactor.cos_quarter_pi, FixedFactor.sin_quarter_pi]
  generalize I = i, root = h at *
  grind

/-- The decomposer over the controlled-not with its exact decomposition. -/
def exactControlledNot (mode : PulseMode) : Decomposer ℝ where
  gate := .standard .cx
  params := []
  options := (Options.default.withEuler .zsx).withPulse mode
  basis := controlledNotBasis
  two := .ofBasis controlledNotBasis
  three := .ofBasis controlledNotBasis

theorem exactControlledNot_exactBasis (mode : PulseMode) : (exactControlledNot mode).ExactBasis Gate.cxMatrix where
  stored := Gate.Operation.matrix4_standard rfl
  exact := controlledNotBasis_reconstruct
  first := rfl
  third := rfl
  outerLeft := Gate.rxMatrix_unitary _
  outerRight := Mat2.unitary_mul (Gate.rzMatrix_unitary _) hadamard_mem_unitary
  innerLeft := Square.identity_unitary
  innerRight := hadamard_mem_unitary
  two := rfl
  three := rfl

theorem threeGatePulse_applies_controlledNot :
    ∃ (s : Sequence ℝ) (u : Mat4 ℝ),
      (exactControlledNot .auto).threeGatePulse ((exactControlledNot .auto).corrections3 (factorless 3 2 1))
          (factorless 3 2 1) = .ok s ∧
        s.unitary = .ok u ∧ u.isClose (factorless 3 2 1).reconstruct 1e-9 = true ∧
          (exactControlledNot .auto).realize 3 (factorless 3 2 1) = .ok s :=
  threeGatePulse_applies rfl rfl (.inl rfl) (exactControlledNot_exactBasis .auto) (factorless_factored 3 2 1)

end Decomposer

end Synthesis

end Entangle

end
