import Mathlib
import Entangle.Proofs.SequenceDenotation

/-!
# Sequences within a tolerance

Distances between unitaries in the operator norm add up along products, and a rotation is no further
from the identity than half its angle. A sequence that denotes a unitary within a tolerance of an
intended one keeps that tolerance under exact gates, and adds up tolerances with every inexact one.
-/

noncomputable section

namespace Entangle

open Matrix Complex
open scoped Matrix.Norms.L2Operator

/-- Unitaries at most a given distance apart. -/
structure Near (ε : ℝ) (v w : TwoQubit) : Prop where
  left : v ∈ unitaryGroup (Fin 4) ℂ
  right : w ∈ unitaryGroup (Fin 4) ℂ
  close : ‖v - w‖ ≤ ε

namespace Near

variable {ε δ : ℝ} {u v w z : TwoQubit}

theorem refl (unitary : v ∈ unitaryGroup (Fin 4) ℂ) : Near 0 v v :=
  ⟨unitary, unitary, by rw [sub_self, norm_zero]⟩

theorem symm (near : Near ε v w) : Near ε w v :=
  ⟨near.right, near.left, by
    rw [norm_sub_rev]
    exact near.close⟩

theorem trans (first : Near ε u v) (second : Near δ v w) : Near (ε + δ) u w :=
  ⟨first.left, second.right, (norm_sub_le_norm_sub_add_norm_sub u v w).trans (add_le_add first.close second.close)⟩

theorem mono (near : Near ε v w) (le : ε ≤ δ) : Near δ v w := ⟨near.left, near.right, near.close.trans le⟩

/-- Distances add up along a product. -/
theorem mul (first : Near ε u v) (second : Near δ w z) : Near (ε + δ) (u * w) (v * z) := by
  refine ⟨mul_mem first.left second.left, mul_mem first.right second.right, ?_⟩
  have split : u * w - v * z = (u - v) * w + v * (w - z) := by
    rw [Matrix.sub_mul, Matrix.mul_sub, sub_add_sub_cancel]
  rw [split]
  refine (norm_add_le _ _).trans (add_le_add ?_ ?_)
  · rw [CStarRing.norm_mul_mem_unitary _ second.left]
    exact first.close
  · rw [CStarRing.norm_mem_unitary_mul _ first.right]
    exact second.close

/-- A common phase leaves the distance. -/
theorem exp_smul (t : ℝ) (near : Near ε v w) : Near ε (exp (t * I) • v) (exp (t * I) • w) := by
  refine ⟨exp_smul_mem_unitary t near.left, exp_smul_mem_unitary t near.right, ?_⟩
  rw [← smul_sub, norm_smul, Complex.norm_exp_ofReal_mul_I, one_mul]
  exact near.close

/-- Adjoints are as far apart. -/
theorem adjoint (near : Near ε v w) : Near ε vᴴ wᴴ := by
  refine ⟨Unitary.star_mem near.left, Unitary.star_mem near.right, ?_⟩
  rw [← Matrix.conjTranspose_sub, Matrix.l2_opNorm_conjTranspose]
  exact near.close

/-- A phase is no further from the identity than its angle. -/
theorem phase (t : ℝ) : Near |t| 1 (exp (t * I) • (1 : TwoQubit)) := by
  refine ⟨one_mem _, exp_smul_mem_unitary t (one_mem _), ?_⟩
  have distance : ‖exp (I * t) - 1‖ ≤ ‖t‖ := Real.norm_exp_I_mul_ofReal_sub_one_le
  have factor : (1 : TwoQubit) - exp (t * I) • 1 = (1 - exp (t * I)) • (1 : TwoQubit) := by rw [sub_smul, one_smul]
  rw [factor, norm_smul, norm_one, mul_one, norm_sub_rev, mul_comm]
  exact distance

/-- Entries differ by no more than the distance. -/
theorem entry (near : Near ε v w) (i j : Fin 4) : ‖v i j - w i j‖ ≤ ε := by
  set column := (EuclideanSpace.equiv (Fin 4) ℂ).symm ((v - w) *ᵥ EuclideanSpace.single j (1 : ℂ))
  have value : column i = v i j - w i j := by simp [column]
  calc
    ‖v i j - w i j‖ = ‖column i‖ := by rw [value]
    _ ≤ ‖column‖ := PiLp.norm_apply_le column i
    _ ≤ ‖v - w‖ * ‖EuclideanSpace.single j (1 : ℂ)‖ := Matrix.l2_opNorm_mulVec (v - w) _
    _ = ‖v - w‖ := by simp
    _ ≤ ε := near.close

end Near

namespace Circuit.Sequence

open Gate (Standard)
open Weyl (Axis)

/-! ## Rotations by small angles -/

theorem placed_conjTranspose (q : ℤ) (v : OneQubit) : (placed q v)ᴴ = placed q vᴴ := by
  unfold placed
  split <;> simp [tensor_conjTranspose]

theorem placed_mem_unitary (q : ℤ) {v : OneQubit} (unitary : v ∈ unitaryGroup (Fin 2) ℂ) :
    placed q v ∈ unitaryGroup (Fin 4) ℂ := by
  unfold placed
  split
  · exact tensor_mem_unitary (one_mem _) unitary
  · exact tensor_mem_unitary unitary (one_mem _)

theorem placed_rotation (q : ℤ) (k : Axis) (t : ℝ) :
    placed q (k.rotation t) = cos (t / 2 : ℂ) • 1 - sin (t / 2 : ℂ) • placed q k.halfTurn := by
  have split : placed q (k.rotation t) = placed q (cos (t / 2 : ℂ) • 1) - placed q (sin (t / 2 : ℂ) • k.halfTurn) := by
    unfold placed
    split
    · rw [Axis.rotation, tensor_sub_right]
    · rw [Axis.rotation, tensor_sub_left]
  rw [split, placed_smul, placed_smul, placed_one]

/-- A turn by an angle, with any square root of minus one as its generator, is no further from the identity than its
angle. -/
theorem norm_turn_sub_one_le {j : TwoQubit} (adjoint : jᴴ = -j) (square : j * j = -1) (x : ℝ) :
    ‖cos (x : ℂ) • (1 : TwoQubit) - sin (x : ℂ) • j - 1‖ ≤ |x| := by
  set c := Real.cos x
  set s := Real.sin x
  have parts : cos (x : ℂ) • (1 : TwoQubit) - sin (x : ℂ) • j - 1 = ((c - 1 : ℝ) : ℂ) • 1 - (s : ℂ) • j := by
    have cosine : cos (x : ℂ) = c := by simp [c]
    have sine : sin (x : ℂ) = s := by simp [s]
    rw [cosine, sine]
    push_cast
    module
  have product : (cos (x : ℂ) • (1 : TwoQubit) - sin (x : ℂ) • j - 1)ᴴ * (cos (x : ℂ) • (1 : TwoQubit) - sin (x : ℂ) • j - 1) =
      (((c - 1) ^ 2 + s ^ 2 : ℝ) : ℂ) • 1 := by
    rw [parts, Matrix.conjTranspose_sub, Matrix.conjTranspose_smul, Matrix.conjTranspose_smul, Matrix.conjTranspose_one,
      adjoint, Complex.star_def, Complex.conj_ofReal, Complex.conj_ofReal]
    simp only [Matrix.sub_mul, Matrix.mul_sub, Matrix.smul_mul, Matrix.mul_smul, Matrix.one_mul, Matrix.mul_one,
      smul_neg, Matrix.neg_mul, square]
    push_cast
    module
  have size : ‖cos (x : ℂ) • (1 : TwoQubit) - sin (x : ℂ) • j - 1‖ ^ 2 ≤ |x| ^ 2 := by
    have norm := Matrix.l2_opNorm_conjTranspose_mul_self (cos (x : ℂ) • (1 : TwoQubit) - sin (x : ℂ) • j - 1)
    rw [product, norm_smul, norm_one, mul_one, Complex.norm_real, Real.norm_of_nonneg (by positivity)] at norm
    have circle : s ^ 2 + c ^ 2 = 1 := Real.sin_sq_add_cos_sq _
    have cosine : 1 - x ^ 2 / 2 ≤ c := Real.one_sub_sq_div_two_le_cos
    rw [sq_abs, pow_two ‖_‖, ← norm]
    nlinarith
  exact (pow_le_pow_iff_left₀ (norm_nonneg _) (by positivity) two_ne_zero).mp size

/-- A rotation is no further from the identity than half its angle. -/
theorem norm_rotation_sub_one_le (q : ℤ) (k : Axis) (t : ℝ) :
    ‖placed q (k.rotation t) - 1‖ ≤ |t| / 2 := by
  have adjoint : (placed q k.halfTurn)ᴴ = -placed q k.halfTurn := by
    rw [placed_conjTranspose, Axis.halfTurn_conjTranspose, ← neg_one_smul ℂ, placed_smul, neg_one_smul]
  have square : placed q k.halfTurn * placed q k.halfTurn = -1 := by
    rw [placed_mul, Weyl.halfTurn_mul_self, ← neg_one_smul ℂ, placed_smul, placed_one, neg_one_smul]
  have turn := norm_turn_sub_one_le adjoint square (t / 2)
  rw [abs_div, abs_two, Complex.ofReal_div, Complex.ofReal_ofNat] at turn
  rwa [placed_rotation]

/-- Rotations about one axis differ by no more than half the difference of their angles. -/
theorem near_rotation (q : ℤ) (k : Axis) (s t : ℝ) :
    Near (|s - t| / 2) (placed q (k.rotation s)) (placed q (k.rotation t)) := by
  refine ⟨placed_mem_unitary q (k.rotation_mem_unitary s), placed_mem_unitary q (k.rotation_mem_unitary t), ?_⟩
  have factor : placed q (k.rotation s) - placed q (k.rotation t) =
      placed q (k.rotation t) * (placed q (k.rotation (s - t)) - 1) := by
    rw [Matrix.mul_sub, placed_mul, Axis.rotation_mul, add_sub_cancel, Matrix.mul_one]
  rw [factor, CStarRing.norm_mem_unitary_mul _ (placed_mem_unitary q (k.rotation_mem_unitary t))]
  exact norm_rotation_sub_one_le q k (s - t)

/-- An interaction about one axis is no further from the identity than its angle. -/
theorem near_couple (k : Axis) (t : ℝ) : Near |t| 1 (k.couple t) := by
  refine ⟨one_mem _, by rw [← Weyl.coupling_single]; exact Weyl.coupling_mem_unitary _, ?_⟩
  have adjoint : (I • k.pair)ᴴ = -(I • k.pair) := by
    rw [Matrix.conjTranspose_smul, Axis.pair, tensor_conjTranspose, Axis.halfTurn_conjTranspose, tensor_neg_left,
      tensor_neg_right, neg_neg, Complex.star_def, Complex.conj_I, neg_smul]
  have square : (I • k.pair) * (I • k.pair) = -1 := by
    rw [Matrix.smul_mul, Matrix.mul_smul, smul_smul, Complex.I_mul_I, Weyl.pair_mul_self, neg_one_smul]
  have turn := norm_turn_sub_one_le adjoint square t
  rwa [smul_smul, mul_comm _ I, ← Axis.couple, norm_sub_rev] at turn

/-! ## Sequences -/

/-- A sequence denotes a unitary within a tolerance of a given one. -/
def Within (s : Sequence ℝ) (ε : ℝ) (v : TwoQubit) : Prop := ∃ w, s.Denotes w ∧ Near ε w v

theorem controlledNot_mem_unitary : controlledNot ∈ unitaryGroup (Fin 4) ℂ := by
  rw [mem_unitaryGroup_iff, controlledNot, Gate.cxMatrix, Mat4.toMatrix_of, ← Matrix.ext_iff]
  simp [Matrix.mul_apply, Fin.sum_univ_four, Fin.forall_fin_succ, Matrix.one_apply]

namespace Within

variable {s t : Sequence ℝ} {ε δ : ℝ} {v w : TwoQubit}

theorem empty (phase : ℝ) : Within (.empty phase) 0 (exp (phase * I) • 1) :=
  ⟨_, .empty phase, .refl (exp_smul_mem_unitary phase (one_mem _))⟩

theorem extend (first : Within s ε v) (second : Within t δ w) : Within (s.extend t) (δ + ε) (w * v) := by
  obtain ⟨x, denotes, near⟩ := first
  obtain ⟨y, denotes', near'⟩ := second
  exact ⟨y * x, denotes.extend denotes', near'.mul near⟩

/-- What is intended may be replaced by what is near it. -/
theorem near (within : Within s ε v) (close : Near δ v w) : Within s (ε + δ) w := by
  obtain ⟨x, denotes, near⟩ := within
  exact ⟨x, denotes, near.trans close⟩

theorem intended (within : Within s ε v) : v ∈ unitaryGroup (Fin 4) ℂ := by
  obtain ⟨x, -, near⟩ := within
  exact near.right

/-- A factor near the identity may be left out. -/
theorem absorb (within : Within s ε v) (close : Near δ 1 w) : Within s (ε + δ) (w * v) := by
  have product := close.mul (.refl within.intended)
  rw [Matrix.one_mul, add_zero] at product
  exact within.near product

/-- A rotation by no more than a tolerance may be left out for half of it. -/
theorem drop (within : Within s ε v) {q : ℤ} {k : Axis} {angle : ℝ} (small : |angle| ≤ δ) :
    Within s (ε + δ / 2) (placed q (k.rotation angle) * v) := by
  have close := near_rotation q k 0 angle
  rw [Axis.rotation_zero, placed_one, zero_sub, abs_neg] at close
  exact within.absorb (close.mono (by linarith))

theorem mono (within : Within s ε v) (le : ε ≤ δ) : Within s δ v := by
  obtain ⟨x, denotes, near⟩ := within
  exact ⟨x, denotes, near.mono le⟩

theorem push (within : Within s ε v) {i : Instruction ℝ} {m : TwoQubit} (unitary : m ∈ unitaryGroup (Fin 4) ℂ)
    (known : ∀ index, ∃ x, twoQubitMatrix index i = .ok x ∧ x.toMatrix = m) :
    Within (s.push i) ε (m * v) := by
  obtain ⟨x, denotes, near⟩ := within
  have product := (Near.refl unitary).mul near
  rw [zero_add] at product
  exact ⟨m * x, denotes.push known, product⟩

/-- A one-qubit gate at the end is exact. -/
theorem one (within : Within s ε v) {g : Standard} {params : List ℝ} {m : Mat2 ℝ} {q : ℤ}
    (known : g.matrix? params = some (.one m)) (arity : g.qubits = 1) (wire : q = 0 ∨ q = 1) (unitary : m.Unitary) :
    Within (s.append (.standard g) params [q]) ε (placed q m.toMatrix * v) :=
  within.push (placed_mem_unitary q unitary) (twoQubitMatrix_one known arity wire)

/-- So is a controlled-not. -/
theorem controlledNot (within : Within s ε v) :
    Within (s.append (.standard .cx) [] [0, 1]) ε (Sequence.controlledNot * v) :=
  within.push controlledNot_mem_unitary fun index => ⟨_, twoQubitMatrix_controlledNot index, rfl⟩

theorem addPhase (within : Within s ε v) (angle : ℝ) : Within (s.addPhase angle) ε (exp (angle * I) • v) := by
  obtain ⟨x, denotes, near⟩ := within
  exact ⟨_, denotes.addPhase angle, near.exp_smul angle⟩

theorem subPhase (within : Within s ε v) (angle : ℝ) : Within (s.subPhase angle) ε (exp (-angle * I) • v) := by
  obtain ⟨x, denotes, near⟩ := within
  have moved := near.exp_smul (-angle)
  rw [Complex.ofReal_neg] at moved
  exact ⟨_, denotes.subPhase angle, moved⟩

theorem unitary (within : Within s ε v) : ∃ u, s.unitary = .ok u ∧ Near ε u.toMatrix v := by
  obtain ⟨x, denotes, near⟩ := within
  obtain ⟨u, computed, rfl⟩ := denotes.unitary
  exact ⟨u, computed, near⟩

end Within

end Circuit.Sequence

end Entangle

end
