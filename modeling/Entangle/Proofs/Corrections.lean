import Mathlib
import Entangle.Synthesis.Synthesize
import Entangle.Proofs.ClassFit
import Entangle.Proofs.FixedFactors
import Entangle.Proofs.SequenceDenotation

/-!
# The corrections around an entangling gate

With an exact decomposition of the entangling gate, the corrections for none to three uses of it make
the interactions `(0, 0, 0)`, `(π/4, b, 0)`, the target's without its third angle, and the target's
own, between the target's one-qubit factors and under its phase. The coded traces are the overlaps of
these circuits with the target.
-/

noncomputable section

namespace Entangle.Synthesis

open Matrix Complex
open Weyl (Axis Decomposition angles coupling dressed interaction)
open FixedFactor (entangler)

/-- The unitary of a layer. -/
def Layer.matrix (layer : Layer ℝ) : Mat4 ℝ := .kron layer.left layer.right

@[simp]
theorem Layer.toMatrix_matrix (layer : Layer ℝ) :
    layer.matrix.toMatrix = tensor layer.left.toMatrix layer.right.toMatrix :=
  Mat4.toMatrix_kron _ _

/-- The product of layers with a matrix between each two, the last layer leftmost. -/
def interleaved (g : Mat4 ℝ) : List (Layer ℝ) → Mat4 ℝ
  | [] => Square.identity
  | [layer] => layer.matrix
  | layer :: next :: rest => interleaved g (next :: rest) * g * layer.matrix

namespace Decomposer

/-- The basis decomposition is exact: it gives back the matrix of the gate from unitary factors, its
angles are `(π/4, b, 0)`, and the fixed factors are the ones computed from it. -/
structure ExactBasis (d : Decomposer ℝ) (g : Mat4 ℝ) : Prop where
  stored : d.gate.matrix4 d.params = .ok g
  exact : d.basis.reconstruct = g
  first : d.basis.a = Real.pi / 4
  third : d.basis.c = 0
  outerLeft : d.basis.k1l.Unitary
  outerRight : d.basis.k1r.Unitary
  innerLeft : d.basis.k2l.Unitary
  innerRight : d.basis.k2r.Unitary
  two : d.two = .ofBasis d.basis
  three : d.three = .ofBasis d.basis

/-- A decomposer that is built from a matrix has the fixed factors of its basis decomposition. -/
theorem ofMatrix_factors {operation : Gate.Operation ℝ} {params : List ℝ} {u : Mat4 ℝ} {o : Options ℝ}
    {d : Decomposer ℝ} (built : ofMatrix operation params u o = .ok d) :
    d.two = .ofBasis d.basis ∧ d.three = .ofBasis d.basis := by
  rw [ofMatrix] at built
  cases arity : requireTwoQubits operation with
  | error fault =>
    rw [arity] at built
    cases built
  | ok checked =>
    cases decomposed : Decomposition.ofUnitary u .default with
    | error fault =>
      rw [arity, decomposed] at built
      cases built
    | ok basis =>
      rw [arity, decomposed] at built
      cases built
      exact ⟨rfl, rfl⟩

/-- The corrections for `n` uses of a gate, with the gate between them, under the starting phase. -/
def circuit (d : Decomposer ℝ) (g : Mat4 ℝ) (n : Fin 4) (target : Decomposition ℝ) : Mat4 ℝ :=
  (interleaved g (d.corrections n target)).scale (Cx.cis (d.startPhase n target))

/-- The angles that `n` uses of the gate reach. -/
def reached (d : Decomposer ℝ) (target : Decomposition ℝ) : Fin 4 → Axis → ℝ
  | 0 => 0
  | 1 => angles (Real.pi / 4) d.basis.b 0
  | 2 => angles target.a target.b 0
  | 3 => angles target.a target.b target.c

/-- The adjoint of the outer factors of the gate's decomposition. -/
def outerAdjoint (d : Decomposer ℝ) : TwoQubit := tensor d.basis.k1l.toMatrixᴴ d.basis.k1r.toMatrixᴴ

/-- The adjoint of the inner factors. -/
def innerAdjoint (d : Decomposer ℝ) : TwoQubit := tensor d.basis.k2l.toMatrixᴴ d.basis.k2r.toMatrixᴴ

section Uses

variable {d : Decomposer ℝ} {g : Mat4 ℝ}

/-- Between the adjoints of its own factors, the gate is its interaction under its phase. -/
theorem use_once (basis : d.ExactBasis g) (p q : TwoQubit) :
    p * d.outerAdjoint * g.toMatrix * (d.innerAdjoint * q) =
      exp (d.basis.phase * I) • (p * entangler d.basis.b * q) := by
  have outer : d.outerAdjoint * tensor d.basis.k1l.toMatrix d.basis.k1r.toMatrix = 1 := by
    rw [outerAdjoint, ← tensor_conjTranspose]
    exact mem_unitaryGroup_iff'.mp (tensor_mem_unitary basis.outerLeft basis.outerRight)
  have inner : tensor d.basis.k2l.toMatrix d.basis.k2r.toMatrix * d.innerAdjoint = 1 := by
    rw [innerAdjoint, ← tensor_conjTranspose]
    exact mem_unitaryGroup_iff.mp (tensor_mem_unitary basis.innerLeft basis.innerRight)
  rw [← basis.exact, Decomposition.reconstruct, Weyl.toMatrix_form, dressed, basis.first, basis.third, ← entangler,
    Matrix.mul_smul, Matrix.smul_mul]
  congr 1
  calc
    _ = p * (d.outerAdjoint * tensor d.basis.k1l.toMatrix d.basis.k1r.toMatrix) * entangler d.basis.b *
        (tensor d.basis.k2l.toMatrix d.basis.k2r.toMatrix * d.innerAdjoint) * q := by
      simp only [Matrix.mul_assoc]
    _ = p * entangler d.basis.b * q := by rw [outer, inner, Matrix.mul_one, Matrix.mul_one]

theorem use_twice (basis : d.ExactBasis g) (p m q : TwoQubit) :
    p * d.outerAdjoint * g.toMatrix * (d.innerAdjoint * m * d.outerAdjoint) * g.toMatrix * (d.innerAdjoint * q) =
      exp (d.basis.phase * I) ^ 2 • (p * entangler d.basis.b * m * entangler d.basis.b * q) := by
  calc
    _ = p * d.outerAdjoint * g.toMatrix * (d.innerAdjoint * m) * d.outerAdjoint * g.toMatrix *
        (d.innerAdjoint * q) := by simp only [Matrix.mul_assoc]
    _ = _ := by
      rw [use_once basis p m, Matrix.smul_mul, Matrix.smul_mul, Matrix.smul_mul, use_once basis, smul_smul, pow_two]

theorem use_thrice (basis : d.ExactBasis g) (p m n q : TwoQubit) :
    p * d.outerAdjoint * g.toMatrix * (d.innerAdjoint * m * d.outerAdjoint) * g.toMatrix *
        (d.innerAdjoint * n * d.outerAdjoint) * g.toMatrix * (d.innerAdjoint * q) =
      exp (d.basis.phase * I) ^ 3 •
        (p * entangler d.basis.b * m * entangler d.basis.b * n * entangler d.basis.b * q) := by
  calc
    _ = p * d.outerAdjoint * g.toMatrix * (d.innerAdjoint * m * d.outerAdjoint) * g.toMatrix *
        (d.innerAdjoint * n) * d.outerAdjoint * g.toMatrix * (d.innerAdjoint * q) := by
      simp only [Matrix.mul_assoc]
    _ = _ := by
      rw [use_twice basis p m n, Matrix.smul_mul, Matrix.smul_mul, Matrix.smul_mul, use_once basis, smul_smul, ← pow_succ]

section Target

variable (target : Decomposition ℝ)

theorem toMatrix_corrections0 (g : Mat4 ℝ) :
    (interleaved g (corrections0 target)).toMatrix =
      tensor target.k1l.toMatrix target.k1r.toMatrix * 1 * tensor target.k2l.toMatrix target.k2r.toMatrix := by
  rw [corrections0, interleaved, Matrix.mul_one, tensor_mul_tensor]
  simp

theorem toMatrix_corrections1 (basis : d.ExactBasis g) :
    (interleaved g (d.corrections1 target)).toMatrix = exp (d.basis.phase * I) •
      (tensor target.k1l.toMatrix target.k1r.toMatrix * entangler d.basis.b *
        tensor target.k2l.toMatrix target.k2r.toMatrix) := by
  rw [← use_once basis, corrections1, interleaved, interleaved, outerAdjoint, innerAdjoint]
  simp only [Mat4.toMatrix_mul, Layer.toMatrix_matrix, Mat2.toMatrix_mul, Square.toMatrix_dagger, tensor_mul_tensor]

theorem toMatrix_corrections2 (basis : d.ExactBasis g) :
    (interleaved g (d.corrections2 target)).toMatrix = exp (d.basis.phase * I) ^ 2 •
      (tensor target.k1l.toMatrix target.k1r.toMatrix * -coupling (angles target.a target.b 0) *
        tensor target.k2l.toMatrix target.k2r.toMatrix) := by
  have factored := use_twice basis
    (tensor target.k1l.toMatrix target.k1r.toMatrix *
      tensor (FixedFactor.k12l : Mat2 ℝ).toMatrixᴴ ((FixedFactor.k12r : Mat2 ℝ).toMatrixᴴ * Axis.z.halfTurn))
    (tensor ((FixedFactor.k11l d.basis.b).toMatrixᴴ * Axis.z.rotation (-(2 * target.a)) *
        (FixedFactor.k11l d.basis.b).toMatrix)
      (Axis.z.halfTurn * (FixedFactor.k11r d.basis.b).toMatrixᴴ * Axis.z.rotation (2 * target.b) *
        (FixedFactor.k11r d.basis.b).toMatrix))
    (tensor (FixedFactor.k12l : Mat2 ℝ).toMatrix (FixedFactor.k12r : Mat2 ℝ).toMatrix *
      tensor target.k2l.toMatrix target.k2r.toMatrix)
  refine Eq.trans ?_ (factored.trans ?_)
  · rw [corrections2, basis.two, TwoUse.ofBasis, interleaved, interleaved, interleaved, outerAdjoint, innerAdjoint]
    simp only [Mat4.toMatrix_mul, Layer.toMatrix_matrix, Mat2.toMatrix_mul, Square.toMatrix_dagger,
      Gate.toMatrix_rzMatrix, Weyl.toMatrix_ipz, tensor_mul_tensor, neg_mul]
    simp only [Matrix.mul_assoc]
    rfl
  · rw [← FixedFactor.two_uses d.basis.b]
    simp only [Matrix.mul_assoc]

theorem toMatrix_corrections3 (basis : d.ExactBasis g) :
    (interleaved g (d.corrections3 target)).toMatrix = exp (d.basis.phase * I) ^ 3 •
      (tensor target.k1l.toMatrix target.k1r.toMatrix * coupling (angles target.a target.b target.c) *
        tensor target.k2l.toMatrix target.k2r.toMatrix) := by
  have factored := use_thrice basis
    (tensor target.k1l.toMatrix target.k1r.toMatrix *
      tensor (FixedFactor.k31l d.basis.b).toMatrix (FixedFactor.k31r d.basis.b).toMatrix)
    (tensor (FixedFactor.k32lk21l d.basis.b).toMatrix
      ((FixedFactor.k32r d.basis.b).toMatrix * Axis.z.rotation (-(2 * target.c)) *
        (FixedFactor.k21r d.basis.b).toMatrix))
    (tensor ((FixedFactor.k22l : Mat2 ℝ).toMatrix * Axis.z.rotation (-(2 * target.a)) *
        (FixedFactor.k11l d.basis.b).toMatrix)
      ((FixedFactor.k22r : Mat2 ℝ).toMatrix * Axis.z.rotation (2 * target.b) *
        (FixedFactor.k11r d.basis.b).toMatrix))
    (tensor (FixedFactor.k12l : Mat2 ℝ).toMatrix (FixedFactor.k12r : Mat2 ℝ).toMatrix *
      tensor target.k2l.toMatrix target.k2r.toMatrix)
  refine Eq.trans ?_ (factored.trans ?_)
  · rw [corrections3, basis.three, ThreeUse.ofBasis, interleaved, interleaved, interleaved, interleaved, outerAdjoint,
      innerAdjoint]
    simp only [Mat4.toMatrix_mul, Layer.toMatrix_matrix, Mat2.toMatrix_mul, Square.toMatrix_dagger,
      Gate.toMatrix_rzMatrix, tensor_mul_tensor, neg_mul]
    simp only [Matrix.mul_assoc]
    rfl
  · rw [← FixedFactor.three_uses d.basis.b]
    simp only [Matrix.mul_assoc]

end Target

theorem toComplex_startPhase (n : Fin 4) (other : n ≠ 2) (target : Decomposition ℝ) :
    exp (d.startPhase n target * I) * exp (d.basis.phase * I) ^ (n : ℕ) = exp (target.phase * I) := by
  rw [startPhase, if_neg other, Exact.ofNat_eq, ← Complex.exp_nat_mul, ← Complex.exp_add]
  push_cast
  ring_nf

/-- With two uses, the phase starts with a half turn. -/
theorem toComplex_startPhase_two (target : Decomposition ℝ) :
    exp (d.startPhase 2 target * I) * exp (d.basis.phase * I) ^ 2 = -exp (target.phase * I) := by
  have sum : exp (d.startPhase 2 target * I) * exp (d.basis.phase * I) ^ 2 =
      exp (target.phase * I) * exp (Real.pi * I) := by
    rw [startPhase, if_pos rfl, Exact.ofNat_eq, Exact.pi_eq, Fin.val_two, ← Complex.exp_nat_mul, ← Complex.exp_add,
      ← Complex.exp_add]
    push_cast
    ring_nf
  rw [sum, Complex.exp_pi_mul_I, mul_neg_one]

theorem uses_cases (n : Fin 4) : n = 0 ∨ n = 1 ∨ n = 2 ∨ n = 3 := by omega

/-- Every count of uses makes the interaction that it reaches, between the factors of the target. -/
theorem toMatrix_circuit (basis : d.ExactBasis g) (n : Fin 4) (target : Decomposition ℝ) :
    (d.circuit g n target).toMatrix =
      dressed target.phase target.k1l target.k1r target.k2l target.k2r (d.reached target n) := by
  rw [circuit, Square.toMatrix_scale, Cx.toComplex_cis, dressed]
  rcases uses_cases n with rfl | rfl | rfl | rfl
  · have start := toComplex_startPhase (d := d) 0 (by decide) target
    rw [corrections, toMatrix_corrections0, reached, Weyl.coupling_zero, ← start]
    simp
  · have start := toComplex_startPhase (d := d) 1 (by decide) target
    rw [corrections, toMatrix_corrections1 target basis, reached, smul_smul, ← start]
    simp [entangler]
  · rw [corrections, toMatrix_corrections2 target basis, reached, smul_smul, toComplex_startPhase_two]
    simp
  · have start := toComplex_startPhase (d := d) 3 (by decide) target
    rw [corrections, toMatrix_corrections3 target basis, reached, smul_smul, ← start]
    rfl

/-- The coded traces are those of the interactions between what is reached and the target. -/
theorem toComplex_tracesFor (d : Decomposer ℝ) (n : Fin 4) (target : Decomposition ℝ) :
    ((d.tracesFor target).get n).toComplex =
      (coupling (angles target.a target.b target.c - d.reached target n)).trace := by
  have four : (4 : Cx ℝ).toComplex = 4 := Cx.toComplex_ofNat 4
  have cosine (x y : ℂ) : cos (x - y) = cos (y - x) := by rw [← Complex.cos_neg, neg_sub]
  have sine (x y : ℂ) : sin (x - y) = -sin (y - x) := by rw [← Complex.sin_neg, neg_sub]
  rw [Weyl.trace_coupling, tracesFor, traces]
  rcases uses_cases n with rfl | rfl | rfl | rfl
  · simp [Vector.get, reached, angles, Cx.toComplex_mk, four]
  · simp [Vector.get, reached, angles, Cx.toComplex_mk, four]
    rw [cosine (Real.pi / 4), cosine d.basis.b, sine (Real.pi / 4), sine d.basis.b]
    ring
  · simp [Vector.get, reached, angles, Cx.toComplex_mk]
  · simp [Vector.get, reached, four]

end Uses

/-- An exact basis decomposition with angles `(π/4, b, 0)` makes the corrections exact. -/
theorem circuit_exact {d : Decomposer ℝ} {g : Mat4 ℝ} (basis : d.ExactBasis g) (target : Decomposition ℝ)
    (outerLeft : target.k1l.Unitary) (outerRight : target.k1r.Unitary) (innerLeft : target.k2l.Unitary)
    (innerRight : target.k2r.Unitary) :
    d.circuit g 0 target =
        (Mat4.kron target.k1l target.k1r * Mat4.kron target.k2l target.k2r).scale (Cx.cis target.phase) ∧
      d.circuit g 1 target =
        (Mat4.kron target.k1l target.k1r * interaction (Real.pi / 4) d.basis.b 0 *
          Mat4.kron target.k2l target.k2r).scale (Cx.cis target.phase) ∧
      d.circuit g 2 target =
        (Mat4.kron target.k1l target.k1r * interaction target.a target.b 0 *
          Mat4.kron target.k2l target.k2r).scale (Cx.cis target.phase) ∧
      d.circuit g 3 target = target.reconstruct ∧
      ∀ n, (d.tracesFor target).get n = Mat4.trace ((d.circuit g n target).dagger * target.reconstruct) := by
  refine ⟨?_, ?_, ?_, ?_, fun n => ?_⟩
  · apply Square.toMatrix_injective
    rw [toMatrix_circuit basis, dressed, reached, Weyl.coupling_zero]
    simp
  · apply Square.toMatrix_injective
    rw [toMatrix_circuit basis, dressed, reached]
    simp
  · apply Square.toMatrix_injective
    rw [toMatrix_circuit basis, dressed, reached]
    simp
  · apply Square.toMatrix_injective
    rw [toMatrix_circuit basis, Decomposition.reconstruct, Weyl.toMatrix_form, reached]
  · apply Cx.toComplex_injective
    rw [Mat4.toComplex_trace, Mat4.toMatrix_mul, Square.toMatrix_dagger, toMatrix_circuit basis, Decomposition.reconstruct,
      Weyl.toMatrix_form, Weyl.trace_dressed outerLeft outerRight innerLeft innerRight, toComplex_tracesFor]

/-- A decomposition with given angles and without one-qubit factors. -/
def factorless (a b c : ℝ) : Decomposition ℝ where
  a := a
  b := b
  c := c
  phase := 0
  k1l := Square.identity
  k1r := Square.identity
  k2l := Square.identity
  k2r := Square.identity
  fitted := .general
  calculated := 1
  requested := none
  unitary := interaction a b c

/-- The decomposer over the interaction about the first axis by an eighth of a turn. -/
def overInteraction : Decomposer ℝ where
  gate := .standard .rxx
  params := [-(Real.pi / 2)]
  options := .default
  basis := factorless (Real.pi / 4) 0 0
  two := .ofBasis (factorless (Real.pi / 4) 0 0)
  three := .ofBasis (factorless (Real.pi / 4) 0 0)

theorem overInteraction_exactBasis : overInteraction.ExactBasis (Gate.rxxMatrix (-(Real.pi / 2))) where
  stored := Gate.Operation.matrix4_standard rfl
  exact := by
    apply Square.toMatrix_injective
    have half : -(Real.pi / 2 : ℂ) / 2 = -(Real.pi / 4) := by ring
    rw [Decomposition.reconstruct, Weyl.toMatrix_form, dressed]
    simp [overInteraction, factorless, Weyl.coupling_eq_cross, Weyl.cross, angles, Gate.rxxMatrix, Cx.toComplex_mk, half,
      mul_comm I]
  first := rfl
  third := rfl
  outerLeft := Square.identity_unitary
  outerRight := Square.identity_unitary
  innerLeft := Square.identity_unitary
  innerRight := Square.identity_unitary
  two := rfl
  three := rfl

theorem circuit_exact_overInteraction :
    overInteraction.circuit (Gate.rxxMatrix (-(Real.pi / 2))) 3 (factorless 3 2 1) =
        (factorless 3 2 1).reconstruct ∧
      (overInteraction.tracesFor (factorless 3 2 1)).get 2 =
        Mat4.trace ((overInteraction.circuit (Gate.rxxMatrix (-(Real.pi / 2))) 2 (factorless 3 2 1)).dagger *
          (factorless 3 2 1).reconstruct) :=
  have all := circuit_exact overInteraction_exactBasis (factorless 3 2 1) Square.identity_unitary
    Square.identity_unitary Square.identity_unitary Square.identity_unitary
  ⟨all.2.2.2.1, all.2.2.2.2 2⟩

end Decomposer

end Entangle.Synthesis

end
