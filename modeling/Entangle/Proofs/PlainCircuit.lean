import Mathlib
import Entangle.Proofs.Emission
import Entangle.Proofs.PulseEquivalence

/-!
# The plain circuit

The fixed factors around an entangling gate are unitary, and with them the corrections for every
target with unitary factors. The plain circuit interleaves the corrections with the gate, so that it
denotes the intended product up to the tolerance with which the corrections are emitted.
-/

noncomputable section

namespace Entangle

open Matrix Complex

namespace Synthesis

open Circuit (Sequence)
open Circuit.Sequence (Within)
open Weyl (Decomposition)

/-! ## Unitary corrections -/

namespace FixedFactor

theorem conj_half : starRingEnd ℂ (0.5 : ℂ) = 1 / 2 := by
  have two : starRingEnd ℂ 2 = 2 := map_ofNat _ 2
  norm_num [two]

theorem conj_two : starRingEnd ℂ (2 : ℂ) = 2 := map_ofNat _ 2

theorem k11l_unitary (b : ℝ) : (k11l b).Unitary := by
  have inverse := exp_mul_exp_neg b
  have square : I * I = -1 := Complex.I_mul_I
  refine Mat2.unitary_of ?_ ?_ ?_ <;> simp [minusI, Cx.toComplex_mk, ← Complex.exp_conj, conj_half] <;> norm_num <;> grind

theorem k11r_unitary (b : ℝ) : (k11r b).Unitary := by
  have inverse := exp_mul_exp_neg b
  have square : I * I = -1 := Complex.I_mul_I
  have half_root := root_mul_root
  refine Mat2.unitary_of ?_ ?_ ?_ <;>
    simp [minusI, half, Cx.toComplex_mk, ← Complex.exp_conj, ofReal_sqrtHalf, conj_root] <;> grind

theorem k12l_unitary : (k12l : Mat2 ℝ).Unitary := by
  have square : I * I = -1 := Complex.I_mul_I
  refine Mat2.unitary_of ?_ ?_ ?_ <;> simp [Cx.toComplex_mk, conj_half] <;> norm_num <;> grind

theorem k12r_unitary : (k12r : Mat2 ℝ).Unitary := by
  have square : I * I = -1 := Complex.I_mul_I
  have half_root := root_mul_root
  refine Mat2.unitary_of ?_ ?_ ?_ <;> simp [Cx.toComplex_mk, ofReal_sqrtHalf, conj_root] <;> grind

theorem k32lk21l_unitary (b : ℝ) : (k32lk21l b).Unitary := by
  have square : I * I = -1 := Complex.I_mul_I
  have half_root := root_mul_root
  have circle := Complex.sin_sq_add_cos_sq (2 * b : ℂ)
  refine Mat2.unitary_of ?_ ?_ ?_ <;>
    simp [half, Cx.toComplex_mk, ofReal_sqrtHalf, conj_root, conj_two, ← Complex.cos_conj, ← Complex.sin_conj] <;> grind

theorem k21r_unitary (b : ℝ) : (k21r b).Unitary := by
  have inverse := exp_mul_exp_neg b
  have square : I * I = -1 := Complex.I_mul_I
  refine Mat2.unitary_of ?_ ?_ ?_ <;>
    simp [minusI, Cx.toComplex_mk, ← Complex.exp_conj, conj_half, mul_assoc, ← mul_neg, exp_double] <;> norm_num <;> grind

theorem k22l_unitary : (k22l : Mat2 ℝ).Unitary := by
  have half_root := root_mul_root
  refine Mat2.unitary_of ?_ ?_ ?_ <;> simp [half, Cx.toComplex_mk, ofReal_sqrtHalf, conj_root] <;> grind

theorem k22r_unitary : (k22r : Mat2 ℝ).Unitary := by
  refine Mat2.unitary_of ?_ ?_ ?_ <;> simp [Cx.toComplex_mk]

theorem k31l_unitary (b : ℝ) : (k31l b).Unitary := by
  have inverse := exp_mul_exp_neg b
  have half_root := root_mul_root
  refine Mat2.unitary_of ?_ ?_ ?_ <;>
    simp [half, Cx.toComplex_mk, ← Complex.exp_conj, ofReal_sqrtHalf, conj_root] <;> grind

theorem k31r_unitary (b : ℝ) : (k31r b).Unitary := by
  have inverse := exp_mul_exp_neg b
  have square : I * I = -1 := Complex.I_mul_I
  refine Mat2.unitary_of ?_ ?_ ?_ <;> simp [minusI, Cx.toComplex_mk, ← Complex.exp_conj] <;> grind

theorem k32r_unitary (b : ℝ) : (k32r b).Unitary := by
  have inverse := exp_mul_exp_neg b
  have square : I * I = -1 := Complex.I_mul_I
  refine Mat2.unitary_of ?_ ?_ ?_ <;> simp [minusI, Cx.toComplex_mk, ← Complex.exp_conj, conj_half] <;> norm_num <;> grind

end FixedFactor

namespace Decomposer

variable {d : Decomposer ℝ} {g : Mat4 ℝ} {target : Decomposition ℝ}

theorem ExactBasis.factored (basis : d.ExactBasis g) : d.basis.Factored :=
  ⟨basis.outerLeft, basis.outerRight, basis.innerLeft, basis.innerRight⟩

/-- The gate of an exact decomposition is unitary. -/
theorem ExactBasis.unitary (basis : d.ExactBasis g) : g.Unitary :=
  basis.exact ▸ basis.factored.reconstruct_unitary

theorem factorless_factored (a b c : ℝ) : (factorless a b c).Factored :=
  ⟨Square.identity_unitary, Square.identity_unitary, Square.identity_unitary, Square.identity_unitary⟩

open FixedFactor Mat2 in
/-- The corrections of a target with unitary factors are unitary, for every count of uses. -/
theorem corrections_unitary (basis : d.ExactBasis g) (factored : target.Factored) (n : Fin 4) :
    ∀ layer ∈ d.corrections n target, layer.Unitary := by
  have k1ld := unitary_dagger basis.outerLeft
  have k1rd := unitary_dagger basis.outerRight
  have k2ld := unitary_dagger basis.innerLeft
  have k2rd := unitary_dagger basis.innerRight
  have turn := Gate.rzMatrix_unitary
  rcases uses_cases n with rfl | rfl | rfl | rfl
  · rw [corrections, corrections0]
    simp only [List.mem_singleton, forall_eq]
    exact ⟨unitary_mul factored.outerRight factored.innerRight, unitary_mul factored.outerLeft factored.innerLeft⟩
  · rw [corrections, corrections1]
    simp only [List.mem_cons, List.not_mem_nil, or_false, forall_eq_or_imp, forall_eq]
    exact ⟨⟨unitary_mul k2rd factored.innerRight, unitary_mul k2ld factored.innerLeft⟩,
      unitary_mul factored.outerRight k1rd, unitary_mul factored.outerLeft k1ld⟩
  · rw [corrections, corrections2, basis.two, TwoUse.ofBasis]
    simp only [List.mem_cons, List.not_mem_nil, or_false, forall_eq_or_imp, forall_eq]
    refine ⟨⟨unitary_mul (unitary_mul k2rd k12r_unitary) factored.innerRight,
      unitary_mul (unitary_mul k2ld k12l_unitary) factored.innerLeft⟩, ⟨?_, ?_⟩, ⟨?_, ?_⟩⟩
    · exact unitary_mul (unitary_mul (unitary_mul (unitary_mul k2rd Weyl.ipz_unitary)
        (unitary_dagger (k11r_unitary _))) (turn _)) (unitary_mul (k11r_unitary _) k1rd)
    · exact unitary_mul (unitary_mul (unitary_mul k2ld (unitary_dagger (k11l_unitary _))) (turn _))
        (unitary_mul (k11l_unitary _) k1ld)
    · exact unitary_mul factored.outerRight (unitary_mul (unitary_mul (unitary_dagger k12r_unitary) Weyl.ipz_unitary) k1rd)
    · exact unitary_mul factored.outerLeft (unitary_mul (unitary_dagger k12l_unitary) k1ld)
  · rw [corrections, corrections3, basis.three, ThreeUse.ofBasis]
    simp only [List.mem_cons, List.not_mem_nil, or_false, forall_eq_or_imp, forall_eq]
    refine ⟨⟨unitary_mul (unitary_mul k2rd k12r_unitary) factored.innerRight,
      unitary_mul (unitary_mul k2ld k12l_unitary) factored.innerLeft⟩, ⟨?_, ?_⟩, ⟨?_, ?_⟩, ⟨?_, ?_⟩⟩
    · exact unitary_mul (unitary_mul (unitary_mul k2rd k22r_unitary) (turn _)) (unitary_mul (k11r_unitary _) k1rd)
    · exact unitary_mul (unitary_mul (unitary_mul k2ld k22l_unitary) (turn _)) (unitary_mul (k11l_unitary _) k1ld)
    · exact unitary_mul (unitary_mul (unitary_mul k2rd (k32r_unitary _)) (turn _)) (unitary_mul (k21r_unitary _) k1rd)
    · exact unitary_mul (unitary_mul k2ld (k32lk21l_unitary _)) k1ld
    · exact unitary_mul factored.outerRight (unitary_mul (k31r_unitary _) k1rd)
    · exact unitary_mul factored.outerLeft (unitary_mul (k31l_unitary _) k1ld)

/-- The plain circuit denotes the corrections with the gate between them, within the tolerance of
up to four layers. -/
theorem generic_near (arity : d.gate.qubits = .ok 2) (basis : d.ExactBasis g) (factored : target.Factored) (n : Fin 4) :
    ∃ s, d.generic n (d.corrections n target) target = .ok s ∧ s.Within 12e-12 (d.circuit g n target).toMatrix := by
  obtain ⟨s, joined, near⟩ := interleave_within (Euler.emits d.options.euler) basis.unitary
    (fun index => ⟨g, Sequence.twoQubitMatrix_two arity basis.stored index, rfl⟩) (corrections_unitary basis factored n)
    (Within.empty (d.startPhase n target))
  refine ⟨s, joined, ?_⟩
  have few : ((d.corrections n target).length : ℝ) ≤ 4 := by
    rcases uses_cases n with rfl | rfl | rfl | rfl <;> norm_num [corrections, corrections0, corrections1, corrections2,
      corrections3]
  rw [Matrix.mul_smul, Matrix.mul_one, ← Cx.toComplex_cis, ← Square.toMatrix_scale] at near
  exact near.mono (by linarith)

end Decomposer

end Synthesis

end Entangle

end
