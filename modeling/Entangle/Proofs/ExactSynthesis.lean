import Mathlib
import Entangle.Proofs.AxialInteraction
import Entangle.Proofs.CountChoice
import Entangle.Proofs.ThreeGatePulse

/-!
# Synthesis without approximation

A synthesis that may not trade exactness for fewer entangling gates reproduces the decomposition of its
target. The decomposition itself is fitted to a symmetry class whatever the request says, and its loss is
that of the fidelity it reports: every entry stays within a fixed bound, and a perfect fit keeps the
unitary. An interaction with a tiny angle is not kept.
-/

noncomputable section

namespace Entangle.Synthesis.Decomposer

open Matrix Complex
open Circuit (Sequence)
open Weyl (Decomposition Diagonalization axial diagonalize specialUnitary)

variable {d : Decomposer ℝ} {g u : Mat4 ℝ} {r : Request ℝ} {target : Decomposition ℝ}

theorem synthesize_eq_ok {s : Sequence ℝ} : d.synthesize u r = .ok s ↔
    ∃ target, Decomposition.ofUnitary u .default = .ok target ∧ d.realize (d.countFor target r) target = .ok s :=
  Outcome.step_eq_ok.trans bind_eq_ok

/-- Without pulse forms, the circuit for a count of gates denotes the intended product. -/
theorem synthesize_near (basis : d.ExactBasis g) (arity : d.gate.qubits = .ok 2) (off : d.options.pulse = .off)
    (fitted : Decomposition.ofUnitary u .default = .ok target) (factored : target.Factored) (r : Request ℝ) :
    ∃ s v, d.synthesize u r = .ok s ∧ s.unitary = .ok v ∧
      Near 12e-12 v.toMatrix (d.circuit g (d.countFor target r) target).toMatrix := by
  obtain ⟨s, joined, within⟩ := generic_near arity basis factored (d.countFor target r)
  obtain ⟨v, computed, near⟩ := within.unitary
  refine ⟨s, v, synthesize_eq_ok.mpr ⟨target, fitted, ?_⟩, computed, near⟩
  rw [realize, if_pos off, joined]

/-- The entries of a synthesis that does not approximate are off by what the decomposition loses, up to the
tolerance of the corrections; some entry is off by a quarter of it. -/
theorem synthesize_distance (basis : d.ExactBasis g) (second : 0 ≤ d.basis.b ∧ d.basis.b ≤ Real.pi / 4)
    (arity : d.gate.qubits = .ok 2) (off : d.options.pulse = .off) (free : r.uses = none) (strict : r.approximate = false)
    (unitary : u.Unitary) (fitted : Decomposition.ofUnitary u .default = .ok target) (fits : target.Fits u) :
    ∃ s v, d.synthesize u r = .ok s ∧ s.unitary = .ok v ∧
      (∀ i j, ‖(v i j).toComplex - (u i j).toComplex‖ ≤ √(8 - 2 * √(20 * target.calculated - 4)) + 12e-12) ∧
      ∃ i j, √(8 - 2 * √(20 * target.calculated - 4)) / 4 - 12e-12 ≤ ‖(v i j).toComplex - (u i j).toComplex‖ := by
  have lossless : d.effectiveFidelity r = 1 := by
    rw [effectiveFidelity, strict]
    exact Exact.one_eq
  obtain ⟨s, v, synthesized, computed, near⟩ := synthesize_near basis arity off fitted fits.factored r
  rw [circuit_countFor basis second fits.factored fits.chamber free lossless] at near
  have loss := fits.loss unitary
  rw [← loss]
  set w := target.reconstruct.toMatrix
  have close (i j : Fin 4) : ‖v.toMatrix i j - w i j‖ ≤ 12e-12 := near.entry i j
  refine ⟨s, v, synthesized, computed, fun i j => ?_, ?_⟩
  · have entry := Weyl.norm_entry_le (w - u.toMatrix) i j
    have triangle := norm_sub_le_norm_sub_add_norm_sub (v.toMatrix i j) (w i j) (u.toMatrix i j)
    exact (triangle.trans (add_le_add (close i j) entry)).trans_eq (add_comm _ _)
  · obtain ⟨i, j, large⟩ := Weyl.exists_norm_entry_ge (w - u.toMatrix)
    have triangle := norm_sub_le_norm_sub_add_norm_sub (w i j) (v.toMatrix i j) (u.toMatrix i j)
    rw [norm_sub_rev (w i j) (v.toMatrix i j)] at triangle
    refine ⟨i, j, sub_le_iff_le_add'.mpr ?_⟩
    exact (large.trans triangle).trans (add_le_add_left (close i j) _)

/-- A synthesis that does not approximate keeps every entry of its target within a fixed bound, and within
`10^-9` where the fit of the target is perfect. -/
theorem synthesize_exact (basis : d.ExactBasis g) (second : 0 ≤ d.basis.b ∧ d.basis.b ≤ Real.pi / 4)
    (arity : d.gate.qubits = .ok 2) (off : d.options.pulse = .off) (free : r.uses = none) (strict : r.approximate = false)
    (unitary : u.Unitary) {diag : Diagonalization ℝ}
    (found : diagonalize ((specialUnitary u u.det).transpose * specialUnitary u u.det) = .ok diag)
    (orthogonal : diag.rotation.toReal * diag.rotation.toRealᵀ = 1)
    (exact : diag.matrix = (specialUnitary u u.det).transpose * specialUnitary u u.det) :
    ∃ target s v, Decomposition.ofUnitary u .default = .ok target ∧ d.synthesize u r = .ok s ∧ s.unitary = .ok v ∧
      (∀ i j, ‖(v i j).toComplex - (u i j).toComplex‖ ≤ 8e-5) ∧
      (target.calculated = 1 → ∀ i j, ‖(v i j).toComplex - (u i j).toComplex‖ ≤ 1e-9) := by
  obtain ⟨target, fitted, reaches, fits⟩ := Weyl.ofUnitary_fits unitary found orthogonal exact
    (by norm_num : (0.999999999 : ℝ) ≤ 1)
  obtain ⟨s, v, synthesized, computed, above, -⟩ :=
    synthesize_distance basis second arity off free strict unitary fitted fits
  refine ⟨target, s, v, fitted, synthesized, computed, fun i j => (above i j).trans ?_, fun perfect i j => (above i j).trans ?_⟩
  · have root : 4 - 3e-9 ≤ √(20 * target.calculated - 4) := by
      apply Real.le_sqrt_of_sq_le
      norm_num at reaches ⊢
      linarith
    have bound : √(8 - 2 * √(20 * target.calculated - 4)) ≤ 7.8e-5 := by
      rw [Real.sqrt_le_iff]
      constructor
      · norm_num
      · norm_num at root ⊢
        linarith
    norm_num at bound ⊢
    linarith
  · have full : √(20 * target.calculated - 4) = 4 := by
      rw [perfect, Real.sqrt_eq_iff_mul_self_eq (by norm_num) (by norm_num)]
      norm_num
    rw [full]
    norm_num

theorem exactControlledNot_second (mode : PulseMode) :
    0 ≤ (exactControlledNot mode).basis.b ∧ (exactControlledNot mode).basis.b ≤ Real.pi / 4 :=
  ⟨le_rfl, div_nonneg Real.pi_pos.le (by norm_num)⟩

theorem synthesize_exact_axial :
    ∃ target s v, Decomposition.ofUnitary (axial (1 / 2)) .default = .ok target ∧
      (exactControlledNot .off).synthesize (axial (1 / 2)) (Request.default.withApproximate false) = .ok s ∧
      s.unitary = .ok v ∧
      (∀ i j, ‖(v i j).toComplex - (axial (1 / 2) i j).toComplex‖ ≤ 8e-5) ∧
      (target.calculated = 1 → ∀ i j, ‖(v i j).toComplex - (axial (1 / 2) i j).toComplex‖ ≤ 1e-9) :=
  synthesize_exact (exactControlledNot_exactBasis .off) (exactControlledNot_second .off) rfl rfl rfl rfl
    (Weyl.axial_unitary (1 / 2))
    (Weyl.diagonalize_axial (by norm_num) (by linarith [Real.pi_gt_three])) (Weyl.axialDiagonalization_orthogonal (1 / 2))
    (Weyl.matrix_axialDiagonalization (1 / 2))

/-- An interaction by a tiny angle is replaced by the identity, though the request does not allow it. -/
theorem synthesize_drops_interaction :
    (axial 1e-5).Unitary ∧
      ∃ s v, (exactControlledNot .off).synthesize (axial 1e-5) (Request.default.withApproximate false) = .ok s ∧
        s.unitary = .ok v ∧ ∃ i j, 1e-9 < ‖(v i j).toComplex - (axial 1e-5 i j).toComplex‖ := by
  have unitary := Weyl.axial_unitary 1e-5
  obtain ⟨target, fitted, fits, calculated, -⟩ := Weyl.ofUnitary_axial (t := 1e-5) (by norm_num) (by norm_num)
  obtain ⟨s, v, synthesized, computed, -, i, j, below⟩ := synthesize_distance (exactControlledNot_exactBasis .off)
    (exactControlledNot_second .off) rfl rfl (r := Request.default.withApproximate false) rfl rfl unitary fitted fits
  refine ⟨unitary, s, v, synthesized, computed, i, j, lt_of_lt_of_le ?_ below⟩
  have positive : 0 ≤ Real.cos 1e-5 :=
    Real.cos_nonneg_of_neg_pi_div_two_le_of_le (by norm_num; linarith [Real.pi_pos]) (by norm_num; linarith [Real.pi_gt_three])
  have overlap : √(20 * target.calculated - 4) = 4 * Real.cos 1e-5 := by
    rw [calculated, Real.sqrt_eq_iff_mul_self_eq (by nlinarith) (by linarith)]
    ring
  have cosine : Real.cos 1e-5 ≤ 1 - 2 / Real.pi ^ 2 * 1e-5 ^ 2 :=
    Real.cos_le_one_sub_mul_cos_sq (by rw [abs_of_nonneg (by norm_num)]; norm_num; linarith [Real.pi_gt_three])
  have curve : 1 / 5 ≤ 2 / Real.pi ^ 2 := by
    rw [div_le_div_iff₀ (by norm_num) (by positivity)]
    nlinarith [Real.pi_lt_d2, Real.pi_pos]
  have loss : 1e-5 ≤ √(8 - 2 * √(20 * target.calculated - 4)) := by
    rw [overlap]
    apply Real.le_sqrt_of_sq_le
    norm_num at cosine curve ⊢
    linarith
  norm_num at loss ⊢
  linarith

end Entangle.Synthesis.Decomposer

end
