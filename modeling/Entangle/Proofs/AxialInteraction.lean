import Mathlib
import Entangle.Proofs.ClassChoice

/-!
# Interactions about one axis

An interaction is diagonal in the magic basis, and so is its square there. About the third axis, and
with a small negative angle, the diagonal comes in ascending order: the standard axes diagonalise it, and
the canonical form has the angle on its first axis. An angle within the requested fidelity of zero is fitted
away.
-/

noncomputable section

namespace Entangle.Weyl

open Matrix Complex

theorem sum_phases (θ : Axis → ℝ) : ∑ k, phases θ k = 0 := by
  rw [Fin.sum_univ_four]
  simp [phases]
  ring

theorem det_coupling (θ : Axis → ℝ) : (coupling θ).det = 1 := by
  rw [coupling, det_inMagic, Matrix.det_diagonal, ← Complex.exp_sum, ← Finset.sum_mul, ← Complex.ofReal_sum, sum_phases,
    Complex.ofReal_zero, zero_mul, Complex.exp_zero]

theorem interaction_unitary (a b c : ℝ) : (interaction a b c).Unitary := by
  rw [Square.Unitary, toMatrix_interaction]
  exact coupling_mem_unitary _

/-- An interaction is diagonal in the magic basis. -/
theorem toMatrix_specialUnitary_interaction (a b c : ℝ) :
    (specialUnitary (interaction a b c) (interaction a b c).det).toMatrix =
      diagonal fun k => exp (phases (angles a b c) k * I) := by
  obtain ⟨-, -, back⟩ := specialUnitary_spec (interaction_unitary a b c)
  have angle : (interaction a b c).det.arg = 0 := by
    rw [Cx.arg_eq, Mat4.toComplex_det, toMatrix_interaction, det_coupling, Complex.arg_one]
  rw [angle, zero_div, Complex.ofReal_zero, zero_mul, Complex.exp_zero, one_smul, toMatrix_interaction] at back
  exact inMagic_injective back

/-- The square of an interaction in the magic basis. -/
theorem square_specialUnitary_interaction (a b c : ℝ) :
    (specialUnitary (interaction a b c) (interaction a b c).det).transpose *
        specialUnitary (interaction a b c) (interaction a b c).det =
      Square.diagonal 0 fun k => Cx.cis (2 * phases (angles a b c) k) := by
  apply Square.toMatrix_injective
  rw [Mat4.toMatrix_mul, Square.toMatrix_transpose, toMatrix_specialUnitary_interaction, Matrix.diagonal_transpose,
    Matrix.diagonal_mul_diagonal, Square.toMatrix_diagonal]
  congr 1
  funext k
  rw [← Complex.exp_add, Cx.toComplex_cis]
  push_cast
  ring_nf

section Axial

variable {t : ℝ}

/-- The interaction by a negative angle about the third axis. -/
def axial (t : ℝ) : Mat4 ℝ := interaction 0 0 (-t)

theorem axial_unitary (t : ℝ) : (axial t).Unitary := interaction_unitary 0 0 (-t)

theorem phases_axial (t : ℝ) : phases (angles 0 0 (-t)) = ![-t, -t, t, t] := by
  funext k
  fin_cases k <;> simp [phases, angles]

/-- The values of the square, with the smaller ones first. -/
def axialValues (t : ℝ) (k : Fin 4) : Cx ℝ := Cx.cis (2 * phases (angles 0 0 (-t)) k)

theorem mixed_axialValues (positive : 0 ≤ t) (small : t ≤ Real.pi / 4) : Monotone fun k => mixed (axialValues t k) := by
  have sine : 0 ≤ Real.sin (2 * t) := Real.sin_nonneg_of_nonneg_of_le_pi (by linarith) (by linarith [Real.pi_pos])
  have weight : (0 : ℝ) ≤ (firstMixture : Mixture ℝ).im := by
    change (0 : ℝ) ≤ 0.22317849046722027
    norm_num
  have product := mul_nonneg weight sine
  have values : (fun k => mixed (axialValues t k)) =
      ![(firstMixture : Mixture ℝ).re * Real.cos (2 * t) - (firstMixture : Mixture ℝ).im * Real.sin (2 * t),
        (firstMixture : Mixture ℝ).re * Real.cos (2 * t) - (firstMixture : Mixture ℝ).im * Real.sin (2 * t),
        (firstMixture : Mixture ℝ).re * Real.cos (2 * t) + (firstMixture : Mixture ℝ).im * Real.sin (2 * t),
        (firstMixture : Mixture ℝ).re * Real.cos (2 * t) + (firstMixture : Mixture ℝ).im * Real.sin (2 * t)] := by
    funext k
    fin_cases k <;> simp [mixed, axialValues, phases_axial, Cx.cis]
    all_goals ring
  rw [values]
  refine Fin.monotone_iff_le_succ.mpr fun k => ?_
  fin_cases k <;> simp
  linarith

/-- The diagonalisation by the standard axes. -/
def axialDiagonalization (t : ℝ) : Diagonalization ℝ :=
  .ofRotation (Square.diagonal 0 (axialValues t)) standardFrame

theorem diagonalize_axial (positive : 0 ≤ t) (small : t ≤ Real.pi / 4) :
    diagonalize ((specialUnitary (axial t) (axial t).det).transpose *
      specialUnitary (axial t) (axial t).det) = .ok (axialDiagonalization t) := by
  rw [axial, square_specialUnitary_interaction]
  exact diagonalize_diagonal (mixed_axialValues positive small)

theorem matrix_axialDiagonalization (t : ℝ) :
    (axialDiagonalization t).matrix =
      (specialUnitary (axial t) (axial t).det).transpose *
        specialUnitary (axial t) (axial t).det := by
  rw [axial, square_specialUnitary_interaction]
  exact matrix_ofRotation_diagonal _

theorem axialDiagonalization_orthogonal (t : ℝ) :
    (axialDiagonalization t).rotation.toReal * (axialDiagonalization t).rotation.toRealᵀ = 1 :=
  standardFrame_orthogonal

theorem halfPhases_axial (positive : 0 ≤ t) (small : t ≤ Real.pi / 4) :
    halfPhases (axialDiagonalization t).values = #v[t, t, -t, -t] := by
  have pi := Real.pi_pos
  have stored (k : Fin 4) : (axialDiagonalization t).values.get k = axialValues t k := by
    rw [axialDiagonalization, ofRotation_standardFrame]
    simp
  have argument {x : ℝ} (lower : -Real.pi < x) (upper : x ≤ Real.pi) : (Cx.cis x).arg = x := by
    rw [Cx.arg_eq, Cx.toComplex_cis, Complex.arg_exp_mul_I, toIocMod_eq_self]
    exact ⟨lower, by linarith⟩
  have first : ((axialDiagonalization t).values.get 0).arg = -(2 * t) := by
    rw [stored, axialValues, phases_axial]
    simpa using argument (x := 2 * -t) (by linarith) (by linarith)
  have second : ((axialDiagonalization t).values.get 1).arg = -(2 * t) := by
    rw [stored, axialValues, phases_axial]
    simpa using argument (x := 2 * -t) (by linarith) (by linarith)
  have third : ((axialDiagonalization t).values.get 2).arg = 2 * t := by
    rw [stored, axialValues, phases_axial]
    simpa using argument (x := 2 * t) (by linarith) (by linarith)
  change #v[-((axialDiagonalization t).values.get 0).arg / 2, -((axialDiagonalization t).values.get 1).arg / 2,
    -((axialDiagonalization t).values.get 2).arg / 2, -(-((axialDiagonalization t).values.get 0).arg / 2 +
      -((axialDiagonalization t).values.get 1).arg / 2 + -((axialDiagonalization t).values.get 2).arg / 2)] = _
  rw [first, second, third]
  have half : -(-(2 * t)) / 2 = t := by ring
  have half' : -(2 * t) / 2 = -t := by ring
  rw [half, half']
  congr
  ring

/-- Only the last of the three axes turns. -/
theorem axisSum_axial (positive : 0 ≤ t) (small : t ≤ Real.pi / 4) (k : Fin 3) :
    axisSum (axialDiagonalization t).values k = if k = 2 then -t else 0 := by
  rw [axisSum, halfPhases_axial positive small]
  fin_cases k
  · change (t + -t) / 2 = 0
    ring
  · change (t + -t) / 2 = 0
    ring
  · change (-t + -t) / 2 = -t
    ring

theorem startOrder_axial (positive : 0 ≤ t) (small : t ≤ Real.pi / 4) :
    startOrder (axialDiagonalization t) = (1, 2, 0) := by
  have distance (k : Fin 3) : rightAngleDistance (axisAngle (halfPhases (axialDiagonalization t).values) k) =
      if k = 2 then t else 0 := by
    rw [rightAngleDistance_axisAngle, axisSum_axial positive small, nearness]
    split
    · rw [abs_neg, abs_of_nonneg positive]
      exact min_eq_left (by linarith)
    · rw [abs_zero, sub_zero]
      exact min_eq_left (by linarith [Real.pi_pos])
  apply axisOrder_of_sorted
  · rw [distance, distance]
    exact le_rfl
  · rw [distance, distance]
    exact positive

/-- The canonical form of an interaction about one axis has its angle on the first one. -/
theorem canonicalForm_axial (positive : 0 ≤ t) (small : t ≤ Real.pi / 4) :
    ∃ f : Form ℝ, canonicalForm (axial t) = .ok f ∧ f.matrix = axial t ∧ f.Factored ∧
      f.a = t ∧ f.b = 0 ∧ f.c = 0 := by
  obtain ⟨f, canonical, denotes, factored⟩ := canonicalForm_factored (axial_unitary t)
    (diagonalize_axial positive small) (axialDiagonalization_orthogonal t) (matrix_axialDiagonalization t)
  obtain ⟨d, start, found, started, rfl⟩ := canonicalForm_eq_ok canonical
  rw [diagonalize_axial positive small] at found
  obtain rfl := Except.ok.inj found
  obtain ⟨-, a, b, c⟩ := startFolding_chamber started
  simp only [startOrder_axial positive small, axisSum_axial positive small] at a b c
  have still : nearness |(0 : ℝ)| = 0 := by
    rw [abs_zero, nearness, sub_zero]
    exact min_eq_left (by linarith [Real.pi_pos])
  refine ⟨_, canonical, denotes, factored, ?_, ?_, ?_⟩
  · rw [a, if_pos trivial, abs_neg, abs_of_nonneg positive]
    exact min_eq_left (by linarith)
  · rw [b, if_neg (by decide), still]
  · rw [if_neg (by decide), still] at c
    exact abs_eq_zero.mp c

theorem coordinates_axial (positive : 0 ≤ t) (small : t ≤ Real.pi / 4) :
    coordinates (axial t) = .ok (t, 0, 0) := by
  obtain ⟨f, canonical, -, -, a, b, c⟩ := canonicalForm_axial positive small
  rw [coordinates_of_canonicalForm canonical, a, b, c]

theorem default_eq : (Options.default : Options ℝ) = ⟨some 0.999999999, none⟩ := rfl

/-- An angle that costs less fidelity than is allowed is fitted away. -/
theorem ofUnitary_axial (positive : 0 ≤ t) (tiny : t ≤ 0.00003) :
    ∃ target : Decomposition ℝ, Decomposition.ofUnitary (axial t) .default = .ok target ∧
      target.Fits (axial t) ∧ target.calculated = (4 + 16 * Real.cos t ^ 2) / 20 ∧
      target.a = 0 ∧ target.b = 0 ∧ target.c = 0 := by
  have pi := Real.pi_gt_three
  obtain ⟨f, canonical, denotes, factored, a, b, c⟩ := canonicalForm_axial positive (by linarith)
  have chamber := canonicalForm_inChamber canonical
  have value : traceFidelity (canonicalTrace (f.a - 0) (f.b - 0) (f.c - 0)) = (4 + 16 * Real.cos t ^ 2) / 20 := by
    rw [traceFidelity_canonicalTrace, a, b, c]
    simp
  have near : f.isNear 0.999999999 0 0 0 = true := by
    rw [isNear_iff, value]
    have cosine := Real.one_sub_sq_div_two_le_cos (x := t)
    have square : t ^ 2 ≤ 0.00003 ^ 2 := pow_le_pow_left₀ positive tiny 2
    have most : 1 - 0.0000000005 ≤ Real.cos t := by norm_num at square ⊢; linarith
    nlinarith
  have chosen : f.nearestClass 0.999999999 = .identity := by
    unfold Form.nearestClass
    dsimp only
    rw [Exact.zero_eq, if_pos near]
  obtain ⟨fit, fitted, decomposed, -, fits⟩ := ofForm_fits factored chamber (by norm_num : (0.999999999 : ℝ) ≤ 1)
  rw [chosen] at fitted
  obtain rfl := Except.ok.inj fitted
  rw [denotes] at decomposed fits
  refine ⟨_, ?_, fits, ?_, Exact.zero_eq, Exact.zero_eq, Exact.zero_eq⟩
  · rw [Decomposition.ofUnitary, canonical, default_eq]
    exact decomposed
  · rw [← value]
    change traceFidelity (toIdentity f).trace = _
    simp only [toIdentity, Form.fittedTo, Exact.zero_eq]

end Axial

end Entangle.Weyl

end
