import Mathlib
import Entangle.Proofs.LocalInvariance

/-!
# The canonical form of one-qubit operations

One-qubit operations of determinant one have a trivial square in the magic basis, so that the standard axes
diagonalise it and no axis turns: their canonical form has no angle, and is fitted to the class without interaction
at no loss. None of this needs them to be unitary, as long as the splitting into factors is far from singular. A
matrix that stretches one qubit is therefore decomposed, and denoted by its decomposition, like a unitary.
-/

noncomputable section

namespace Entangle.Weyl

open Matrix Complex

/-! ## Products -/

section Products

variable {u : Mat4 ℝ} {a b : OneQubit}

theorem specialUnitary_of_det_one (one : u.toMatrix.det = 1) : inMagic (specialUnitary u u.det).toMatrix = u.toMatrix := by
  have value : u.det.toComplex = 1 := (Mat4.toComplex_det u).trans one
  have nonzero : u.det.toComplex ≠ 0 := by
    rw [value]
    exact one_ne_zero
  have root : (u.det.rpow (-0.25)).toComplex = 1 := by
    rw [Cx.toComplex_rpow nonzero, value, norm_one, Real.one_rpow, Complex.arg_one, mul_zero, Complex.ofReal_zero, zero_mul,
      Complex.exp_zero, Complex.ofReal_one, one_mul]
  rw [inMagic_specialUnitary, root, one_smul]

theorem det_tensor_of_det_one (first : a.det = 1) (second : b.det = 1) : (tensor a b).det = 1 := by
  rw [det_tensor, first, second]
  norm_num

theorem gram_tensor (first : a.det = 1) (second : b.det = 1) : gram (tensor a b) = 1 := by
  rw [gram, Matrix.mul_assoc, Matrix.mul_assoc, ← Matrix.mul_assoc (tensor a b)ᵀ, transpose_mul_pair_mul, first, second,
    one_mul, one_smul, pair_mul_self]

theorem square_specialUnitary_tensor (split : u.toMatrix = tensor a b) (first : a.det = 1) (second : b.det = 1) :
    (specialUnitary u u.det).transpose * specialUnitary u u.det = Square.identity := by
  have image := specialUnitary_of_det_one (u := u) (split ▸ det_tensor_of_det_one first second)
  apply Square.toMatrix_injective
  apply inMagic_injective
  rw [inMagic_square, image, split, gram_tensor first second, Square.toMatrix_identity, inMagic_one]

theorem get_halfPhases_of_one {stored : Vector (Cx ℝ) 4} (ones : ∀ k : Fin 4, stored.get k = 1) (k : Fin 4) :
    (halfPhases stored).get k = 0 := by
  have half (j : Fin 4) : -(stored.get j).arg / 2 = 0 := by
    rw [ones, Cx.arg_eq, Cx.toComplex_one, Complex.arg_one, neg_zero, zero_div]
  fin_cases k
  · exact half 0
  · exact half 1
  · exact half 2
  · change -(-(stored.get 0).arg / 2 + -(stored.get 1).arg / 2 + -(stored.get 2).arg / 2) = 0
    rw [half, half, half, add_zero, add_zero, neg_zero]

theorem axisSum_of_one {stored : Vector (Cx ℝ) 4} (ones : ∀ k : Fin 4, stored.get k = 1) (k : Fin 3) :
    axisSum stored k = 0 := by
  rw [axisSum, get_halfPhases_of_one ones, get_halfPhases_of_one ones, add_zero, zero_div]

theorem nearness_zero : nearness |(0 : ℝ)| = 0 := by
  rw [abs_zero, nearness, sub_zero]
  exact min_eq_left (by linarith [Real.pi_pos])

/-- The angles of a form vanish. -/
structure Form.Still (f : Form ℝ) : Prop where
  first : f.a = 0
  second : f.b = 0
  third : f.c = 0

/-- A start whose values are all one folds to a form without an angle. -/
theorem startFolding_still {up : Mat4 ℝ} {d : Diagonalization ℝ} {phase : ℝ} {f : Folding ℝ}
    (started : startFolding up d phase = .ok f) (ones : ∀ k : Fin 4, d.values.get k = 1) : f.fold.toForm.Still := by
  obtain ⟨-, first, second, third⟩ := startFolding_chamber started
  rw [axisSum_of_one ones, nearness_zero] at first second third
  exact ⟨first, second, abs_eq_zero.mp third⟩

/-- One-qubit operations of determinant one have a canonical form without an angle, unitary or not, if the first column
of the one on the high qubit stays large. -/
theorem canonicalForm_tensor (split : u.toMatrix = tensor a b) (first : a.det = 1)
    (column : ∀ l ∈ specialUnitaryGroup (Fin 2) ℂ, 1 / 5 ≤ ‖(a * l) 0 0‖ ^ 2 + ‖(a * l) 1 0‖ ^ 2)
    (second : b ∈ specialUnitaryGroup (Fin 2) ℂ) :
    ∃ f : Form ℝ, canonicalForm u = .ok f ∧ f.matrix = u ∧ f.Still := by
  have second' := (mem_specialUnitaryGroup_iff.mp second).2
  have one : u.toMatrix.det = 1 := split ▸ det_tensor_of_det_one first second'
  have image := specialUnitary_of_det_one one
  have square := square_specialUnitary_tensor split first second'
  set d : Diagonalization ℝ := Diagonalization.ofRotation Square.identity standardFrame with dDef
  have found : diagonalize ((specialUnitary u u.det).transpose * specialUnitary u u.det) = .ok d := by
    rw [square, diagonalize_identity]
  have given : Diagonalizes ((specialUnitary u u.det).toMatrixᵀ * (specialUnitary u u.det).toMatrix) d.rotation.toReal
      fun k => (d.values.get k).toComplex := by
    rw [← Mat4.toMatrix_square, square]
    exact diagonalizes_of_matrix standardFrame_orthogonal matrix_ofRotation_identity
  obtain ⟨frame, proper⟩ := startFrame_spec given
  obtain ⟨l, r, specialL, specialR, turn⟩ := exists_tensor_of_rotation frame.orthogonal proper
  have ones (k : Fin 4) : d.values.get k = 1 := by
    rw [dDef, ofRotation_standardFrame]
    simp [Square.identity, Square.diagonal]
  have still (k : Fin 4) : startPhases d k = 0 := get_halfPhases_of_one ones _
  have left : inMagic (startLeft (specialUnitary u u.det) d).toMatrix = tensor (a * l) (b * r) := by
    rw [toMatrix_startLeft]
    simp only [still, Complex.ofReal_zero, zero_mul, Complex.exp_zero]
    rw [Matrix.diagonal_one, Matrix.mul_one, ← inMagic_mul, image, split, turn, tensor_mul_tensor]
  obtain ⟨outer, sign, outerOk, -, -, -, outerEq⟩ := Product.decompose_of_det (u := intoMagic (startLeft _ d)) norm_one
    (by rw [Matrix.det_mul, first, (mem_specialUnitaryGroup_iff.mp specialL).2, mul_one]) (column l specialL)
    (mul_mem second specialR) (by rw [toMatrix_intoMagic, left, one_smul])
  rw [toMatrix_intoMagic] at outerEq
  obtain ⟨f, started, fresh, -, -, -, -, denotes⟩ := startFolding_of_split given outerOk outerEq (u.det.arg / 4)
  have value : u.det.toComplex = 1 := (Mat4.toComplex_det u).trans one
  refine ⟨_, canonicalForm_of_start (value ▸ one_ne_zero) found started, ?_, startFolding_still started ones⟩
  apply Square.toMatrix_injective
  rw [Folding.toMatrix_fold fresh, denotes, image, Cx.arg_eq, value, Complex.arg_one, zero_div, Complex.ofReal_zero, zero_mul,
    Complex.exp_zero, one_smul]

end Products

/-! ## Forms without an angle -/

section Still

variable {f : Form ℝ} {fidelity : ℝ}

theorem canonicalTrace_zero : (canonicalTrace (0 : ℝ) 0 0).toComplex = 4 := by
  rw [toComplex_canonicalTrace, angles_zero, coupling_zero, Matrix.trace_one, Fintype.card_fin]
  norm_num

theorem Form.Still.nearestClass (still : f.Still) (possible : fidelity ≤ 1) : f.nearestClass fidelity = .identity := by
  have near : f.isNear fidelity 0 0 0 = true := by
    rw [isNear_iff, still.first, still.second, still.third, sub_zero, traceFidelity_eq, canonicalTrace_zero]
    norm_num
    exact possible
  unfold Form.nearestClass
  dsimp only
  rw [Exact.zero_eq, if_pos near]

/-- Fitted to the class without interaction, a form without an angle loses nothing. -/
theorem Form.Still.toIdentity (still : f.Still) :
    (Weyl.toIdentity f).trace.toComplex = 4 ∧ (Weyl.toIdentity f).form.matrix = f.matrix := by
  constructor
  · simp only [Weyl.toIdentity, Form.fittedTo, Exact.zero_eq, still.first, still.second, still.third, sub_zero]
    exact canonicalTrace_zero
  · apply Square.toMatrix_injective
    rw [toMatrix_form, toMatrix_form, still.first, still.second, still.third, angles_zero]
    simp only [Weyl.toIdentity, Form.fittedTo, Exact.zero_eq, angles_zero]
    apply dressed_pass
    rw [coupling_zero]
    simp

/-- Its decomposition has no angle either, and denotes what the form does. -/
theorem Form.Still.ofForm (still : f.Still) (possible : fidelity ≤ 1) :
    ∃ target : Decomposition ℝ, Decomposition.ofForm f.matrix f ⟨some fidelity, none⟩ = .ok target ∧
      target.Still ∧ target.reconstruct = f.matrix := by
  set o : Options ℝ := ⟨some fidelity, none⟩
  obtain ⟨trace, denotes⟩ := still.toIdentity
  have fitted : f.fit (o.classFor f) = .ok (Weyl.toIdentity f) := by
    change f.fit (f.nearestClass fidelity) = _
    rw [still.nearestClass possible]
    rfl
  have full : traceFidelity (Weyl.toIdentity f).trace = 1 := by
    rw [traceFidelity_eq, trace]
    norm_num
  have reached : o.missed? (traceFidelity (Weyl.toIdentity f).trace) = none := by
    have allowed : ¬ (1 : ℝ) + 1e-13 < fidelity := by linarith
    rw [full]
    simpa [Options.missed?, o] using allowed
  refine ⟨_, (ofForm_eq o fitted).trans (by rw [reached]), ⟨Exact.zero_eq, Exact.zero_eq, Exact.zero_eq⟩, ?_⟩
  apply Square.toMatrix_injective
  rw [toMatrix_reconstruct, denotes, Cx.arg_eq, trace, Complex.ofNat_arg, Complex.ofReal_zero, zero_mul, Complex.exp_zero,
    one_smul]

end Still

/-! ## A matrix that is not unitary -/

/-- Twice as long along one basis vector of the high qubit, half as long along the other. -/
def stretch : Mat4 ℝ := Mat4.kron (Square.diagonal 0 ![⟨2, 0⟩, ⟨1 / 2, 0⟩]) Square.identity

theorem toMatrix_stretch : stretch.toMatrix = tensor (diagonal ![2, 1 / 2]) 1 := by
  rw [stretch, Mat4.toMatrix_kron, Square.toMatrix_identity, Square.toMatrix_diagonal]
  congr 2
  funext k
  fin_cases k <;> simp [Cx.toComplex_mk]

theorem canonicalForm_stretch : ∃ f : Form ℝ, canonicalForm stretch = .ok f ∧ f.matrix = stretch ∧ f.Still := by
  refine canonicalForm_tensor toMatrix_stretch ?_ (fun l special => ?_) (one_mem _)
  · rw [Matrix.det_diagonal, Fin.prod_univ_two]
    norm_num
  · have unit : ‖l 0 0‖ ^ 2 + ‖l 1 0‖ ^ 2 = 1 := sum_normSq_column (mem_specialUnitaryGroup_iff.mp special).1
    rw [Matrix.diagonal_mul, Matrix.diagonal_mul, norm_mul, norm_mul]
    have : 0 ≤ ‖l 0 0‖ ^ 2 := sq_nonneg _
    simp
    nlinarith

theorem stretch_corner : stretch.toMatrix 0 0 = 2 := by
  rw [toMatrix_stretch, tensor_apply]
  simp [Mat4.high]

theorem stretch_not_unitary : ¬ stretch.Unitary := by
  intro unitary
  have bound := entry_norm_bound_of_unitary unitary 0 0
  rw [stretch_corner] at bound
  norm_num at bound

/-- The decomposition of the stretch has no angle, and denotes it. -/
theorem ofUnitary_stretch : ∃ target : Decomposition ℝ, Decomposition.ofUnitary stretch .default = .ok target ∧
    target.Still ∧ target.reconstruct = stretch := by
  obtain ⟨f, canonical, denotes, still⟩ := canonicalForm_stretch
  have possible : (0.999999999 : ℝ) ≤ 1 := by norm_num
  obtain ⟨target, fitted, still', same⟩ := still.ofForm possible
  rw [denotes] at fitted same
  refine ⟨target, ?_, still', same⟩
  rw [Decomposition.ofUnitary, canonical, default_eq]
  exact fitted

end Entangle.Weyl

end
