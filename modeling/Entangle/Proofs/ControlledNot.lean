import Mathlib
import Entangle.Synthesis.Decomposer
import Entangle.Proofs.Approximation
import Entangle.Proofs.LocalInvariance
import Entangle.Proofs.SymmetricEigenproblem

/-!
# The controlled-not as entangling gate

In the magic basis the product of the controlled-not with its transpose is imaginary and swaps the vectors of the basis
in pairs. Two steps of a plane rotation diagonalise it, each by an eighth of a turn and without a remainder, so that the
decomposer for the controlled-not is always built.
-/

noncomputable section

namespace Entangle

open Matrix Complex

/-! ## The square of the controlled-not -/

namespace Weyl

open Circuit.Sequence (controlledNot)

theorem controlledNot_eq : controlledNot = !![1, 0, 0, 0; 0, 0, 0, 1; 0, 0, 1, 0; 0, 1, 0, 0] := by
  simp [controlledNot, Gate.cxMatrix]

theorem det_controlledNot : controlledNot.det = -1 := by
  rw [controlledNot_eq]
  simp [Matrix.det_succ_row_zero, Fin.sum_univ_succ]

theorem gram_controlledNot : gram controlledNot = tensor Axis.x.halfTurn Axis.z.halfTurn := by
  rw [gram, controlledNot_eq, ← Matrix.ext_iff]
  simp [Matrix.mul_apply, Fin.sum_univ_four, Fin.forall_fin_succ, Axis.pair, Axis.halfTurn]

/-- In the magic basis this product pairs the vectors of the basis. -/
theorem inMagic_paired : inMagic ((Jacobi.paired 0 (-1) 1).toReal.map ofReal) = -tensor Axis.x.halfTurn Axis.z.halfTurn := by
  have image : (Jacobi.paired 0 (-1) 1).toReal.map ofReal = !![0, 0, 0, -1; 0, 0, 1, 0; 0, 1, 0, 0; -1, 0, 0, 0] := by
    ext i j
    fin_cases i <;> fin_cases j <;> simp [Jacobi.paired]
  rw [inMagic, toMatrix_magic, toMatrix_magicInverse, image, ← Matrix.ext_iff]
  simp [Matrix.mul_apply, Fin.sum_univ_four, Fin.forall_fin_succ, Axis.halfTurn]
  ring_nf
  simp
  norm_num

theorem toMatrix_imaginary (a : Real4 ℝ) :
    (Square.ofFn fun i j => (⟨0, a i j⟩ : Cx ℝ) : Mat4 ℝ).toMatrix = I • a.toReal.map ofReal := by
  ext i j
  rw [Square.toMatrix_apply, Square.get_ofFn, Cx.toComplex_mk, Complex.ofReal_zero, zero_add, mul_comm]
  rfl

theorem controlledNot_unitary : (Gate.cxMatrix : Mat4 ℝ).Unitary := Circuit.Sequence.controlledNot_mem_unitary

theorem square_controlledNot :
    ((specialUnitary Gate.cxMatrix (Mat4.det Gate.cxMatrix)).transpose *
      specialUnitary Gate.cxMatrix (Mat4.det Gate.cxMatrix) : Mat4 ℝ) =
        Square.ofFn fun i j => ⟨0, Jacobi.paired 0 (-1) 1 i j⟩ := by
  obtain ⟨-, -, back⟩ := specialUnitary_spec controlledNot_unitary
  have angle : (Mat4.det (Gate.cxMatrix : Mat4 ℝ)).arg = Real.pi := by
    rw [Cx.arg_eq, Mat4.toComplex_det]
    exact (congrArg Complex.arg det_controlledNot).trans Complex.arg_neg_one
  rw [angle] at back
  set up := specialUnitary (Gate.cxMatrix : Mat4 ℝ) (Mat4.det Gate.cxMatrix)
  have image : inMagic up.toMatrix = exp ((-(Real.pi / 4) : ℝ) * I) • controlledNot := by
    rw [controlledNot, ← back, smul_smul, ← Complex.exp_add, ← add_mul, ← Complex.ofReal_add, neg_add_cancel,
      Complex.ofReal_zero, zero_mul, Complex.exp_zero, one_smul]
  have quarter : exp ((-(Real.pi / 4) : ℝ) * I) * exp ((-(Real.pi / 4) : ℝ) * I) = -I := by
    rw [← Complex.exp_add, ← Complex.exp_neg_pi_div_two_mul_I]
    congr 1
    push_cast
    ring
  apply Square.toMatrix_injective
  apply inMagic_injective
  rw [inMagic_square, image, gram_smul, quarter, gram_controlledNot, toMatrix_imaginary, inMagic_smul, inMagic_paired,
    smul_neg, neg_smul]

/-- The square of the controlled-not is diagonalised exactly. -/
theorem exactlyDiagonalized_controlledNot : ExactlyDiagonalized (Gate.cxMatrix : Mat4 ℝ) := by
  rw [ExactlyDiagonalized, square_controlledNot]
  set m : Mat4 ℝ := Square.ofFn fun i j => ⟨0, Jacobi.paired 0 (-1) 1 i j⟩ with mDef
  set weight := (firstMixture : Mixture ℝ).im with weightDef
  have nonzero : weight ≠ 0 := by
    change (0.22317849046722027 : ℝ) ≠ 0
    norm_num
  have mixture : (Mat4.real m).combine (firstMixture : Mixture ℝ).re (Mat4.imag m) weight =
      Jacobi.paired 0 (-weight) (-(-weight)) := by
    apply Square.ext
    intro i j
    fin_cases i <;> fin_cases j <;> simp [Real4.combine, Mat4.real, Mat4.imag, mDef, Jacobi.paired]
  obtain ⟨e, d, found, columns, turned⟩ := Jacobi.eigen_paired (neg_ne_zero.mpr nonzero)
  rw [← mixture] at found
  have scaled : (Jacobi.paired 0 (-weight) (-(-weight))).toReal = weight • (Jacobi.paired 0 (-1) 1).toReal := by
    ext i j
    fin_cases i <;> fin_cases j <;> simp [Jacobi.paired]
  have inner : e.vectors.toRealᵀ * (Jacobi.paired 0 (-1) 1).toReal * e.vectors.toReal = diagonal (weight⁻¹ • d) := by
    rw [scaled, Matrix.mul_smul, Matrix.smul_mul] at turned
    rw [Matrix.diagonal_smul, ← turned, smul_smul, inv_mul_cancel₀ nonzero, one_smul]
  have image : (e.vectors.toReal.map ofReal)ᵀ * (Jacobi.paired 0 (-1) 1).toReal.map ofReal * e.vectors.toReal.map ofReal =
      (diagonal (weight⁻¹ • d)).map ofReal := by
    have product := congrArg (fun a : Matrix (Fin 4) (Fin 4) ℝ => a.map ofRealHom) inner
    simp only [Matrix.map_mul, Matrix.transpose_map] at product
    exact product
  have rotated : (e.vectors.toReal.map ofReal)ᵀ * m.toMatrix * e.vectors.toReal.map ofReal =
      diagonal fun k => I * (weight⁻¹ • d) k := by
    rw [mDef, toMatrix_imaginary, Matrix.mul_smul, Matrix.smul_mul, image, Matrix.diagonal_map Complex.ofReal_zero,
      ← Matrix.diagonal_smul]
    rfl
  have exact := matrix_ofRotation columns.orthogonal rotated
  exact ⟨_, diagonalize_of_eigen found exact, exact⟩

end Weyl

/-! ## Its decomposer -/

namespace Synthesis.Decomposer

/-- The decomposer for the controlled-not is built, whatever its options are. -/
theorem exists_ofGate_controlledNot (o : Options ℝ) :
    ∃ d, ofGate (.standard .cx) [] o = .ok d ∧ d.gate = .standard .cx ∧ d.options = o ∧ d.basis.Factored := by
  obtain ⟨frame, found, exact⟩ := Weyl.exactlyDiagonalized_controlledNot
  obtain ⟨-, orthogonal, -⟩ := Weyl.diagonalize_eq_ok found
  obtain ⟨basis, decomposed, -, fits⟩ := Weyl.ofUnitary_fits Weyl.controlledNot_unitary found orthogonal exact
    (by norm_num : (0.999999999 : ℝ) ≤ 1)
  have built : ofMatrix (.standard .cx) [] Gate.cxMatrix o = .ok ⟨.standard .cx, [], o, basis, .ofBasis basis, .ofBasis basis⟩ :=
    Outcome.step_eq_ok.mpr (bind_eq_ok.mpr ⟨(), rfl, bind_eq_ok.mpr ⟨basis, decomposed, rfl⟩⟩)
  exact ⟨_, bind_eq_ok.mpr ⟨Gate.cxMatrix, rfl, built⟩, rfl, rfl, fits.factored⟩

end Synthesis.Decomposer

end Entangle

end
