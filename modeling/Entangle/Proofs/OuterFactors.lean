import Mathlib
import Entangle.Proofs.ClassChoice
import Entangle.Proofs.OrthogonalFrames

/-!
# The factors of an approximate diagonalisation

The inner factors of a decomposition come from an orthogonal frame, so they are unitary whatever the
diagonalisation left over. The outer factors are split off a matrix that need not be a product; all that is
certain is what the splitting makes of it, such as determinants of modulus one. Where the decomposition denotes
a unitary, that is enough to make the outer factors unitary too.
-/

noncomputable section

namespace Entangle.Weyl

open Matrix Complex

/-! ## What a splitting makes certain -/

namespace Product

theorem det_normalize {m : Mat2 ℝ} (nonzero : m.det.toComplex ≠ 0) : (normalize m m.det).toMatrix.det = 1 := by
  have root := Cx.toComplex_sqrt_sq m.det
  rw [normalize, Square.toMatrix_scale, Matrix.det_smul, Fintype.card_fin, Cx.toComplex_div, Cx.toComplex_one, div_pow,
    one_pow, root, ← Mat2.toComplex_det]
  exact one_div_mul_cancel nonzero

/-- The parts of a splitting: a block that is far from singular, and a left factor that is further. -/
theorem decompose_eq_ok {u : Mat4 ℝ} {p : Product ℝ} (split : decompose u = .ok p) :
    1 / 10 ≤ ‖(rightBlock u).1.toMatrix.det‖ ∧ p.right = normalize (rightBlock u).1 (rightBlock u).1.det ∧
      9 / 10 ≤ ‖(Mat4.strided (u * Mat4.kron Square.identity p.right.dagger) 0 0).toMatrix.det‖ ∧
      p.left = normalize (Mat4.strided (u * Mat4.kron Square.identity p.right.dagger) 0 0)
        (Mat4.strided (u * Mat4.kron Square.identity p.right.dagger) 0 0).det := by
  have steps := Outcome.step_eq_ok.mp split
  dsimp only at steps
  rw [rightBlock_det, tenth_eq, ninth_eq] at steps
  split at steps
  · cases steps
  · rename_i right
    split at steps
    · cases steps
    · rename_i left
      obtain rfl := Except.ok.inj steps
      rw [Cx.abs_eq, Mat2.toComplex_det, not_lt] at right left
      exact ⟨right, rfl, left, rfl⟩

/-- The factors of a splitting have determinant one, also where the matrix is no product. -/
theorem decompose_det {u : Mat4 ℝ} {p : Product ℝ} (split : decompose u = .ok p) :
    p.left.toMatrix.det = 1 ∧ p.right.toMatrix.det = 1 := by
  obtain ⟨right, rightEq, left, leftEq⟩ := decompose_eq_ok split
  constructor
  · rw [leftEq]
    apply det_normalize
    rw [Mat2.toComplex_det]
    exact norm_pos_iff.mp (by linarith)
  · rw [rightEq]
    apply det_normalize
    rw [Mat2.toComplex_det]
    exact norm_pos_iff.mp (by linarith)

end Product

/-! ## Foldings and forms -/

section Start

variable {up : Mat4 ℝ} {d : Diagonalization ℝ} {phase : ℝ} {f : Folding ℝ} {outer : Mat2 ℝ → Prop}

/-- A diagonalisation by an orthogonal frame is exact for the matrix that it denotes. -/
theorem diagonalizes_own (orthogonal : d.rotation.toReal * d.rotation.toRealᵀ = 1) :
    Diagonalizes d.matrix.toMatrix d.rotation.toReal fun k => (d.values.get k).toComplex := by
  refine ⟨orthogonal, ?_⟩
  rw [Diagonalization.matrix, Mat4.toMatrix_mul, Mat4.toMatrix_mul, Square.toMatrix_transpose, Real4.toMatrix_complex,
    Square.toMatrix_diagonal]

/-- The inner factors of a start are unitary; the outer ones are those of the splitting. -/
theorem startFolding_outerHas (orthogonal : d.rotation.toReal * d.rotation.toRealᵀ = 1)
    (started : startFolding up d phase = .ok f)
    (split : ∀ p, Product.decompose (intoMagic (startLeft up d)) = .ok p → outer p.left ∧ outer p.right) :
    f.toForm.OuterHas outer := by
  obtain ⟨outerSplit, outerOk, rest⟩ := bind_eq_ok.mp started
  obtain ⟨innerSplit, innerOk, result⟩ := bind_eq_ok.mp rest
  rw [startFolding_eq (Outcome.step_eq_ok.mp outerOk) (Outcome.step_eq_ok.mp innerOk), Except.ok.injEq] at started
  obtain ⟨inner, innerOk', innerL, innerR, -⟩ := exists_startRight (diagonalizes_own orthogonal)
  obtain rfl := Except.ok.inj ((Outcome.step_eq_ok.mp innerOk).symm.trans innerOk')
  obtain ⟨left, right⟩ := split outerSplit (Outcome.step_eq_ok.mp outerOk)
  rw [← started]
  exact ⟨left, right, innerL, innerR⟩

end Start

section Forms

variable {u : Mat4 ℝ} {f : Form ℝ} {o : Options ℝ} {target : Decomposition ℝ} {outer : Mat2 ℝ → Prop}

/-- What a splitting makes of the outer factors, a canonical form keeps. -/
theorem canonicalForm_outerHas (kept : KeptByUnitaries outer) (canonical : canonicalForm u = .ok f)
    (split : ∀ d p, diagonalize ((specialUnitary u u.det).transpose * specialUnitary u u.det) = .ok d →
      Product.decompose (intoMagic (startLeft (specialUnitary u u.det) d)) = .ok p → outer p.left ∧ outer p.right) :
    f.OuterHas outer := by
  obtain ⟨d, start, found, started, rfl⟩ := canonicalForm_eq_ok canonical
  obtain ⟨-, orthogonal, -⟩ := diagonalize_eq_ok found
  exact Folding.outerHas_fold kept (startFolding_outerHas orthogonal started fun p => split d p found)

/-- So does a decomposition. -/
theorem ofForm_outerHas (kept : KeptByUnitaries outer) (given : f.OuterHas outer)
    (decomposed : Decomposition.ofForm u f o = .ok target) : target.OuterHas outer := by
  obtain ⟨fit, fitted, rest⟩ := bind_eq_ok.mp (Outcome.step_eq_ok.mp decomposed)
  obtain ⟨outerL, outerR, innerL, innerR⟩ := fit_outerHas kept given fitted
  dsimp only at rest
  split at rest
  · cases rest
  · obtain rfl := Except.ok.inj rest
    exact ⟨outerL, outerR, innerL, innerR⟩

/-- The determinant has modulus one. -/
def UnitDet (k : Mat2 ℝ) : Prop := ‖k.toMatrix.det‖ = 1

theorem keptByUnitaries_unitDet : KeptByUnitaries UnitDet := by
  constructor
  intro k v unit unitary
  rw [UnitDet, Mat2.toMatrix_mul, Matrix.det_mul, norm_mul, unit, norm_det_of_unitary unitary, one_mul]

theorem ofUnitary_unitDet (decomposed : Decomposition.ofUnitary u o = .ok target) : target.OuterHas UnitDet := by
  obtain ⟨f, canonical, fitted⟩ := bind_eq_ok.mp decomposed
  refine ofForm_outerHas keptByUnitaries_unitDet (canonicalForm_outerHas keptByUnitaries_unitDet canonical ?_) fitted
  intro d p found split
  obtain ⟨left, right⟩ := Product.decompose_det split
  rw [UnitDet, UnitDet, left, right]
  exact ⟨norm_one, norm_one⟩

end Forms

/-! ## Decompositions of unitaries -/

/-- A matrix whose determinant has modulus one has determinant one under some phase. -/
theorem exists_phase_det {m : OneQubit} (unit : ‖m.det‖ = 1) : ∃ t : ℝ, (exp (t * I) • m).det = 1 := by
  refine ⟨-arg m.det / 2, ?_⟩
  have polar := Complex.norm_mul_exp_arg_mul_I m.det
  rw [unit, Complex.ofReal_one, one_mul] at polar
  rw [Matrix.det_smul, Fintype.card_fin, ← Complex.exp_nat_mul]
  nth_rewrite 2 [← polar]
  rw [← Complex.exp_add, ← Complex.exp_zero]
  push_cast
  ring_nf

theorem mem_unitary_of_exp_smul {m : OneQubit} {t : ℝ} (member : exp (t * I) • m ∈ unitaryGroup (Fin 2) ℂ) :
    m ∈ unitaryGroup (Fin 2) ℂ := by
  have back := exp_smul_mem_unitary (-t) member
  rwa [smul_smul, ← Complex.exp_add, Complex.ofReal_neg, neg_mul, neg_add_cancel, Complex.exp_zero, one_smul] at back

/-- Unit determinants make the factors of a unitary product unitary. -/
theorem factors_unitary {l r : OneQubit} (left : ‖l.det‖ = 1) (right : ‖r.det‖ = 1)
    (product : tensor l r ∈ unitaryGroup (Fin 4) ℂ) : l ∈ unitaryGroup (Fin 2) ℂ ∧ r ∈ unitaryGroup (Fin 2) ℂ := by
  obtain ⟨s, specialL⟩ := exists_phase_det left
  obtain ⟨t, specialR⟩ := exists_phase_det right
  have member : tensor (exp (s * I) • l) (exp (t * I) • r) ∈ unitaryGroup (Fin 4) ℂ := by
    rw [tensor_smul_left, tensor_smul_right]
    exact exp_smul_mem_unitary s (exp_smul_mem_unitary t product)
  obtain ⟨unitL, unitR⟩ := factors_mem_unitary specialL specialR member
  exact ⟨mem_unitary_of_exp_smul (mem_specialUnitaryGroup_iff.mp unitL).1,
    mem_unitary_of_exp_smul (mem_specialUnitaryGroup_iff.mp unitR).1⟩

/-- A form with unit determinants that denotes a unitary has unitary factors. -/
theorem factored_of_unitary {f : Form ℝ} (given : f.OuterHas UnitDet) (unitary : f.matrix.Unitary) : f.Factored := by
  set outer := tensor f.k1l.toMatrix f.k1r.toMatrix with outerDef
  set inner := coupling (angles f.a f.b f.c) * tensor f.k2l.toMatrix f.k2r.toMatrix with innerDef
  have member : inner ∈ unitaryGroup (Fin 4) ℂ :=
    mul_mem (coupling_mem_unitary _) (tensor_mem_unitary given.innerLeft given.innerRight)
  have split : f.matrix.toMatrix = exp (f.phase * I) • (outer * inner) := by
    rw [toMatrix_form, dressed, Matrix.mul_assoc]
  have alone : outer = exp ((-f.phase : ℝ) * I) • f.matrix.toMatrix * star inner := by
    rw [split, smul_smul, ← Complex.exp_add, Complex.ofReal_neg, neg_mul, neg_add_cancel, Complex.exp_zero, one_smul,
      Matrix.mul_assoc, mem_unitaryGroup_iff.mp member, Matrix.mul_one]
  have product : outer ∈ unitaryGroup (Fin 4) ℂ := by
    rw [alone]
    exact mul_mem (exp_smul_mem_unitary _ unitary) (Unitary.star_mem member)
  obtain ⟨left, right⟩ := factors_unitary given.outerLeft given.outerRight product
  exact ⟨left, right, given.innerLeft, given.innerRight⟩

/-- A decomposition that denotes a unitary has unitary factors, however it was found. -/
theorem ofUnitary_factored {u : Mat4 ℝ} {o : Options ℝ} {target : Decomposition ℝ}
    (decomposed : Decomposition.ofUnitary u o = .ok target) (unitary : target.reconstruct.Unitary) : target.Factored :=
  factored_of_unitary (ofUnitary_unitDet decomposed) unitary

end Entangle.Weyl

end
