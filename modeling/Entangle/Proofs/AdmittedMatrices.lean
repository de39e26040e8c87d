import Mathlib
import Entangle.Matrix.Unitarity
import Entangle.Proofs.CanonicalCircuit
import Entangle.Proofs.Mixtures
import Entangle.Proofs.NearUnitaries

/-!
# Admitted matrices

The check on matrices from outside bounds the entries of what the product with the adjoint lacks of the identity. A
matrix that passes it within `1e-6` can fail to be decomposed only in the eigenproblem of its square, and passes that one
where the real and imaginary part of the square commute, as those of every unitary do. The parts have to commute within
`5e-12`, though, which is far less than the check makes certain of: a matrix written with six digits is admitted, and
has no decomposition.
-/

noncomputable section

namespace Entangle

open Matrix Complex
open scoped Matrix.Norms.Frobenius

/-! ## The check -/

namespace Dense

variable {m : Dense ℝ} {u : Mat4 ℝ} {atol : ℝ}

/-- A defect is an entry of what the product with the adjoint lacks of the identity. -/
theorem toComplex_defect (shape : m.toMat4 = .ok u) (i j : Fin 4) :
    (m.defect 4 i j).toComplex = (u.toMatrix * u.toMatrixᴴ - 1) i j := by
  obtain ⟨-, rfl⟩ := toMat4_eq_ok.mp shape
  rw [Matrix.sub_apply, Matrix.mul_apply, Fin.sum_univ_four, Matrix.one_apply, defect]
  simp only [List.range, List.range.loop, List.foldl_cons, List.foldl_nil, Matrix.conjTranspose_apply, Square.toMatrix_apply,
    Square.get_ofFn, Fin.val_inj]
  split <;> simp

theorem deviation?_eq (z : Cx ℝ) : deviation? z = some (max |z.re| |z.im|) := by
  simp [deviation?]

/-- The worst deviation is the largest one of all entries. -/
theorem worstDeviation?_eq (m : Dense ℝ) (n : ℕ) :
    m.worstDeviation? n = some (((List.range n).flatMap fun i => (List.range n).map fun j => (i, j)).foldl
      (fun worst place => max worst (max |(m.defect n place.1 place.2).re| |(m.defect n place.1 place.2).im|)) 0) := by
  rw [worstDeviation?, Exact.zero_eq]
  generalize (List.range n).flatMap (fun i => (List.range n).map fun j => (i, j)) = places
  generalize (0 : ℝ) = worst
  induction places generalizing worst with
  | nil => rfl
  | cons place rest ih =>
    rw [List.foldlM_cons, List.foldl_cons, ← ih]
    dsimp only
    rw [deviation?_eq, Option.map_some, Exact.larger_eq]
    rfl

/-- A four by four matrix passes the check where no part of a defect exceeds the tolerance. -/
theorem requireUnitary_eq_ok_iff (shape : m.toMat4 = .ok u) (nonneg : 0 ≤ atol) :
    requireUnitary (some m) atol = .ok () ↔
      ∀ i j, |((u.toMatrix * u.toMatrixᴴ - 1) i j).re| ≤ atol ∧ |((u.toMatrix * u.toMatrixᴴ - 1) i j).im| ≤ atol := by
  obtain ⟨⟨rows, cols⟩, -⟩ := toMat4_eq_ok.mp shape
  have tolerance : Scalar.isTolerance atol = true := by
    simp [Scalar.isTolerance, nonneg]
  have check : requireUnitary (some m) atol = .ok () ↔ ∀ i < 4, ∀ j < 4,
      max |(m.defect 4 i j).re| |(m.defect 4 i j).im| ≤ atol := by
    rw [requireUnitary_iff_worst (.inr rfl) rows cols tolerance, worstDeviation?_eq]
    simp only [Option.some.injEq, exists_eq_left', not_lt, Jacobi.foldl_max_le_iff, nonneg, true_and, List.mem_flatMap,
      List.mem_map, List.mem_range]
    constructor
    · intro small i hi j hj
      exact small (i, j) ⟨i, hi, j, hj, rfl⟩
    · rintro small _ ⟨i, hi, j, hj, rfl⟩
      exact small i hi j hj
  rw [check]
  constructor
  · intro small i j
    rw [← toComplex_defect shape]
    exact max_le_iff.mp (small i i.isLt j j.isLt)
  · intro small i hi j hj
    have entry := small ⟨i, hi⟩ ⟨j, hj⟩
    rw [← toComplex_defect shape] at entry
    exact max_le_iff.mpr entry

theorem norm_sub_one_le (shape : m.toMat4 = .ok u) (admitted : requireUnitary (some m) 1e-6 = .ok ()) :
    ‖u.toMatrix * u.toMatrixᴴ - 1‖ ≤ 6e-6 := by
  rw [requireUnitary_eq_ok_iff shape (by norm_num)] at admitted
  refine abs_le_of_sq_le_sq' ?_ (by norm_num) |>.2
  refine (Weyl.frobenius_sq_le_of_parts admitted).trans ?_
  norm_num

end Dense

/-! ## The decomposition -/

namespace Weyl

/-- Options under which no request is missed: no class is forced, and the fidelity can be reached. -/
structure Options.Free (o : Options ℝ) : Prop where
  unforced : o.forced = none
  possible : ∀ fidelity, o.fidelity = some fidelity → fidelity ≤ 1

theorem Options.default_free : (Options.default : Options ℝ).Free := by
  refine ⟨rfl, fun fidelity requested => ?_⟩
  obtain rfl := Option.some.inj requested
  rw [Exact.decimal_eq]
  norm_num

/-- The square of a matrix in the magic basis, with the determinant divided out. -/
def magicSquare (u : Mat4 ℝ) : Mat4 ℝ := (specialUnitary u u.det).transpose * specialUnitary u u.det

section Square

variable {u : Mat4 ℝ}

theorem toMatrix_magicSquare (u : Mat4 ℝ) :
    (magicSquare u).toMatrix = (specialUnitary u u.det).toMatrixᵀ * (specialUnitary u u.det).toMatrix :=
  Mat4.toMatrix_square _

theorem magicSquare_symmetric (u : Mat4 ℝ) : (magicSquare u).toMatrixᵀ = (magicSquare u).toMatrix := by
  rw [toMatrix_magicSquare, Matrix.transpose_mul, Matrix.transpose_transpose]

/-- What the real and imaginary part of the square lack of commuting. -/
def partsCommutator (u : Mat4 ℝ) : Matrix (Fin 4) (Fin 4) ℝ :=
  (Mat4.real (magicSquare u)).toReal * (Mat4.imag (magicSquare u)).toReal -
    (Mat4.imag (magicSquare u)).toReal * (Mat4.real (magicSquare u)).toReal

theorem partsCommutator_eq (u : Mat4 ℝ) : partsCommutator u =
    (magicSquare u).toMatrix.map re * (magicSquare u).toMatrix.map im -
      (magicSquare u).toMatrix.map im * (magicSquare u).toMatrix.map re := by
  have real : (Mat4.real (magicSquare u)).toReal = (magicSquare u).toMatrix.map re := by
    ext i j
    simp [Mat4.real]
  have imaginary : (Mat4.imag (magicSquare u)).toReal = (magicSquare u).toMatrix.map im := by
    ext i j
    simp [Mat4.imag]
  rw [partsCommutator, real, imaginary]

/-- The parts of the square of a unitary commute. -/
theorem partsCommutator_of_unitary (unitary : u.Unitary) : partsCommutator u = 0 := by
  obtain ⟨unitary', -, -⟩ := specialUnitary_spec unitary
  have member : (magicSquare u).toMatrix ∈ unitaryGroup (Fin 4) ℂ := by
    rw [toMatrix_magicSquare]
    exact mul_mem (transpose_mem_unitaryGroup_iff.mpr unitary') unitary'
  have normal : (magicSquare u).toMatrix * (magicSquare u).toMatrixᴴ = (magicSquare u).toMatrixᴴ * (magicSquare u).toMatrix :=
    (mem_unitaryGroup_iff.mp member).trans (mem_unitaryGroup_iff'.mp member).symm
  rw [partsCommutator_eq, sub_eq_zero]
  exact commute_parts (magicSquare_symmetric u) normal

/-- Where the determinant is one, the commutator is as long as that of the product with the transpose and its adjoint. -/
theorem norm_partsCommutator (one : u.toMatrix.det = 1) :
    2 * ‖partsCommutator u‖ = ‖gram u.toMatrix * (gram u.toMatrix)ᴴ - (gram u.toMatrix)ᴴ * gram u.toMatrix‖ := by
  have image : gram u.toMatrix = inMagic (magicSquare u).toMatrix := by
    rw [← specialUnitary_of_det_one one, gram_inMagic, toMatrix_magicSquare]
  rw [image, inMagic_conjTranspose, inMagic_mul, inMagic_mul, ← inMagic_sub, norm_inMagic, partsCommutator_eq,
    norm_adjoint_commutator (magicSquare_symmetric u)]

/-- The parts of the square of a product commute, whatever the factors. -/
theorem partsCommutator_of_tensor {a b : OneQubit} (split : u.toMatrix = tensor a b) : partsCommutator u = 0 := by
  set c := (u.det.rpow (-0.25)).toComplex
  set z := c * c * (a.det * b.det) with scale
  have image : inMagic (specialUnitary u u.det).toMatrix = c • u.toMatrix := inMagic_specialUnitary u
  have multiple : (magicSquare u).toMatrix = z • 1 := by
    apply inMagic_injective
    rw [toMatrix_magicSquare, ← gram_inMagic, image, gram_smul, split, gram, Matrix.mul_assoc, Matrix.mul_assoc,
      ← Matrix.mul_assoc (tensor a b)ᵀ, transpose_mul_pair_mul, Matrix.mul_smul, pair_mul_self, inMagic_smul, inMagic_one,
      smul_smul]
  have normal : (magicSquare u).toMatrix * (magicSquare u).toMatrixᴴ = (magicSquare u).toMatrixᴴ * (magicSquare u).toMatrix := by
    rw [multiple, Matrix.conjTranspose_smul, Matrix.conjTranspose_one, Matrix.smul_mul, Matrix.mul_smul, Matrix.smul_mul,
      Matrix.mul_smul, smul_comm]
  rw [partsCommutator_eq, sub_eq_zero]
  exact commute_parts (magicSquare_symmetric u) normal

/-- What is decomposed has a square with parts that commute up to the tolerance. -/
theorem norm_partsCommutator_le (near : ‖u.toMatrix * u.toMatrixᴴ - 1‖ ≤ 6e-6) {f : Form ℝ}
    (canonical : canonicalForm u = .ok f) : ‖partsCommutator u‖ ≤ 5e-12 := by
  obtain ⟨d, -, found, -⟩ := canonicalForm_eq_ok canonical
  rw [partsCommutator_eq]
  exact norm_commutator_le found (norm_square_le near)

end Square

section Causes

variable {u : Mat4 ℝ} {f : Form ℝ} {o : Options ℝ} {fault : Fault ℝ}

/-- A nearly unitary matrix has no canonical form only for its eigenproblem. -/
theorem cause_of_canonicalForm_near (near : ‖u.toMatrix * u.toMatrixᴴ - 1‖ ≤ 6e-6) (failed : canonicalForm u = .error fault) :
    fault.cause? = some .degenerateEigenproblem := by
  obtain ⟨nonzero, -⟩ := specialUnitary_near near (by norm_num)
  rw [canonicalForm_eq nonzero] at failed
  rcases bind_eq_error.mp failed with degenerate | ⟨d, found, -⟩
  · exact cause_of_diagonalize degenerate
  · obtain ⟨f, canonical⟩ := exists_canonicalForm_near near found
    rw [canonicalForm_eq nonzero, failed] at canonical
    cases canonical

/-- It has one where the parts of its square commute. -/
theorem exists_canonicalForm_of_commute (near : ‖u.toMatrix * u.toMatrixᴴ - 1‖ ≤ 6e-6) (commute : partsCommutator u = 0) :
    ∃ f, canonicalForm u = .ok f := by
  rw [partsCommutator_eq, sub_eq_zero] at commute
  obtain ⟨p, values, given⟩ := exists_diagonalizes (magicSquare_symmetric u) commute
  obtain ⟨d, found⟩ := given.exists_diagonalize (norm_square_le near)
  exact exists_canonicalForm_near near found

/-- A form is kept from a decomposition only by the fidelity of its fit. -/
theorem isFidelity_of_ofForm (failed : Decomposition.ofForm u f o = .error fault) : fault.IsFidelity := by
  obtain ⟨fit, fitted⟩ := f.exists_fit (o.classFor f)
  obtain ⟨inner, before, rfl⟩ := mapError_eq_error.mp failed
  dsimp only at before
  rw [fitted] at before
  simp only [bind, Except.bind] at before
  split at before
  · cases before
    trivial
  · cases before

/-- A form in the chamber has a decomposition where no request is missed. -/
theorem exists_ofForm (chamber : f.InChamber) (free : o.Free) : ∃ target, Decomposition.ofForm u f o = .ok target := by
  cases requested : o.fidelity with
  | some fidelity =>
    obtain ⟨target, decomposed, -⟩ := ofForm_reaches chamber free.unforced requested (free.possible fidelity requested)
    exact ⟨target, decomposed⟩
  | none =>
    obtain ⟨fit, fitted⟩ := f.exists_fit (o.classFor f)
    have allowed : o.missed? (traceFidelity fit.trace) = none := by rw [Options.missed?, requested, Option.filter_none]
    rw [Decomposition.ofForm]
    dsimp only
    rw [fitted]
    simp only [bind, Except.bind, allowed]
    exact ⟨_, rfl⟩

/-- Nor is it decomposed for another reason than its eigenproblem, unless a request can be missed. -/
theorem cause_of_ofUnitary_near (near : ‖u.toMatrix * u.toMatrixᴴ - 1‖ ≤ 6e-6)
    (failed : Decomposition.ofUnitary u o = .error fault) :
    fault.cause? = some .degenerateEigenproblem ∨ fault.IsFidelity ∧ ¬ o.Free := by
  rcases bind_eq_error.mp failed with degenerate | ⟨f, canonical, missed⟩
  · exact .inl (cause_of_canonicalForm_near near degenerate)
  · refine .inr ⟨isFidelity_of_ofForm missed, fun free => ?_⟩
    obtain ⟨target, decomposed⟩ := exists_ofForm (u := u) (canonicalForm_inChamber canonical) free
    cases decomposed.symm.trans missed

/-- It is decomposed where the parts of its square commute. -/
theorem exists_ofUnitary_of_commute (near : ‖u.toMatrix * u.toMatrixᴴ - 1‖ ≤ 6e-6) (commute : partsCommutator u = 0)
    (free : o.Free) : ∃ target, Decomposition.ofUnitary u o = .ok target := by
  obtain ⟨f, canonical⟩ := exists_canonicalForm_of_commute near commute
  obtain ⟨target, decomposed⟩ := exists_ofForm (u := u) (canonicalForm_inChamber canonical) free
  exact ⟨target, ofUnitary_eq_ok.mpr ⟨f, canonical, decomposed⟩⟩

end Causes

/-- Every unitary is decomposed. -/
theorem exists_ofUnitary {u : Mat4 ℝ} {o : Options ℝ} (unitary : u.Unitary) (free : o.Free) :
    ∃ target, Decomposition.ofUnitary u o = .ok target := by
  have near : ‖u.toMatrix * u.toMatrixᴴ - 1‖ ≤ 6e-6 := by
    rw [← star_eq_conjTranspose, mem_unitaryGroup_iff.mp unitary, sub_self, norm_zero]
    norm_num
  exact exists_ofUnitary_of_commute near (partsCommutator_of_unitary unitary) free

/-- An admitted matrix fails to be decomposed only in its eigenproblem, unless a class is forced or a fidelity requested
that cannot be reached. It is decomposed where the parts of its square commute, and only where they commute within
`5e-12`. -/
theorem ofUnitary_of_admitted {m : Dense ℝ} {u : Mat4 ℝ} (shape : m.toMat4 = .ok u)
    (admitted : Dense.requireUnitary (some m) 1e-6 = .ok ()) :
    (∀ o fault, Decomposition.ofUnitary u o = .error fault →
      fault.cause? = some .degenerateEigenproblem ∨ fault.IsFidelity ∧ ¬ o.Free) ∧
    (partsCommutator u = 0 → ∀ o : Options ℝ, o.Free → ∃ target, Decomposition.ofUnitary u o = .ok target) ∧
    (∀ o target, Decomposition.ofUnitary u o = .ok target → ∀ i j, |partsCommutator u i j| ≤ 5e-12) := by
  have near := Dense.norm_sub_one_le shape admitted
  refine ⟨fun o fault failed => cause_of_ofUnitary_near near failed,
    fun commute o free => exists_ofUnitary_of_commute near commute free, fun o target decomposed i j => ?_⟩
  obtain ⟨f, canonical, -⟩ := ofUnitary_eq_ok.mp decomposed
  exact (norm_apply_le _ i j).trans (norm_partsCommutator_le near canonical)

/-- A right angle about the second axis of the high qubit, with a number written for the root of a half. -/
def writtenTurn (x : ℝ) : Mat4 ℝ := Mat4.kron (Mat2.of ⟨x, 0⟩ ⟨-x, 0⟩ ⟨x, 0⟩ ⟨x, 0⟩) Square.identity

theorem writtenTurn_mul_conjTranspose (x : ℝ) :
    (writtenTurn x).toMatrix * (writtenTurn x).toMatrixᴴ = ((2 * x ^ 2 : ℝ) : ℂ) • 1 := by
  have factor : (Mat2.of ⟨x, 0⟩ ⟨-x, 0⟩ ⟨x, 0⟩ ⟨x, 0⟩ : Mat2 ℝ).toMatrix * (Mat2.of ⟨x, 0⟩ ⟨-x, 0⟩ ⟨x, 0⟩ ⟨x, 0⟩ : Mat2 ℝ).toMatrixᴴ =
      ((2 * x ^ 2 : ℝ) : ℂ) • 1 := by
    ext i j
    fin_cases i <;> fin_cases j <;> simp [Mat2.toMatrix_of, Matrix.mul_apply, Fin.sum_univ_two, Cx.toComplex_mk] <;> ring
  rw [writtenTurn, Mat4.toMatrix_kron, Square.toMatrix_identity, tensor_conjTranspose, tensor_mul_tensor, factor,
    Matrix.conjTranspose_one, Matrix.mul_one, tensor_smul_left, tensor_one_one]

/-- With seven digits it is admitted, though it is no unitary, and decomposed. -/
theorem ofUnitary_of_admitted_written :
    (Dense.ofMat4 (writtenTurn 0.7071068)).toMat4 = .ok (writtenTurn 0.7071068) ∧
      Dense.requireUnitary (some (Dense.ofMat4 (writtenTurn 0.7071068))) (1e-6 : ℝ) = .ok () ∧
      ¬ (writtenTurn 0.7071068).Unitary ∧ ∃ target, Decomposition.ofUnitary (writtenTurn 0.7071068) .default = .ok target := by
  have shape : (Dense.ofMat4 (writtenTurn 0.7071068)).toMat4 = .ok (writtenTurn 0.7071068) := Dense.toMat4_ofMat4 _
  have admitted : Dense.requireUnitary (some (Dense.ofMat4 (writtenTurn 0.7071068))) (1e-6 : ℝ) = .ok () := by
    rw [Dense.requireUnitary_eq_ok_iff shape (by norm_num), writtenTurn_mul_conjTranspose]
    intro i j
    rw [Matrix.sub_apply, Matrix.smul_apply, Matrix.one_apply]
    split <;> norm_num [abs_le]
  have commute : partsCommutator (writtenTurn 0.7071068) = 0 := partsCommutator_of_tensor (Mat4.toMatrix_kron _ _)
  refine ⟨shape, admitted, fun unitary => ?_, (ofUnitary_of_admitted shape admitted).2.1 commute .default Options.default_free⟩
  have product := congrFun (congrFun (mem_unitaryGroup_iff.mp unitary) 0) 0
  rw [star_eq_conjTranspose, writtenTurn_mul_conjTranspose, Matrix.smul_apply, Matrix.one_apply_eq] at product
  have real := congrArg re product
  norm_num at real

/-- Three vectors of the basis in a cycle, after a shear of the low qubit. -/
def sheared (e : ℝ) : Mat4 ℝ := Square.ofFn fun i j =>
  ⟨!![1, e, 0, 0; 0, 0, 1, e; 0, 0, 0, 1; 0, 1, 0, 0] i j, 0⟩

theorem toMatrix_sheared (e : ℝ) : (sheared e).toMatrix = !![1, (e : ℂ), 0, 0; 0, 0, 1, (e : ℂ); 0, 0, 0, 1; 0, 1, 0, 0] := by
  ext i j
  fin_cases i <;> fin_cases j <;> simp [sheared, Cx.toComplex_mk]

theorem det_sheared (e : ℝ) : (sheared e).toMatrix.det = 1 := by
  rw [toMatrix_sheared]
  simp [Matrix.det_succ_row_zero, Fin.sum_univ_succ]

theorem gram_sheared (e : ℝ) :
    gram (sheared e).toMatrix = !![0, 0, -1, -2 * (e : ℂ); 0, 0, 0, 1; -1, -2 * (e : ℂ), 0, 0; 0, 1, 0, 0] := by
  rw [gram, toMatrix_sheared, form_eq, ← Matrix.ext_iff]
  simp only [Matrix.mul_apply, Fin.sum_univ_four, Matrix.transpose_apply]
  simp [Fin.forall_fin_succ]
  ring

theorem sheared_mul_conjTranspose (e : ℝ) : (sheared e).toMatrix * (sheared e).toMatrixᴴ - 1 =
    (!![e ^ 2, 0, 0, e; 0, e ^ 2, e, 0; 0, e, 0, 0; e, 0, 0, 0] : Matrix (Fin 4) (Fin 4) ℝ).map ofReal := by
  rw [toMatrix_sheared, ← Matrix.ext_iff]
  simp only [Matrix.sub_apply, Matrix.mul_apply, Fin.sum_univ_four, Matrix.conjTranspose_apply]
  simp [Fin.forall_fin_succ, Matrix.one_apply, sq]

/-- With a shear by half a millionth it is admitted, and has no decomposition. -/
theorem ofUnitary_sheared :
    (Dense.ofMat4 (sheared 0.0000005)).toMat4 = .ok (sheared 0.0000005) ∧
      Dense.requireUnitary (some (Dense.ofMat4 (sheared 0.0000005))) (1e-6 : ℝ) = .ok () ∧
      ∃ fault, Decomposition.ofUnitary (sheared 0.0000005) .default = .error fault ∧
        fault.cause? = some .degenerateEigenproblem := by
  have shape : (Dense.ofMat4 (sheared 0.0000005)).toMat4 = .ok (sheared 0.0000005) := Dense.toMat4_ofMat4 _
  have admitted : Dense.requireUnitary (some (Dense.ofMat4 (sheared 0.0000005))) (1e-6 : ℝ) = .ok () := by
    rw [Dense.requireUnitary_eq_ok_iff shape (by norm_num), sheared_mul_conjTranspose]
    intro i j
    rw [Matrix.map_apply, Complex.ofReal_re, Complex.ofReal_im, abs_zero]
    refine ⟨?_, by norm_num⟩
    fin_cases i <;> fin_cases j <;> norm_num
  have near := Dense.norm_sub_one_le shape admitted
  refine ⟨shape, admitted, ?_⟩
  cases run : Decomposition.ofUnitary (sheared 0.0000005) .default with
  | ok target =>
    obtain ⟨f, canonical, -⟩ := ofUnitary_eq_ok.mp run
    have short := norm_partsCommutator_le near canonical
    have length := norm_partsCommutator (det_sheared 0.0000005)
    have entry := norm_apply_le (gram (sheared 0.0000005).toMatrix * (gram (sheared 0.0000005).toMatrix)ᴴ -
      (gram (sheared 0.0000005).toMatrix)ᴴ * gram (sheared 0.0000005).toMatrix) 0 1
    have value : (gram (sheared 0.0000005).toMatrix * (gram (sheared 0.0000005).toMatrix)ᴴ -
        (gram (sheared 0.0000005).toMatrix)ᴴ * gram (sheared 0.0000005).toMatrix) 0 1 = ((-4 * 0.0000005 : ℝ) : ℂ) := by
      rw [gram_sheared, Matrix.sub_apply, Matrix.mul_apply, Matrix.mul_apply, Fin.sum_univ_four, Fin.sum_univ_four]
      simp only [Matrix.conjTranspose_apply]
      simp
      norm_num
    rw [← length, value, Complex.norm_real] at entry
    norm_num at entry short
    linarith
  | error fault =>
    rcases cause_of_ofUnitary_near near run with degenerate | ⟨-, forced⟩
    · exact ⟨fault, rfl, degenerate⟩
    · exact absurd Options.default_free forced

end Weyl

end Entangle

end
