import Mathlib
import Entangle.Weyl.Decomposition
import Entangle.Proofs.ChamberFolding
import Entangle.Proofs.Determinant
import Entangle.Proofs.Diagonalisation
import Entangle.Proofs.ProductSplit

/-!
# The canonical form of a unitary

A unitary of determinant one in the magic basis is a rotation, a diagonal of phases and a rotation:
whatever order the columns of the diagonalising rotation come in, the phases make the factor on the
left real. Both rotations are products of one-qubit unitaries, so the decomposition has no way to fail
on an exact diagonalisation, and it denotes the unitary that it was made from.
-/

noncomputable section

namespace Entangle.Weyl

open Matrix Complex

variable {m : TwoQubit} {values : Fin 4 → ℂ}

/-! ## Order, sense and phases -/

/-- The column that an order of the axes puts at each place. -/
def columnOf (order : Fin 3 × Fin 3 × Fin 3) : Fin 4 → Fin 4 :=
  ![order.1.castSucc, order.2.1.castSucc, order.2.2.castSucc, 3]

theorem axisOrder_perm (distance : Fin 3 → ℝ) :
    [(axisOrder distance).1, (axisOrder distance).2.1, (axisOrder distance).2.2].Perm [0, 1, 2] := by
  have sorted := Jacobi.sortUp_perm (fun i j => decide (distance i < distance j)) [0, 1, 2]
  unfold axisOrder
  split
  next nearest middle farthest same =>
    rw [same] at sorted
    exact (List.perm_append_singleton nearest [middle, farthest]).trans sorted
  next => decide

theorem columnOf_bijective (order : Fin 3 × Fin 3 × Fin 3)
    (perm : [order.1, order.2.1, order.2.2].Perm [0, 1, 2]) : Function.Bijective (columnOf order) := by
  rw [← Finite.injective_iff_bijective]
  obtain ⟨i, j, k⟩ := order
  revert i j k
  decide

theorem toReal_orderColumns (p : Real4 ℝ) (order : Fin 3 × Fin 3 × Fin 3) :
    (orderColumns p order).toReal = p.toReal.submatrix id (columnOf order) := by
  ext i j
  fin_cases j <;> simp [orderColumns, columnOf]

/-- Reversing the last axis where needed makes the rotation proper. -/
theorem properRotation_spec {q : Real4 ℝ} (given : Diagonalizes m q.toReal values) :
    Diagonalizes m (properRotation q).toReal values ∧ (properRotation q).toReal.det = 1 := by
  have square : q.toReal.det * q.toReal.det = 1 := by
    have product := congrArg Matrix.det given.orthogonal
    rwa [Matrix.det_mul, Matrix.det_transpose, Matrix.det_one] at product
  have cases := mul_self_eq_one_iff.mp square
  unfold properRotation
  rw [Real4.det_eq, Exact.zero_eq]
  split
  next negative =>
    have flipped : (Square.ofFn fun i j => if j = 3 then -q i j else q i j : Real4 ℝ).toReal =
        q.toReal * diagonal ![1, 1, 1, -1] := by
      ext i j
      fin_cases j <;> simp
    have value : q.toReal.det = -1 := by
      rcases cases with one | minus
      · rw [one] at negative
        norm_num at negative
      · exact minus
    rw [flipped]
    refine ⟨given.flip fun k => ?_, ?_⟩
    · fin_cases k <;> simp
    · rw [Matrix.det_mul, Matrix.det_diagonal, Fin.prod_univ_four, value]
      simp
  next positive =>
    refine ⟨given, ?_⟩
    rcases cases with one | minus
    · exact one
    · rw [minus] at positive
      norm_num at positive

/-- Twice the half phase of a value turns it onto the positive axis. -/
theorem exp_half_arg (z : Cx ℝ) : exp ((-z.arg / 2 : ℝ) * I) ^ 2 * z.toComplex = ‖z.toComplex‖ := by
  have polar := Complex.norm_mul_exp_arg_mul_I z.toComplex
  rw [← Cx.arg_eq] at polar
  nth_rewrite 1 [← polar]
  rw [mul_left_comm, ← Complex.exp_nat_mul, ← Complex.exp_add]
  push_cast
  ring_nf
  rw [Complex.exp_zero, mul_one]

section Phases

variable {stored : Vector (Cx ℝ) 4}

theorem sum_halfPhases (stored : Vector (Cx ℝ) 4) : ∑ k : Fin 4, (halfPhases stored).get k = 0 := by
  rw [Fin.sum_univ_four]
  exact add_neg_cancel (-(stored.get 0).arg / 2 + -(stored.get 1).arg / 2 + -(stored.get 2).arg / 2)

/-- Each phase but the last turns its value onto the positive axis. -/
theorem exp_halfPhases {k : Fin 4} (early : k ≠ 3) :
    exp (((halfPhases stored).get k : ℝ) * I) ^ 2 * (stored.get k).toComplex = ‖(stored.get k).toComplex‖ := by
  have half (j : Fin 4) := exp_half_arg (stored.get j)
  fin_cases k
  · exact half 0
  · exact half 1
  · exact half 2
  · exact absurd rfl early

/-- Phases that balance keep the product of the values. -/
theorem prod_exp_halfPhases (stored : Vector (Cx ℝ) 4) :
    ∏ k : Fin 4, (exp (((halfPhases stored).get k : ℝ) * I) ^ 2 * (stored.get k).toComplex) =
      ∏ k : Fin 4, (stored.get k).toComplex := by
  rw [Finset.prod_mul_distrib, Finset.prod_pow, ← Complex.exp_sum, ← Finset.sum_mul, ← Complex.ofReal_sum, sum_halfPhases]
  simp

/-- The phases of a diagonalisation balance, and each is half of what its value lacks. -/
theorem halfPhases_spec (unit : ∀ k : Fin 4, ‖(stored.get k).toComplex‖ = 1)
    (product : ∏ k : Fin 4, (stored.get k).toComplex = 1) (k : Fin 4) :
    exp (((halfPhases stored).get k : ℝ) * I) ^ 2 * (stored.get k).toComplex = 1 := by
  have early {k : Fin 4} (before : k ≠ 3) :
      exp (((halfPhases stored).get k : ℝ) * I) ^ 2 * (stored.get k).toComplex = 1 := by
    rw [exp_halfPhases before, unit, Complex.ofReal_one]
  by_cases last : k = 3
  · have all := prod_exp_halfPhases stored
    rw [product, Fin.prod_univ_four, early (by decide), early (by decide), early (by decide), one_mul, one_mul, one_mul] at all
    rw [last]
    exact all
  · exact early last

end Phases

/-- The angles of an interaction with given phases that balance. -/
def balanced (d : Fin 4 → ℝ) : Axis → ℝ :=
  angles ((d 1 + d 3) / 2) ((d 0 + d 3) / 2) ((d 2 + d 3) / 2)

theorem coupling_balanced {d : Fin 4 → ℝ} (balance : ∑ k, d k = 0) :
    coupling (balanced d) * inMagic (diagonal fun k => exp (d k * I)) = 1 := by
  rw [Fin.sum_univ_four] at balance
  rw [coupling, inMagic_mul, Matrix.diagonal_mul_diagonal, ← inMagic_one, ← Matrix.diagonal_one]
  congr 2
  funext k
  rw [← Complex.exp_add, ← add_mul, ← Complex.ofReal_add]
  have zero : phases (balanced d) k + d k = 0 := by
    fin_cases k <;> simp [phases, balanced, angles] <;> linarith
  rw [zero]
  simp

theorem axisAngle_eq (stored : Vector ℝ 4) (k : Fin 3) :
    ∃ n : ℤ, axisAngle stored k = (stored.get k.castSucc + stored.get 3) / 2 + 2 * Real.pi * n := by
  obtain ⟨n, value⟩ := Exact.modPositive_eq ((stored.get k.castSucc + stored.get 3) / 2) Scalar.tau
  refine ⟨-n, ?_⟩
  rw [axisAngle]
  refine value.trans ?_
  rw [Exact.tau_eq]
  push_cast
  ring

/-! ## The start -/

section Start

variable {up : Mat4 ℝ} {d : Diagonalization ℝ}

def startOrder (d : Diagonalization ℝ) : Fin 3 × Fin 3 × Fin 3 :=
  axisOrder fun k => rightAngleDistance (axisAngle (halfPhases d.values) k)

/-- The proper rotation with its columns in order. -/
def startFrame (d : Diagonalization ℝ) : Real4 ℝ :=
  properRotation (orderColumns d.rotation (startOrder d))

/-- The phases in the order of the columns. -/
def startPhases (d : Diagonalization ℝ) (k : Fin 4) : ℝ := (halfPhases d.values).get (columnOf (startOrder d) k)

/-- The factor on the left, with the phases taken up. -/
def startLeft (up : Mat4 ℝ) (d : Diagonalization ℝ) : Mat4 ℝ :=
  up * (startFrame d).complex * Mat4.diag (Cx.cis (startPhases d 0)) (Cx.cis (startPhases d 1))
    (Cx.cis (startPhases d 2)) (Cx.cis (startPhases d 3))

theorem startFolding_eq {outer inner : Product ℝ}
    (outerOk : Product.decompose (intoMagic (startLeft up d)) = .ok outer)
    (innerOk : Product.decompose (intoMagic (startFrame d).complex.transpose) = .ok inner) (phase : ℝ) :
    startFolding up d phase = .ok
      ⟨axisAngle (halfPhases d.values) (startOrder d).1, axisAngle (halfPhases d.values) (startOrder d).2.1,
        axisAngle (halfPhases d.values) (startOrder d).2.2, phase + (outer.phase + inner.phase), outer.left,
        outer.right, inner.left, inner.right, 0⟩ := by
  have steps : startFolding up d phase = (do
      let outer ← Outcome.step "New" (Product.decompose (intoMagic (startLeft up d)))
      let inner ← Outcome.step "New" (Product.decompose (intoMagic (startFrame d).complex.transpose))
      return ⟨axisAngle (halfPhases d.values) (startOrder d).1,
        axisAngle (halfPhases d.values) (startOrder d).2.1,
        axisAngle (halfPhases d.values) (startOrder d).2.2, phase + (outer.phase + inner.phase),
        outer.left, outer.right, inner.left, inner.right, 0⟩) := rfl
  rw [steps, outerOk, innerOk]
  rfl

theorem startFrame_spec (given : Diagonalizes m d.rotation.toReal fun k => (d.values.get k).toComplex) :
    Diagonalizes m (startFrame d).toReal (fun k => (d.values.get (columnOf (startOrder d) k)).toComplex) ∧
      (startFrame d).toReal.det = 1 := by
  have bijective := columnOf_bijective (startOrder d) (axisOrder_perm _)
  have reordered := given.reorder bijective
  rw [← toReal_orderColumns] at reordered
  exact properRotation_spec reordered

theorem sum_startPhases (d : Diagonalization ℝ) : ∑ k, startPhases d k = 0 :=
  ((columnOf_bijective (startOrder d) (axisOrder_perm _)).sum_comp fun k => (halfPhases d.values).get k).trans
    (sum_halfPhases d.values)

theorem startPhases_spec (given : Diagonalizes m d.rotation.toReal fun k => (d.values.get k).toComplex)
    (unitary : m ∈ unitaryGroup (Fin 4) ℂ) (special : m.det = 1) (k : Fin 4) :
    exp (startPhases d k * I) ^ 2 * (d.values.get (columnOf (startOrder d) k)).toComplex = 1 :=
  halfPhases_spec (given.norm_values unitary) (given.prod_values.trans special) _

theorem toMatrix_startLeft :
    (startLeft up d).toMatrix = up.toMatrix * (startFrame d).toReal.map ofReal *
      diagonal fun k => exp (startPhases d k * I) := by
  rw [startLeft, Mat4.toMatrix_mul, Mat4.toMatrix_mul, Real4.toMatrix_complex, Mat4.toMatrix_diag]
  congr 2
  funext k
  fin_cases k <;> simp

/-- The two rotations around the interaction give the matrix back. -/
theorem inMagic_startLeft_mul (orthogonal : (startFrame d).toReal * (startFrame d).toRealᵀ = 1)
    (balance : ∑ k, startPhases d k = 0) :
    inMagic (startLeft up d).toMatrix * coupling (balanced (startPhases d)) *
      inMagic ((startFrame d).toRealᵀ.map ofReal) = inMagic up.toMatrix := by
  have inverse : inMagic (diagonal fun k => exp (startPhases d k * I)) *
      coupling (balanced (startPhases d)) = 1 := mul_eq_one_comm.mp (coupling_balanced balance)
  rw [toMatrix_startLeft, ← inMagic_mul, Matrix.mul_assoc (inMagic _), inverse, Matrix.mul_one, inMagic_mul,
    Matrix.mul_assoc, Matrix.transpose_map, map_mul_transpose orthogonal, Matrix.mul_one]

/-- The axes of a start, up to whole turns. -/
theorem dressed_startAngles (phase : ℝ) (k1l k1r k2l k2r : Mat2 ℝ) :
    dressed phase k1l k1r k2l k2r (angles (axisAngle (halfPhases d.values) (startOrder d).2.1)
      (axisAngle (halfPhases d.values) (startOrder d).1)
      (axisAngle (halfPhases d.values) (startOrder d).2.2)) =
      dressed phase k1l k1r k2l k2r (balanced (startPhases d)) := by
  obtain ⟨n0, angle0⟩ := axisAngle_eq (halfPhases d.values) (startOrder d).1
  obtain ⟨n1, angle1⟩ := axisAngle_eq (halfPhases d.values) (startOrder d).2.1
  obtain ⟨n2, angle2⟩ := axisAngle_eq (halfPhases d.values) (startOrder d).2.2
  refine dressed_turns (Axis.rec n1 n0 n2) fun j => ?_
  cases j
  · exact angle1
  · exact angle0
  · exact angle2

/-- The factor on the right is split into unitary factors. -/
theorem exists_startRight (given : Diagonalizes m d.rotation.toReal fun k => (d.values.get k).toComplex) :
    ∃ inner : Product ℝ, Product.decompose (intoMagic (startFrame d).complex.transpose) = .ok inner ∧
      inner.left.Unitary ∧ inner.right.Unitary ∧
      exp (inner.phase * I) • tensor inner.left.toMatrix inner.right.toMatrix = inMagic ((startFrame d).toRealᵀ.map ofReal) := by
  obtain ⟨frame, proper⟩ := startFrame_spec given
  have orthogonal : (startFrame d).toRealᵀ * (startFrame d).toRealᵀᵀ = 1 := by
    rw [Matrix.transpose_transpose]
    exact mul_eq_one_comm.mp frame.orthogonal
  obtain ⟨l, r, specialL, specialR, split⟩ :=
    exists_tensor_of_rotation orthogonal (by rw [Matrix.det_transpose, proper])
  have image : (intoMagic (startFrame d).complex.transpose).toMatrix = inMagic ((startFrame d).toRealᵀ.map ofReal) := by
    rw [toMatrix_intoMagic, Square.toMatrix_transpose, Real4.toMatrix_complex, Matrix.transpose_map]
  have innerForm : (intoMagic (startFrame d).complex.transpose).toMatrix = (1 : ℂ) • tensor l r := by
    rw [image, split, one_smul]
  obtain ⟨inner, innerOk, innerL, innerR, innerEq⟩ := Product.decompose_tensor norm_one specialL specialR innerForm
  exact ⟨inner, innerOk, (mem_specialUnitaryGroup_iff.mp innerL).1, (mem_specialUnitaryGroup_iff.mp innerR).1,
    innerEq.trans image⟩

/-- Where the left factor is split, the folding that starts from an exact diagonalisation denotes the matrix under its
phase; its inner factors are unitary. -/
theorem startFolding_of_split (given : Diagonalizes m d.rotation.toReal fun k => (d.values.get k).toComplex)
    {outer : Product ℝ} (outerOk : Product.decompose (intoMagic (startLeft up d)) = .ok outer)
    (outerEq : exp (outer.phase * I) • tensor outer.left.toMatrix outer.right.toMatrix = inMagic (startLeft up d).toMatrix)
    (phase : ℝ) :
    ∃ f : Folding ℝ, startFolding up d phase = .ok f ∧ f.reflections = 0 ∧ f.k1l = outer.left ∧ f.k1r = outer.right ∧
      f.k2l.Unitary ∧ f.k2r.Unitary ∧
      dressed f.phase f.k1l f.k1r f.k2l f.k2r f.axes = exp (phase * I) • inMagic up.toMatrix := by
  obtain ⟨inner, innerOk, innerL, innerR, innerEq⟩ := exists_startRight given
  have frame := (startFrame_spec given).1
  refine ⟨_, startFolding_eq outerOk innerOk phase, rfl, rfl, rfl, innerL, innerR, ?_⟩
  rw [Folding.axes, dressed_startAngles, ← inMagic_startLeft_mul frame.orthogonal (sum_startPhases d), ← outerEq,
    ← innerEq, dressed]
  push_cast
  rw [add_mul, add_mul, Complex.exp_add, Complex.exp_add]
  simp only [Matrix.mul_smul, Matrix.smul_mul, smul_smul]
  congr 1
  ring

/-- For a special unitary matrix the left factor is split as well, into unitary factors. -/
theorem startFolding_spec (unitary : up.Unitary) (special : up.toMatrix.det = 1)
    (given : Diagonalizes (up.toMatrixᵀ * up.toMatrix) d.rotation.toReal fun k => (d.values.get k).toComplex)
    (phase : ℝ) :
    ∃ f : Folding ℝ, startFolding up d phase = .ok f ∧ f.reflections = 0 ∧ f.toForm.Factored ∧
      dressed f.phase f.k1l f.k1r f.k2l f.k2r f.axes = exp (phase * I) • inMagic up.toMatrix := by
  have member : up.toMatrixᵀ * up.toMatrix ∈ unitaryGroup (Fin 4) ℂ :=
    mul_mem (transpose_mem_unitaryGroup_iff.mpr unitary) unitary
  have one : (up.toMatrixᵀ * up.toMatrix).det = 1 := by
    rw [Matrix.det_mul, Matrix.det_transpose, special, one_mul]
  obtain ⟨frame, proper⟩ := startFrame_spec given
  have halves := startPhases_spec given member one
  obtain ⟨o, orthogonal, proper', left⟩ :=
    exists_left_rotation unitary special frame proper (sum_startPhases d) halves
  rw [← toMatrix_startLeft] at left
  obtain ⟨l, r, specialL, specialR, split⟩ := exists_tensor_of_rotation orthogonal proper'
  have outerForm : (intoMagic (startLeft up d)).toMatrix = (1 : ℂ) • tensor l r := by
    rw [toMatrix_intoMagic, left, split, one_smul]
  obtain ⟨outer, outerOk, outerL, outerR, outerEq⟩ :=
    Product.decompose_tensor norm_one specialL specialR outerForm
  rw [toMatrix_intoMagic] at outerEq
  obtain ⟨f, started, fresh, leftIs, rightIs, innerL, innerR, denotes⟩ := startFolding_of_split given outerOk outerEq phase
  refine ⟨f, started, fresh, ⟨?_, ?_, innerL, innerR⟩, denotes⟩
  · change f.k1l.Unitary
    rw [leftIs]
    exact (mem_specialUnitaryGroup_iff.mp outerL).1
  · change f.k1r.Unitary
    rw [rightIs]
    exact (mem_specialUnitaryGroup_iff.mp outerR).1

end Start

/-! ## The decomposition -/

section Decomposition

variable {u : Mat4 ℝ}

theorem norm_det (unitary : u.Unitary) : ‖u.det.toComplex‖ = 1 := by
  rw [Mat4.toComplex_det, norm_det_of_unitary unitary]

theorem det_ne_zero (unitary : u.Unitary) : u.det.toComplex ≠ 0 := by
  intro zero
  have unit := norm_det unitary
  rw [zero, norm_zero] at unit
  exact zero_ne_one unit

theorem toComplex_fourthRoot (unitary : u.Unitary) :
    (u.det.rpow (-0.25)).toComplex = exp (-((u.det.arg / 4 : ℝ) * I)) := by
  rw [Cx.toComplex_rpow (det_ne_zero unitary), norm_det unitary, Real.one_rpow, Complex.ofReal_one, one_mul, ← Cx.arg_eq,
    Exact.decimal_eq]
  push_cast
  ring_nf

theorem inMagic_specialUnitary (u : Mat4 ℝ) :
    inMagic (specialUnitary u u.det).toMatrix = (u.det.rpow (-0.25)).toComplex • u.toMatrix := by
  rw [specialUnitary, inMagic_fromMagic, Square.toMatrix_scale]

/-- Dividing by a fourth root of the determinant leaves a unitary of determinant one. -/
theorem specialUnitary_spec (unitary : u.Unitary) :
    (specialUnitary u u.det).Unitary ∧ (specialUnitary u u.det).toMatrix.det = 1 ∧
      exp ((u.det.arg / 4 : ℝ) * I) • inMagic (specialUnitary u u.det).toMatrix = u.toMatrix := by
  have unit := norm_det unitary
  have root := toComplex_fourthRoot unitary
  set t := u.det.arg / 4 with quarter
  have image : inMagic (specialUnitary u u.det).toMatrix = exp (-(t * I)) • u.toMatrix := by
    rw [inMagic_specialUnitary, root]
  refine ⟨?_, ?_, ?_⟩
  · apply inMagic_mem_unitary_iff.mp
    rw [image, mem_unitaryGroup_iff, star_smul, Matrix.smul_mul, Matrix.mul_smul, smul_smul,
      mem_unitaryGroup_iff.mp unitary, Complex.star_def, Complex.mul_conj', ← neg_mul, ← Complex.ofReal_neg,
      Complex.norm_exp_ofReal_mul_I]
    simp
  · have polar := Complex.norm_mul_exp_arg_mul_I u.det.toComplex
    rw [unit, Complex.ofReal_one, one_mul, ← Cx.arg_eq, Mat4.toComplex_det] at polar
    rw [← det_inMagic, image, Matrix.det_smul, ← polar, Fintype.card_fin, ← Complex.exp_nat_mul,
      ← Complex.exp_add, quarter]
    push_cast
    ring_nf
    exact Complex.exp_zero
  · rw [image, smul_smul, ← Complex.exp_add, add_neg_cancel, Complex.exp_zero, one_smul]

/-- A diagonalisation that is exact, in terms of its rotation and its values. -/
theorem diagonalizes_of_matrix {m : Mat4 ℝ} {d : Diagonalization ℝ} (orthogonal : d.rotation.toReal * d.rotation.toRealᵀ = 1)
    (exact : d.matrix = m) : Diagonalizes m.toMatrix d.rotation.toReal fun k => (d.values.get k).toComplex := by
  refine ⟨orthogonal, ?_⟩
  rw [← exact, Diagonalization.matrix, Mat4.toMatrix_mul, Mat4.toMatrix_mul, Square.toMatrix_transpose,
    Real4.toMatrix_complex, Square.toMatrix_diagonal]

/-- The canonical form of a regular matrix is folded from a start at the diagonalisation. -/
theorem canonicalForm_eq (nonzero : u.det.toComplex ≠ 0) : canonicalForm u = (do
    let d ← diagonalize ((specialUnitary u u.det).transpose * specialUnitary u u.det)
    return (← startFolding (specialUnitary u u.det) d (u.det.arg / 4)).fold.toForm) := by
  have regular : ¬ (!u.isFinite || u.det == 0) = true := by
    rw [Square.isFinite_eq, Bool.not_true, Bool.false_or, Cx.beq_iff]
    intro zero
    rw [zero, Cx.toComplex_zero] at nonzero
    exact nonzero rfl
  unfold canonicalForm
  dsimp only
  rw [if_neg regular]
  rfl

/-- The canonical form is folded from its start. -/
theorem canonicalForm_of_start (nonzero : u.det.toComplex ≠ 0) {d : Diagonalization ℝ}
    (found : diagonalize ((specialUnitary u u.det).transpose * specialUnitary u u.det) = .ok d) {f : Folding ℝ}
    (started : startFolding (specialUnitary u u.det) d (u.det.arg / 4) = .ok f) : canonicalForm u = .ok f.fold.toForm := by
  rw [canonicalForm_eq nonzero, found]
  change (do return (← startFolding _ d (u.det.arg / 4)).fold.toForm) = _
  rw [started]
  rfl

/-- The canonical form exists, denotes the unitary and has unitary factors, whenever the diagonalisation is
exact. -/
theorem canonicalForm_factored (unitary : u.Unitary) {d : Diagonalization ℝ}
    (found : diagonalize ((specialUnitary u u.det).transpose * specialUnitary u u.det) = .ok d)
    (orthogonal : d.rotation.toReal * d.rotation.toRealᵀ = 1)
    (exact : d.matrix = (specialUnitary u u.det).transpose * specialUnitary u u.det) :
    ∃ f : Form ℝ, canonicalForm u = .ok f ∧ f.matrix = u ∧ f.Factored := by
  obtain ⟨unitary', special, back⟩ := specialUnitary_spec unitary
  have given := diagonalizes_of_matrix orthogonal exact
  rw [Mat4.toMatrix_square] at given
  obtain ⟨f, started, fresh, factored, denotes⟩ := startFolding_spec unitary' special given (u.det.arg / 4)
  refine ⟨f.fold.toForm, canonicalForm_of_start (det_ne_zero unitary) found started, ?_, Folding.factored_fold factored⟩
  apply Square.toMatrix_injective
  rw [Folding.toMatrix_fold fresh, denotes, back]

theorem canonicalForm_spec (unitary : u.Unitary) {d : Diagonalization ℝ}
    (found : diagonalize ((specialUnitary u u.det).transpose * specialUnitary u u.det) = .ok d)
    (orthogonal : d.rotation.toReal * d.rotation.toRealᵀ = 1)
    (exact : d.matrix = (specialUnitary u u.det).transpose * specialUnitary u u.det) :
    ∃ f : Form ℝ, canonicalForm u = .ok f ∧ f.matrix = u := by
  obtain ⟨f, canonical, denotes, -⟩ := canonicalForm_factored unitary found orthogonal exact
  exact ⟨f, canonical, denotes⟩

/-- Without a requested fidelity the canonical form is kept as it is. -/
theorem ofForm_withoutFidelity (u : Mat4 ℝ) (f : Form ℝ) :
    ∃ dec : Decomposition ℝ,
      Decomposition.ofForm u f Options.default.withoutFidelity = .ok dec ∧ dec.toForm = f := by
  refine ⟨_, rfl, ?_⟩
  have still : angles (f.a - f.a) (f.b - f.b) (f.c - f.c) = 0 := by
    funext k
    cases k <;> simp [angles]
  have angle : (canonicalTrace (f.a - f.a) (f.b - f.b) (f.c - f.c)).arg = 0 := by
    rw [Cx.arg_eq, toComplex_canonicalTrace, still, coupling_zero, Matrix.trace_one]
    simp
  change { f with phase := f.phase + (canonicalTrace (f.a - f.a) (f.b - f.b) (f.c - f.c)).arg } = f
  rw [angle, add_zero]

/-- The coordinates are the angles of the canonical form. -/
theorem coordinates_of_canonicalForm {f : Form ℝ} (canonical : canonicalForm u = .ok f) :
    coordinates u = .ok (f.a, f.b, f.c) := by
  obtain ⟨dec, kept, same⟩ := ofForm_withoutFidelity u f
  have decomposed : Decomposition.ofUnitary u Options.default.withoutFidelity = .ok dec := by
    rw [Decomposition.ofUnitary, canonical]
    exact kept
  rw [coordinates, decomposed, ← same]
  rfl

end Decomposition

end Entangle.Weyl

end
