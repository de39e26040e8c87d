import Mathlib
import Entangle.Proofs.Interaction

/-!
# Rotations of four-space are products

A matrix that is a proper rotation in the magic basis keeps the bilinear form `Y ⊗ Y`. The form makes
the four blocks of such a matrix multiples of one another, so the matrix is a product of two one-qubit
matrices of determinant one; a unitary product of that kind has unitary factors.
-/

noncomputable section

namespace Entangle.Weyl

open Matrix Complex

/-! ## Blocks -/

/-- One of the four blocks of a two-qubit matrix. -/
def quarter (m : TwoQubit) (i j : Fin 2) : OneQubit :=
  m.submatrix (fun a => bits.symm (i, a)) fun b => bits.symm (j, b)

theorem quarter_apply (m : TwoQubit) (i j a b : Fin 2) :
    quarter m i j a b = m (bits.symm (i, a)) (bits.symm (j, b)) := rfl

theorem bits_symm_values :
    bits.symm (0, 0) = 0 ∧ bits.symm (0, 1) = 1 ∧ bits.symm (1, 0) = 2 ∧ bits.symm (1, 1) = 3 := by
  decide

/-- A matrix whose blocks are the multiples of one matrix by the entries of another is the product of
the two. -/
theorem eq_tensor_of_quarters {m : TwoQubit} {l r : OneQubit}
    (blocks : ∀ i j, quarter m i j = l i j • r) : m = tensor l r := by
  ext i j
  have entry := congrFun (congrFun (blocks (Mat4.high i) (Mat4.high j)) (Mat4.low i)) (Mat4.low j)
  rw [quarter_apply, Matrix.smul_apply, smul_eq_mul] at entry
  have index (k : Fin 4) : bits.symm (Mat4.high k, Mat4.low k) = k := bits.symm_apply_apply k
  rw [index, index] at entry
  rw [tensor_apply, entry]

/-- A matrix of two rows that is its own adjugate is a multiple of the identity. -/
theorem eq_smul_one_of_adjugate {m : OneQubit} (own : m.adjugate = m) : m = m 0 0 • 1 := by
  rw [Matrix.adjugate_fin_two] at own
  have upper := congrFun (congrFun own 0) 1
  have lower := congrFun (congrFun own 1) 0
  have corner := congrFun (congrFun own 0) 0
  simp only [Matrix.of_apply, Matrix.cons_val', Matrix.cons_val_zero, Matrix.cons_val_one,
    Matrix.cons_val_fin_one] at upper lower corner
  ext i j
  fin_cases i <;> fin_cases j
  · simp
  · have : m 0 1 = 0 := by linear_combination -upper / 2
    simp [this]
  · have : m 1 0 = 0 := by linear_combination -lower / 2
    simp [this]
  · simpa using corner

theorem adjugate_adjugate_fin_two (m : OneQubit) : m.adjugate.adjugate = m := by
  rw [Matrix.adjugate_fin_two, Matrix.adjugate_fin_two]
  ext i j
  fin_cases i <;> fin_cases j <;> simp

/-- Where one adjugate product is symmetric, the second factor is proportional to the first. -/
theorem det_smul_of_adjugate_mul {a c : OneQubit} (symmetric : a.adjugate * c = c.adjugate * a) :
    a.det • c = (a.adjugate * c) 0 0 • a := by
  have own : (a.adjugate * c).adjugate = a.adjugate * c := by
    rw [Matrix.adjugate_mul_distrib, adjugate_adjugate_fin_two, symmetric]
  calc
    a.det • c = a * (a.adjugate * c) := by
      rw [← Matrix.mul_assoc, Matrix.mul_adjugate, Matrix.smul_mul, Matrix.one_mul]
    _ = a * ((a.adjugate * c) 0 0 • (1 : OneQubit)) := by rw [← eq_smul_one_of_adjugate own]
    _ = _ := by rw [Matrix.mul_smul, Matrix.mul_one]

theorem det_smul_of_mul_adjugate {a b : OneQubit} (symmetric : b * a.adjugate = a * b.adjugate) :
    a.det • b = (b * a.adjugate) 0 0 • a := by
  have own : (b * a.adjugate).adjugate = b * a.adjugate := by
    rw [Matrix.adjugate_mul_distrib, adjugate_adjugate_fin_two, symmetric]
  calc
    a.det • b = b * a.adjugate * a := by
      rw [Matrix.mul_assoc, Matrix.adjugate_mul, Matrix.mul_smul, Matrix.mul_one]
    _ = ((b * a.adjugate) 0 0 • (1 : OneQubit)) * a := by rw [← eq_smul_one_of_adjugate own]
    _ = _ := by rw [Matrix.smul_mul, Matrix.one_mul]

theorem eq_smul_of_det_smul {a b : OneQubit} {t : ℂ} (regular : a.det ≠ 0) (multiple : a.det • b = t • a) :
    b = (t / a.det) • a := by
  rw [div_eq_inv_mul, mul_smul, ← multiple, smul_smul, inv_mul_cancel₀ regular, one_smul]

/-! ## The form -/

/-- Keeping the form `Y ⊗ Y`, on the rows and on the columns. -/
structure KeepsForm (m : TwoQubit) : Prop where
  columns : mᵀ * Axis.y.pair * m = Axis.y.pair
  rows : m * Axis.y.pair * mᵀ = Axis.y.pair

theorem KeepsForm.of_rows {m : TwoQubit} (rows : m * Axis.y.pair * mᵀ = Axis.y.pair) : KeepsForm m := by
  have inverse : m * (Axis.y.pair * mᵀ * Axis.y.pair) = 1 := by
    rw [← Matrix.mul_assoc, ← Matrix.mul_assoc, rows, pair_mul_self]
  refine ⟨?_, rows⟩
  calc
    _ = Axis.y.pair * (Axis.y.pair * mᵀ * Axis.y.pair * m) := by
      simp only [← Matrix.mul_assoc, pair_mul_self, Matrix.one_mul]
    _ = _ := by rw [mul_eq_one_comm.mp inverse, Matrix.mul_one]

theorem form_eq : Axis.y.pair = !![0, 0, 0, 1; 0, 0, -1, 0; 0, -1, 0, 0; 1, 0, 0, 0] := by
  rw [Axis.pair, ← Matrix.ext_iff]
  simp [Axis.halfTurn, Fin.forall_fin_succ]

theorem magic_mul_transpose : (magic : Mat4 ℝ).toMatrix * magic.toMatrixᵀ = (2 : ℂ) • Axis.y.pair := by
  rw [toMatrix_magic, form_eq, ← Matrix.ext_iff]
  simp [Matrix.mul_apply, Fin.sum_univ_four, Fin.forall_fin_succ]
  norm_num

theorem columns_apply {m : TwoQubit} (keeps : KeepsForm m) (i j : Fin 4) :
    m 0 i * m 3 j - m 1 i * m 2 j - m 2 i * m 1 j + m 3 i * m 0 j = Axis.y.pair i j := by
  rw [← keeps.columns]
  simp only [Matrix.mul_apply, Fin.sum_univ_four, Matrix.transpose_apply, form_eq]
  simp
  ring

theorem rows_apply {m : TwoQubit} (keeps : KeepsForm m) (i j : Fin 4) :
    m i 0 * m j 3 - m i 1 * m j 2 - m i 2 * m j 1 + m i 3 * m j 0 = Axis.y.pair i j := by
  rw [← keeps.rows]
  simp only [Matrix.mul_apply, Fin.sum_univ_four, Matrix.transpose_apply, form_eq]
  simp
  ring

/-- The form as relations between the blocks. -/
theorem adjugate_mul_quarter {m : TwoQubit} (keeps : KeepsForm m) :
    (quarter m 0 0).adjugate * quarter m 1 0 = (quarter m 1 0).adjugate * quarter m 0 0 := by
  have c00 := columns_apply keeps 0 0
  have c01 := columns_apply keeps 0 1
  have c11 := columns_apply keeps 1 1
  rw [form_eq] at c00 c01 c11
  simp at c00 c01 c11
  rw [Matrix.adjugate_fin_two, Matrix.adjugate_fin_two, ← Matrix.ext_iff]
  simp [Matrix.mul_apply, Fin.forall_fin_succ, quarter_apply, bits_symm_values]
  refine ⟨⟨?_, ?_⟩, ?_, ?_⟩
  · linear_combination -c01
  · linear_combination -c11
  · linear_combination c00
  · linear_combination c01

theorem quarter_mul_adjugate {m : TwoQubit} (keeps : KeepsForm m) :
    quarter m 0 1 * (quarter m 0 0).adjugate = quarter m 0 0 * (quarter m 0 1).adjugate := by
  have r00 := rows_apply keeps 0 0
  have r01 := rows_apply keeps 0 1
  have r11 := rows_apply keeps 1 1
  rw [form_eq] at r00 r01 r11
  simp at r00 r01 r11
  rw [Matrix.adjugate_fin_two, Matrix.adjugate_fin_two, ← Matrix.ext_iff]
  simp [Matrix.mul_apply, Fin.forall_fin_succ, quarter_apply, bits_symm_values]
  refine ⟨⟨?_, ?_⟩, ?_, ?_⟩
  · linear_combination -r01
  · linear_combination r00
  · linear_combination -r11
  · linear_combination r01

theorem adjugate_mul_corner {m : TwoQubit} (keeps : KeepsForm m) :
    (quarter m 0 0).adjugate * quarter m 1 1 - (quarter m 1 0).adjugate * quarter m 0 1 = 1 := by
  have c02 := columns_apply keeps 0 2
  have c03 := columns_apply keeps 0 3
  have c12 := columns_apply keeps 1 2
  have c13 := columns_apply keeps 1 3
  rw [form_eq] at c02 c03 c12 c13
  simp at c02 c03 c12 c13
  rw [Matrix.adjugate_fin_two, Matrix.adjugate_fin_two, ← Matrix.ext_iff]
  simp only [Matrix.sub_apply, Matrix.mul_apply, Fin.sum_univ_two, Fin.forall_fin_two]
  simp [quarter_apply, bits_symm_values]
  refine ⟨⟨?_, ?_⟩, ?_, ?_⟩
  · linear_combination -c12
  · linear_combination -c13
  · linear_combination c02
  · linear_combination c03

/-- A matrix that keeps the form is a product as soon as its first block is not singular. -/
theorem exists_tensor_of_corner {m : TwoQubit} (keeps : KeepsForm m)
    (regular : (quarter m 0 0).det ≠ 0) :
    ∃ l r : OneQubit, l.det = 1 ∧ r.det = 1 ∧ m = tensor l r := by
  set a := quarter m 0 0
  obtain ⟨s, square⟩ := IsAlgClosed.exists_eq_mul_self a.det
  have scale : s ≠ 0 := by
    intro zero
    exact regular (by rw [square, zero, zero_mul])
  obtain ⟨γ, lower⟩ : ∃ γ : ℂ, quarter m 1 0 = γ • a :=
    ⟨_, eq_smul_of_det_smul regular (det_smul_of_adjugate_mul (adjugate_mul_quarter keeps))⟩
  obtain ⟨β, upper⟩ : ∃ β : ℂ, quarter m 0 1 = β • a :=
    ⟨_, eq_smul_of_det_smul regular (det_smul_of_mul_adjugate (quarter_mul_adjugate keeps))⟩
  have corner : quarter m 1 1 = (1 / a.det + γ * β) • a := by
    have relation := adjugate_mul_corner keeps
    rw [lower, upper, Matrix.adjugate_smul, Matrix.smul_mul, Matrix.mul_smul, Matrix.adjugate_mul,
      sub_eq_iff_eq_add] at relation
    have scaled : a.det • quarter m 1 1 = (1 + γ * β * a.det) • a := by
      rw [← Matrix.one_mul (quarter m 1 1), ← Matrix.smul_mul, ← Matrix.mul_adjugate, Matrix.mul_assoc,
        relation, Matrix.mul_add, Matrix.mul_one]
      simp [smul_smul, add_smul, mul_assoc]
    rw [eq_smul_of_det_smul regular scaled]
    congr 1
    field_simp
  refine ⟨s • !![1, β; γ, 1 / a.det + γ * β], s⁻¹ • a, ?_, ?_, eq_tensor_of_quarters ?_⟩
  · rw [Matrix.det_smul, Matrix.det_fin_two_of, Fintype.card_fin, square]
    field_simp
    ring
  · rw [Matrix.det_smul, Fintype.card_fin, square]
    field_simp
  · rw [Fin.forall_fin_two, Fin.forall_fin_two, Fin.forall_fin_two, upper, lower, corner]
    simp [smul_smul, mul_comm s, scale, a]

/-! ## Singular blocks -/

/-- The minor of two rows of the first two columns. -/
def minor (m : TwoQubit) (i j : Fin 4) : ℂ := m i 0 * m j 1 - m j 0 * m i 1

/-- The determinant with the last two columns replaced, by the minors of the first two. -/
theorem det_with_columns (m : TwoQubit) (v w : Fin 4 → ℂ) :
    ((m.updateCol 2 v).updateCol 3 w).det =
      minor m 0 1 * (v 2 * w 3 - v 3 * w 2) - minor m 0 2 * (v 1 * w 3 - v 3 * w 1) +
      minor m 0 3 * (v 1 * w 2 - v 2 * w 1) + minor m 1 2 * (v 0 * w 3 - v 3 * w 0) -
      minor m 1 3 * (v 0 * w 2 - v 2 * w 0) + minor m 2 3 * (v 0 * w 1 - v 1 * w 0) := by
  rw [Matrix.det_succ_row_zero]
  simp [Fin.sum_univ_succ, Matrix.det_fin_three, minor, Matrix.updateCol_apply, Fin.succAbove]
  ring

/-- Under the form, the determinant with the last two columns replaced depends on the products of the
first two with them. -/
theorem det_with_columns_of_form {m : TwoQubit} (keeps : KeepsForm m) (proper : m.det = 1)
    (v w : Fin 4 → ℂ) :
    ((m.updateCol 2 v).updateCol 3 w).det =
      ((mᵀ * Axis.y.pair) *ᵥ v) 0 * ((mᵀ * Axis.y.pair) *ᵥ w) 1 -
        ((mᵀ * Axis.y.pair) *ᵥ v) 1 * ((mᵀ * Axis.y.pair) *ᵥ w) 0 := by
  set n := mᵀ * Axis.y.pair
  have unit : n.det = 1 := by
    rw [Matrix.det_mul, Matrix.det_transpose, proper, Axis.pair, det_tensor]
    simp [Axis.halfTurn]
  have turned : n * (m.updateCol 2 v).updateCol 3 w =
      (Axis.y.pair.updateCol 2 (n *ᵥ v)).updateCol 3 (n *ᵥ w) := by
    rw [Matrix.mul_updateCol, Matrix.mul_updateCol, keeps.columns]
  have determinant := congrArg Matrix.det turned
  rw [Matrix.det_mul, unit, one_mul, det_with_columns Axis.y.pair, form_eq] at determinant
  rw [determinant]
  simp [minor]

/-- Under the form, a matrix of determinant one has no two singular blocks in its first columns. -/
theorem det_quarter_ne_zero {m : TwoQubit} (keeps : KeepsForm m) (proper : m.det = 1)
    (singular : (quarter m 0 0).det = 0) : (quarter m 1 0).det ≠ 0 := by
  intro singular'
  have minor01 : minor m 0 1 = 0 := by
    simpa [Matrix.det_fin_two, quarter_apply, bits_symm_values, minor, mul_comm] using singular
  have minor23 : minor m 2 3 = 0 := by
    simpa [Matrix.det_fin_two, quarter_apply, bits_symm_values, minor, mul_comm] using singular'
  have minor02 : minor m 0 2 = 0 := by
    have expansion := det_with_columns_of_form keeps proper (Pi.single 1 1) (Pi.single 3 1)
    rw [det_with_columns, form_eq] at expansion
    simp [minor, Matrix.mul_apply, Fin.sum_univ_four] at expansion ⊢
    linear_combination -expansion / 2
  have minor13 : minor m 1 3 = 0 := by
    have expansion := det_with_columns_of_form keeps proper (Pi.single 0 1) (Pi.single 2 1)
    rw [det_with_columns, form_eq] at expansion
    simp [minor, Matrix.mul_apply, Fin.sum_univ_four] at expansion ⊢
    linear_combination -expansion / 2
  have minor03 : minor m 0 3 = minor m 1 2 := by
    have multiple := det_smul_of_adjugate_mul (adjugate_mul_quarter keeps)
    rw [singular, zero_smul] at multiple
    have zero : ((quarter m 0 0).adjugate * quarter m 1 0) 0 0 = 0 := by
      rcases smul_eq_zero.mp multiple.symm with zero | zero
      · exact zero
      · rw [zero, Matrix.adjugate_zero, Matrix.zero_mul, Matrix.zero_apply]
    have relation := columns_apply keeps 0 1
    rw [Matrix.adjugate_fin_two] at zero
    rw [form_eq] at relation
    simp [quarter_apply, bits_symm_values, Matrix.mul_apply, Fin.sum_univ_two, minor] at zero relation ⊢
    linear_combination relation + 2 * zero
  have minor12 : minor m 1 2 = 0 := by
    have relation : minor m 0 1 * minor m 2 3 - minor m 0 2 * minor m 1 3 +
        minor m 0 3 * minor m 1 2 = 0 := by
      unfold minor
      ring
    rw [minor01, minor02, minor03] at relation
    simpa using relation
  have expansion := det_with_columns m (fun i => m i 2) fun i => m i 3
  rw [minor03, minor01, minor02, minor12, minor13, minor23] at expansion
  have own : (m.updateCol 2 fun i => m i 2).updateCol 3 (fun i => m i 3) = m := by
    ext i j
    fin_cases j <;> simp
  rw [own, proper] at expansion
  simp at expansion

/-! ## Products -/

theorem keepsForm_halfTurn_mul {m : TwoQubit} (keeps : KeepsForm m) :
    KeepsForm (tensor Axis.y.halfTurn 1 * m) := by
  have odd : Axis.y.halfTurnᵀ = -Axis.y.halfTurn := by
    simp [Axis.halfTurn, ← Matrix.ext_iff, Fin.forall_fin_two]
  have cancel : Axis.y.halfTurn * Axis.y.halfTurnᵀ = 1 := by
    rw [odd, Matrix.mul_neg, halfTurn_mul_self, neg_neg]
  apply KeepsForm.of_rows
  calc
    _ = tensor Axis.y.halfTurn 1 * (m * Axis.y.pair * mᵀ) * (tensor Axis.y.halfTurn 1)ᵀ := by
      simp only [Matrix.transpose_mul, Matrix.mul_assoc]
    _ = _ := by
      rw [keeps.rows, Axis.pair, tensor_transpose, tensor_mul_tensor, tensor_mul_tensor,
        Matrix.mul_assoc, cancel]
      simp

/-- A matrix of determinant one that keeps the form is a product of matrices of determinant one. -/
theorem exists_tensor_of_keepsForm {m : TwoQubit} (keeps : KeepsForm m) (proper : m.det = 1) :
    ∃ l r : OneQubit, l.det = 1 ∧ r.det = 1 ∧ m = tensor l r := by
  by_cases singular : (quarter m 0 0).det = 0
  · have turned := keepsForm_halfTurn_mul keeps
    have corner : quarter (tensor Axis.y.halfTurn 1 * m) 0 0 = quarter m 1 0 := by
      ext i j
      fin_cases i <;>
        simp [quarter_apply, bits_symm_values, Matrix.mul_apply, Fin.sum_univ_four, Axis.halfTurn,
          Matrix.one_apply]
    obtain ⟨l, r, left, right, split⟩ :=
      exists_tensor_of_corner turned (by rw [corner]; exact det_quarter_ne_zero keeps proper singular)
    refine ⟨-Axis.y.halfTurn * l, r, ?_, right, ?_⟩
    · rw [Matrix.det_mul, left]
      simp [Axis.halfTurn]
    · have back : tensor (-Axis.y.halfTurn) 1 * tensor Axis.y.halfTurn 1 = 1 := by
        rw [tensor_mul_tensor, Matrix.neg_mul, halfTurn_mul_self, neg_neg, Matrix.one_mul, tensor_one_one]
      rw [← Matrix.one_mul r, ← tensor_mul_tensor, ← split, ← Matrix.mul_assoc, back, Matrix.one_mul]
  · exact exists_tensor_of_corner keeps singular

/-- A product is the identity only of multiples of the identity, by inverse factors. -/
theorem eq_smul_one_of_tensor_eq_one {a b : OneQubit} (one : tensor a b = 1) :
    a = a 0 0 • 1 ∧ b = b 0 0 • 1 ∧ a 0 0 * b 0 0 = 1 := by
  have entry (i j : Fin 4) := congrFun (congrFun one i) j
  have e00 := entry 0 0
  have e01 := entry 0 1
  have e02 := entry 0 2
  have e10 := entry 1 0
  have e11 := entry 1 1
  have e20 := entry 2 0
  have e22 := entry 2 2
  simp only [tensor_apply, high_values, low_values, Matrix.one_apply, Fin.reduceEq, ↓reduceIte]
    at e00 e01 e02 e10 e11 e20 e22
  have left : a 0 0 ≠ 0 := left_ne_zero_of_mul_eq_one e00
  have right : b 0 0 ≠ 0 := right_ne_zero_of_mul_eq_one e00
  have upperA : a 0 1 = 0 := (mul_eq_zero.mp e02).resolve_right right
  have lowerA : a 1 0 = 0 := (mul_eq_zero.mp e20).resolve_right right
  have equalA : a 1 1 = a 0 0 := mul_right_cancel₀ right (e22.trans e00.symm)
  have upperB : b 0 1 = 0 := (mul_eq_zero.mp e01).resolve_left left
  have lowerB : b 1 0 = 0 := (mul_eq_zero.mp e10).resolve_left left
  have equalB : b 1 1 = b 0 0 := mul_left_cancel₀ left (e11.trans e00.symm)
  refine ⟨?_, ?_, e00⟩
  · ext i j
    fin_cases i <;> fin_cases j <;> simp [upperA, lowerA, equalA]
  · ext i j
    fin_cases i <;> fin_cases j <;> simp [upperB, lowerB, equalB]

/-- The factors of determinant one of a unitary product are unitary. -/
theorem factors_mem_unitary {l r : OneQubit} (left : l.det = 1) (right : r.det = 1)
    (unitary : tensor l r ∈ unitaryGroup (Fin 4) ℂ) :
    l ∈ specialUnitaryGroup (Fin 2) ℂ ∧ r ∈ specialUnitaryGroup (Fin 2) ℂ := by
  rw [mem_unitaryGroup_iff, star_eq_conjTranspose, tensor_conjTranspose, tensor_mul_tensor] at unitary
  obtain ⟨first, second, inverse⟩ := eq_smul_one_of_tensor_eq_one unitary
  have square : (l * lᴴ) 0 0 * (l * lᴴ) 0 0 = 1 := by
    have determinant : (l * lᴴ).det = 1 := by
      rw [Matrix.det_mul, Matrix.det_conjTranspose, left, star_one, one_mul]
    rwa [first, Matrix.det_smul, Matrix.det_one, mul_one, Fintype.card_fin, pow_two] at determinant
  have positive : 0 ≤ ((l * lᴴ) 0 0).re := by
    rw [Matrix.mul_apply, Fin.sum_univ_two]
    simp only [Matrix.conjTranspose_apply, Complex.star_def, Complex.mul_conj, Complex.add_re,
      Complex.ofReal_re]
    exact add_nonneg (Complex.normSq_nonneg _) (Complex.normSq_nonneg _)
  have unit : (l * lᴴ) 0 0 = 1 := by
    rcases mul_self_eq_one_iff.mp square with one | minus
    · exact one
    · rw [minus] at positive
      norm_num at positive
  rw [unit, one_mul] at inverse
  rw [unit, one_smul] at first
  rw [inverse, one_smul] at second
  exact ⟨mem_specialUnitaryGroup_iff.mpr ⟨mem_unitaryGroup_iff.mpr first, left⟩,
    mem_specialUnitaryGroup_iff.mpr ⟨mem_unitaryGroup_iff.mpr second, right⟩⟩

theorem map_mul_transpose {o : Matrix (Fin 4) (Fin 4) ℝ} (orthogonal : o * oᵀ = 1) :
    o.map ofReal * (o.map ofReal)ᵀ = 1 := by
  have image := congrArg (fun m : Matrix (Fin 4) (Fin 4) ℝ => m.map ofRealHom) orthogonal
  simp only [Matrix.map_mul, Matrix.transpose_map] at image
  exact image.trans (by simp)

theorem transpose_map_ofReal (o : Matrix (Fin 4) (Fin 4) ℝ) : (o.map ofReal)ᵀ = star (o.map ofReal) := by
  ext i j
  simp

theorem map_mem_unitary {o : Matrix (Fin 4) (Fin 4) ℝ} (orthogonal : o * oᵀ = 1) :
    o.map ofReal ∈ unitaryGroup (Fin 4) ℂ := by
  rw [mem_unitaryGroup_iff, ← transpose_map_ofReal, map_mul_transpose orthogonal]

theorem det_map_ofReal (o : Matrix (Fin 4) (Fin 4) ℝ) : (o.map ofReal).det = (o.det : ℂ) :=
  (ofRealHom.map_det o).symm

/-- A real orthogonal matrix keeps the form once it is taken out of the magic basis. -/
theorem keepsForm_inMagic {o : Matrix (Fin 4) (Fin 4) ℝ} (orthogonal : o * oᵀ = 1) :
    KeepsForm (inMagic (o.map ofReal)) := by
  have middle : (magicInverse : Mat4 ℝ).toMatrix * Axis.y.pair * magicInverse.toMatrixᵀ =
      (1 / 2 : ℂ) • 1 := by
    have half : Axis.y.pair = (1 / 2 : ℂ) • ((magic : Mat4 ℝ).toMatrix * magic.toMatrixᵀ) := by
      rw [magic_mul_transpose, smul_smul]
      norm_num
    rw [half, Matrix.mul_smul, Matrix.smul_mul]
    congr 1
    calc
      _ = (magicInverse : Mat4 ℝ).toMatrix * magic.toMatrix *
          (magicInverse.toMatrix * magic.toMatrix)ᵀ := by
        simp only [Matrix.transpose_mul, Matrix.mul_assoc]
      _ = _ := by rw [magicInverse_mul_magic, Matrix.transpose_one, Matrix.mul_one]
  apply KeepsForm.of_rows
  calc
    _ = (magic : Mat4 ℝ).toMatrix * o.map ofReal *
        (magicInverse.toMatrix * Axis.y.pair * magicInverse.toMatrixᵀ) * (o.map ofReal)ᵀ *
          magic.toMatrixᵀ := by
      simp only [inMagic, Matrix.transpose_mul, Matrix.mul_assoc]
    _ = (1 / 2 : ℂ) • ((magic : Mat4 ℝ).toMatrix * (o.map ofReal * (o.map ofReal)ᵀ) *
        magic.toMatrixᵀ) := by
      rw [middle]
      simp only [Matrix.mul_smul, Matrix.smul_mul, Matrix.mul_one, Matrix.mul_assoc]
    _ = _ := by
      rw [map_mul_transpose orthogonal, Matrix.mul_one, magic_mul_transpose, smul_smul]
      norm_num

/-- A proper rotation in the magic basis is a product of special unitary matrices. -/
theorem exists_tensor_of_rotation {o : Matrix (Fin 4) (Fin 4) ℝ} (orthogonal : o * oᵀ = 1)
    (proper : o.det = 1) :
    ∃ l r : OneQubit, l ∈ specialUnitaryGroup (Fin 2) ℂ ∧ r ∈ specialUnitaryGroup (Fin 2) ℂ ∧
      inMagic (o.map ofReal) = tensor l r := by
  have determinant : (inMagic (o.map ofReal)).det = 1 := by
    rw [det_inMagic, det_map_ofReal, proper, Complex.ofReal_one]
  obtain ⟨l, r, left, right, split⟩ :=
    exists_tensor_of_keepsForm (keepsForm_inMagic orthogonal) determinant
  have unitary : inMagic (o.map ofReal) ∈ unitaryGroup (Fin 4) ℂ :=
    inMagic_mem_unitary_iff.mpr (map_mem_unitary orthogonal)
  rw [split] at unitary
  obtain ⟨specialL, specialR⟩ := factors_mem_unitary left right unitary
  exact ⟨l, r, specialL, specialR, split⟩

end Entangle.Weyl

end
