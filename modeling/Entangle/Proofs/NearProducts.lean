import Mathlib
import Entangle.Proofs.NearRotations
import Entangle.Proofs.OuterFactors

/-!
# Near products

A diagonalisation is accepted when it reproduces the matrix within its tolerance, so the matrix that a
decomposition splits is near a product of special unitaries without being one. The factors of such a splitting
have determinants of modulus one and are as near to unitaries, with a constant that the tests of the splitting
bound; foldings and fittings keep this.
-/

noncomputable section

namespace Entangle

open Matrix Complex
open scoped Matrix.Norms.Frobenius

theorem norm_submatrix_le (x : TwoQubit) {rows columns : Fin 2 → Fin 4} (apart : Function.Injective rows)
    (apart' : Function.Injective columns) : ‖x.submatrix rows columns‖ ≤ ‖x‖ := by
  refine (pow_le_pow_iff_left₀ (norm_nonneg _) (norm_nonneg _) two_ne_zero).mp ?_
  rw [frobenius_sq, frobenius_sq]
  have chosen {f : Fin 2 → Fin 4} (injective : Function.Injective f) {a : Fin 4 → ℝ} (nonneg : ∀ i, 0 ≤ a i) :
      ∑ i, a (f i) ≤ ∑ i, a i :=
    (Finset.sum_map Finset.univ ⟨f, injective⟩ a).symm.trans_le (Finset.sum_le_univ_sum_of_nonneg nonneg)
  calc
    ∑ i, ∑ j, ‖x (rows i) (columns j)‖ ^ 2 ≤ ∑ i, ∑ j, ‖x (rows i) j‖ ^ 2 :=
      Finset.sum_le_sum fun i _ => chosen apart' fun j => sq_nonneg ‖x (rows i) j‖
    _ ≤ ∑ i, ∑ j, ‖x i j‖ ^ 2 := chosen apart fun i => Finset.sum_nonneg fun j _ => sq_nonneg ‖x i j‖

theorem frobenius_sq_tensor (a b : OneQubit) : ‖tensor a b‖ ^ 2 = ‖a‖ ^ 2 * ‖b‖ ^ 2 := by
  simp only [frobenius_sq, Fin.sum_univ_four, Fin.sum_univ_two, tensor_apply, high_values, low_values, norm_mul]
  ring

theorem norm_tensor (a b : OneQubit) : ‖tensor a b‖ = ‖a‖ * ‖b‖ := by
  refine (pow_left_inj₀ (norm_nonneg _) (by positivity) two_ne_zero).mp ?_
  rw [frobenius_sq_tensor, mul_pow]

theorem frobenius_sq_one : ‖(1 : OneQubit)‖ ^ 2 = 2 := by
  rw [← Matrix.diagonal_one, frobenius_sq_diagonal, Fin.sum_univ_two, norm_one]
  norm_num

/-- A unitary that is nearly diagonal has its diagonal near the unit circle, and the product of it near its
determinant. -/
theorem diagonal_near {n : TwoQubit} {δ : ℝ} (unitary : n ∈ unitaryGroup (Fin 4) ℂ) (small : δ ≤ 1)
    (rest : ‖off n‖ ^ 2 ≤ δ) :
    (∀ k, ‖n k k‖ ≤ 1) ∧ (∀ k, 1 - δ ≤ ‖n k k‖) ∧ ‖∏ k, n k k - n.det‖ ≤ 23 * δ := by
  have nonneg : 0 ≤ δ := (sq_nonneg _).trans rest
  have outside (i j : Fin 4) (apart : i ≠ j) : ‖n i j‖ ^ 2 ≤ δ := by
    have entry := norm_apply_le (off n) i j
    rw [off_apply, if_neg apart] at entry
    exact (pow_le_pow_left₀ (norm_nonneg _) entry 2).trans rest
  have on (k : Fin 4) : ‖n k k‖ ≤ 1 := entry_norm_bound_of_unitary unitary k k
  refine ⟨on, fun k => ?_, ?_⟩
  · have row : ∑ j, ‖n k j‖ ^ 2 = 1 := by
      have entry := congrFun (congrFun (mem_unitaryGroup_iff.mp unitary) k) k
      rw [Matrix.mul_apply, Matrix.one_apply_eq] at entry
      simp only [Matrix.star_apply, Complex.star_def, Complex.mul_conj'] at entry
      exact_mod_cast entry
    have tail : ∑ j, ‖off n k j‖ ^ 2 ≤ δ := by
      refine le_trans ?_ rest
      rw [frobenius_sq]
      exact Finset.single_le_sum (fun i _ => Finset.sum_nonneg fun j _ => sq_nonneg ‖off n i j‖) (Finset.mem_univ k)
    nlinarith [on k, norm_nonneg (n k k), sum_norm_sq_row n k]
  · rw [norm_sub_rev, ← Real.sq_sqrt nonneg]
    exact norm_det_sub_le (Real.sqrt_nonneg _) (Real.sqrt_le_one.mpr small) on fun i j apart =>
      Real.le_sqrt_of_sq_le (outside i j apart)

namespace Weyl

/-! ## The start of a decomposition -/

/-- A matrix is short where the parts of its entries are small. -/
theorem frobenius_sq_le_of_parts {x : TwoQubit} {atol : ℝ} (small : ∀ i j, |(x i j).re| ≤ atol ∧ |(x i j).im| ≤ atol) :
    ‖x‖ ^ 2 ≤ 32 * atol ^ 2 := by
  have entry (i j : Fin 4) : ‖x i j‖ ^ 2 ≤ 2 * atol ^ 2 := by
    obtain ⟨real, imaginary⟩ := small i j
    rw [← Complex.normSq_eq_norm_sq, Complex.normSq_apply]
    have first := sq_le_sq' (abs_le.mp real).1 (abs_le.mp real).2
    have second := sq_le_sq' (abs_le.mp imaginary).1 (abs_le.mp imaginary).2
    linarith
  rw [frobenius_sq]
  refine (Finset.sum_le_sum fun i _ => Finset.sum_le_sum fun j _ => entry i j).trans ?_
  simp only [Finset.sum_const, Finset.card_univ, Fintype.card_fin, nsmul_eq_mul]
  push_cast
  linarith

theorem norm_sub_sq_le_of_isClose {a b : Mat4 ℝ} {atol : ℝ} (close : a.isClose b atol = true) :
    ‖a.toMatrix - b.toMatrix‖ ^ 2 ≤ 32 * atol ^ 2 := by
  rw [Square.isClose, Square.all₂_iff] at close
  refine frobenius_sq_le_of_parts fun i j => ?_
  have each := close i j
  rwa [Cx.isClose, Bool.and_eq_true_iff, decide_eq_true_iff, decide_eq_true_iff, Exact.abs_eq, Exact.abs_eq] at each

theorem isClose_of_norm_sub_le {n : ℕ} {a b : Square n (Cx ℝ)} {atol : ℝ} (near : ‖a.toMatrix - b.toMatrix‖ ≤ atol) :
    a.isClose b atol = true := by
  rw [Square.isClose, Square.all₂_iff]
  intro i j
  have entry := (norm_apply_le (a.toMatrix - b.toMatrix) i j).trans near
  rw [Cx.isClose, Bool.and_eq_true_iff, decide_eq_true_iff, decide_eq_true_iff]
  exact ⟨(Complex.abs_re_le_norm _).trans entry, (Complex.abs_im_le_norm _).trans entry⟩

/-- A matrix that a diagonalisation reproduces. -/
theorem norm_sub_le_of_isClose {a b : Mat4 ℝ} (close : a.isClose b 1e-13 = true) : ‖b.toMatrix - a.toMatrix‖ ≤ 57e-14 := by
  have tolerance := norm_sub_sq_le_of_isClose close
  rw [norm_sub_rev] at tolerance
  refine abs_le_of_sq_le_sq' ?_ (by norm_num) |>.2
  norm_num at tolerance ⊢
  linarith

/-- Values near the unit circle with a product near one are turned near one by twice the phases. -/
theorem norm_halfPhases_le {stored : Vector (Cx ℝ) 4} {η π : ℝ} (little : η ≤ 1 / 100)
    (small : ∀ k : Fin 4, ‖(stored.get k).toComplex‖ ≤ 1 + η) (large : ∀ k : Fin 4, 1 - η ≤ ‖(stored.get k).toComplex‖)
    (product : ‖∏ k : Fin 4, (stored.get k).toComplex - 1‖ ≤ π) (k : Fin 4) :
    ‖exp (((halfPhases stored).get k : ℝ) * I) ^ 2 * (stored.get k).toComplex - 1‖ ≤ 4 * η + π := by
  have nonneg : 0 ≤ η := by linarith [small 0, large 0]
  have nonneg' : 0 ≤ π := (norm_nonneg _).trans product
  by_cases last : k = 3
  · set x := exp (((halfPhases stored).get k : ℝ) * I) ^ 2 * (stored.get k).toComplex with value
    set r := ‖(stored.get 0).toComplex‖ * ‖(stored.get 1).toComplex‖ * ‖(stored.get 2).toComplex‖ with radius
    have whole : r * x = ∏ k : Fin 4, (stored.get k).toComplex := by
      rw [← prod_exp_halfPhases, Fin.prod_univ_four, exp_halfPhases (by decide), exp_halfPhases (by decide),
        exp_halfPhases (by decide), value, radius, last]
      push_cast
      rfl
    have modulus : ‖x‖ ≤ 1 + η := by
      rw [value, norm_mul, norm_pow, Complex.norm_exp_ofReal_mul_I, one_pow, one_mul]
      exact small k
    have short : ‖(1 - r : ℂ)‖ ≤ 31 / 10 * η := by
      have below : (1 - η) * (1 - η) * (1 - η) ≤ r :=
        mul_le_mul (mul_le_mul (large 0) (large 1) (by linarith) (norm_nonneg _)) (large 2) (by linarith) (by positivity)
      have above : r ≤ (1 + η) * (1 + η) * (1 + η) :=
        mul_le_mul (mul_le_mul (small 0) (small 1) (norm_nonneg _) (by linarith)) (small 2) (norm_nonneg _) (by positivity)
      rw [← Complex.ofReal_one, ← Complex.ofReal_sub, Complex.norm_real, Real.norm_eq_abs, abs_le]
      constructor <;> nlinarith
    have split : x - 1 = (1 - r) * x + (∏ k : Fin 4, (stored.get k).toComplex - 1) := by
      rw [← whole]
      ring
    rw [split]
    refine (norm_add_le _ _).trans ?_
    rw [norm_mul]
    have first := mul_le_mul short modulus (norm_nonneg x) (by linarith)
    nlinarith
  · rw [exp_halfPhases last, ← Complex.ofReal_one, ← Complex.ofReal_sub, Complex.norm_real, Real.norm_eq_abs, abs_le]
    constructor <;> linarith [small k, large k]

section Start

variable {up : Mat4 ℝ} {d : Diagonalization ℝ}

/-- The values in a frame are the diagonal of the turned matrix. -/
theorem get_values_ofRotation (m : Mat4 ℝ) (q : Real4 ℝ) (k : Fin 4) :
    ((Diagonalization.ofRotation m q).values.get k).toComplex =
      ((q.toReal.map ofReal)ᵀ * m.toMatrix * q.toReal.map ofReal) k k := by
  rw [← Real4.toMatrix_complex, ← Square.toMatrix_transpose, ← Mat4.toMatrix_mul, ← Mat4.toMatrix_mul]
  simp [Diagonalization.ofRotation]

/-- What a frame reproduces lacks what it leaves off the diagonal. -/
theorem norm_matrix_ofRotation_sub {q : Real4 ℝ} (orthogonal : q.toReal * q.toRealᵀ = 1) (m : Mat4 ℝ) :
    ‖(Diagonalization.ofRotation m q).matrix.toMatrix - m.toMatrix‖ =
      ‖off ((q.toReal.map ofReal)ᵀ * m.toMatrix * q.toReal.map ofReal)‖ := by
  have product := (diagonalizes_own (d := Diagonalization.ofRotation m q) orthogonal).product
  simp only [get_values_ofRotation] at product
  set x := q.toReal.map ofReal
  have member : x ∈ unitaryGroup (Fin 4) ℂ := map_mem_unitary orthogonal
  have back : x * xᵀ = 1 := map_mul_transpose orthogonal
  have given : m.toMatrix = x * (xᵀ * m.toMatrix * x) * xᵀ := by
    calc
      m.toMatrix = x * xᵀ * m.toMatrix * (x * xᵀ) := by rw [back, Matrix.one_mul, Matrix.mul_one]
      _ = _ := by simp only [Matrix.mul_assoc]
  have split : (Diagonalization.ofRotation m q).matrix.toMatrix - m.toMatrix = x * -off (xᵀ * m.toMatrix * x) * xᵀ := by
    conv_lhs => rw [given, ← product]
    rw [off, neg_sub, Matrix.mul_sub, Matrix.sub_mul]
    rfl
  rw [split, transpose_map_ofReal, norm_mul_unitary _ (Unitary.star_mem member), norm_unitary_mul _ member, norm_neg]

/-- In the frame of a diagonalisation that reproduces a symmetric unitary, the values are near the unit circle, and
their product near one. -/
theorem values_near {m : Mat4 ℝ} (unitary : m.Unitary) (special : m.toMatrix.det = 1) (found : diagonalize m = .ok d) :
    (∀ k : Fin 4, ‖(d.values.get k).toComplex‖ ≤ 1) ∧ (∀ k : Fin 4, 1 - 4e-25 ≤ ‖(d.values.get k).toComplex‖) ∧
      ‖∏ k : Fin 4, (d.values.get k).toComplex - 1‖ ≤ 23 * 4e-25 := by
  obtain ⟨own, orthogonal, close⟩ := diagonalize_eq_ok found
  have distance := norm_matrix_ofRotation_sub orthogonal m
  have value := get_values_ofRotation m d.rotation
  rw [← own] at distance value
  set p := d.rotation.toReal.map ofReal with frame
  have member : p ∈ unitaryGroup (Fin 4) ℂ := map_mem_unitary orthogonal
  have adjoint : pᵀ = star p := transpose_map_ofReal _
  have inverse : pᵀ * p = 1 := by rw [adjoint, mem_unitaryGroup_iff'.mp member]
  set n := pᵀ * m.toMatrix * p with turned
  have unitary' : n ∈ unitaryGroup (Fin 4) ℂ := by
    rw [turned, adjoint]
    exact mul_mem (mul_mem (Unitary.star_mem member) unitary) member
  have determinant : n.det = 1 := by
    rw [turned, Matrix.det_mul_right_comm, inverse, Matrix.one_mul, special]
  have rest : ‖off n‖ ^ 2 ≤ 4e-25 := by
    have tolerance := norm_sub_sq_le_of_isClose close
    rw [distance] at tolerance
    norm_num at tolerance ⊢
    linarith
  simp only [value]
  rw [← determinant]
  exact diagonal_near unitary' (by norm_num) rest

/-- What the factor on the left of a start lacks of the real form is what the diagonalisation leaves out, seen in its
frame, and what the phases leave of its values. -/
theorem startLeft_square_sub_one (orthogonal : d.rotation.toReal * d.rotation.toRealᵀ = 1) {p e : TwoQubit}
    (frameDef : p = (startFrame d).toReal.map ofReal) (phasesDef : e = diagonal fun k => exp (startPhases d k * I)) :
    (startLeft up d).toMatrixᵀ * (startLeft up d).toMatrix - 1 =
      e * (pᵀ * ((up.transpose * up).toMatrix - d.matrix.toMatrix) * p) * e +
        diagonal fun k => exp (startPhases d k * I) ^ 2 * (d.values.get (columnOf (startOrder d) k)).toComplex - 1 := by
  obtain ⟨frame, -⟩ := startFrame_spec (diagonalizes_own orthogonal)
  have symmetric : eᵀ = e := by rw [phasesDef, Matrix.diagonal_transpose]
  have inner : e * (pᵀ * d.matrix.toMatrix * p) * e =
      diagonal fun k => exp (startPhases d k * I) ^ 2 * (d.values.get (columnOf (startOrder d) k)).toComplex := by
    rw [phasesDef, frameDef, ← frame.diagonal_eq, Matrix.diagonal_mul_diagonal, Matrix.diagonal_mul_diagonal]
    congr 1
    funext k
    ring
  have whole : (startLeft up d).toMatrixᵀ * (startLeft up d).toMatrix = e * (pᵀ * (up.transpose * up).toMatrix * p) * e := by
    rw [toMatrix_startLeft, ← frameDef, ← phasesDef, Mat4.toMatrix_mul, Square.toMatrix_transpose, Matrix.transpose_mul,
      Matrix.transpose_mul, symmetric]
    simp only [Matrix.mul_assoc]
  rw [whole, ← Matrix.diagonal_sub, Matrix.diagonal_one, ← inner, Matrix.mul_sub, Matrix.sub_mul, Matrix.mul_sub, Matrix.sub_mul]
  abel

theorem startLeft_special (unitary : up.Unitary) (special : up.toMatrix.det = 1)
    (orthogonal : d.rotation.toReal * d.rotation.toRealᵀ = 1) :
    (startLeft up d).Unitary ∧ (startLeft up d).toMatrix.det = 1 := by
  obtain ⟨frame, proper⟩ := startFrame_spec (diagonalizes_own orthogonal)
  have left : (startLeft up d).toMatrix = up.toMatrix * (startFrame d).toReal.map ofReal *
      diagonal fun k => exp (startPhases d k * I) := toMatrix_startLeft
  constructor
  · rw [Square.Unitary, left]
    exact mul_mem (mul_mem unitary (map_mem_unitary frame.orthogonal)) (diagonal_exp_mem_unitary _)
  · rw [left, Matrix.det_mul, Matrix.det_mul, special, det_map_ofReal, proper, det_diagonal_exp (sum_startPhases d)]
    simp

/-- The distance of the factor on the left of a start from the real form, by what the diagonalisation leaves out and by
what the phases leave of its values. -/
theorem norm_startLeft_square_le (orthogonal : d.rotation.toReal * d.rotation.toRealᵀ = 1) {δ : ℝ}
    (turned : ∀ k : Fin 4, ‖exp (((halfPhases d.values).get k : ℝ) * I) ^ 2 * (d.values.get k).toComplex - 1‖ ≤ δ) :
    ‖(startLeft up d).toMatrixᵀ * (startLeft up d).toMatrix - 1‖ ≤
      ‖(up.transpose * up).toMatrix - d.matrix.toMatrix‖ + 2 * δ := by
  have nonneg : 0 ≤ δ := (norm_nonneg _).trans (turned 0)
  set p := (startFrame d).toReal.map ofReal with frameDef
  set e : TwoQubit := diagonal fun k => exp (startPhases d k * I) with phasesDef
  have phases : e ∈ unitaryGroup (Fin 4) ℂ := diagonal_exp_mem_unitary _
  have member : p ∈ unitaryGroup (Fin 4) ℂ := map_mem_unitary (startFrame_spec (diagonalizes_own orthogonal)).1.orthogonal
  have adjoint : pᵀ = star p := transpose_map_ofReal _
  have left_out : ‖diagonal fun k => exp (startPhases d k * I) ^ 2 * (d.values.get (columnOf (startOrder d) k)).toComplex - 1‖ ≤
      2 * δ := by
    refine abs_le_of_sq_le_sq' ?_ (by positivity) |>.2
    rw [frobenius_sq_diagonal, Fin.sum_univ_four]
    have bound (k : Fin 4) := pow_le_pow_left₀ (norm_nonneg _) (turned (columnOf (startOrder d) k)) 2
    refine (add_le_add (add_le_add (add_le_add (bound 0) (bound 1)) (bound 2)) (bound 3)).trans_eq ?_
    ring
  rw [startLeft_square_sub_one orthogonal frameDef phasesDef, adjoint]
  refine (norm_add_le _ _).trans (add_le_add (le_of_eq ?_) left_out)
  rw [norm_mul_unitary _ phases, norm_unitary_mul _ phases, norm_mul_unitary _ member, norm_unitary_mul _ (Unitary.star_mem member)]

/-- The factor on the left of a start nearly keeps the real form, and is unitary of determinant one. -/
theorem startLeft_near (unitary : up.Unitary) (special : up.toMatrix.det = 1)
    (found : diagonalize (up.transpose * up) = .ok d) :
    (startLeft up d).Unitary ∧ (startLeft up d).toMatrix.det = 1 ∧
      ‖(startLeft up d).toMatrixᵀ * (startLeft up d).toMatrix - 1‖ ≤ 58e-14 := by
  have square := Mat4.toMatrix_square up
  have unitary' : (up.transpose * up).Unitary := by
    rw [Square.Unitary, square]
    exact mul_mem (transpose_mem_unitaryGroup_iff.mpr unitary) unitary
  have special' : (up.transpose * up).toMatrix.det = 1 := by
    rw [square, Matrix.det_mul, Matrix.det_transpose, special, one_mul]
  obtain ⟨-, orthogonal, close⟩ := diagonalize_eq_ok found
  obtain ⟨small, large, product⟩ := values_near unitary' special' found
  obtain ⟨member, determinant⟩ := startLeft_special unitary special orthogonal
  refine ⟨member, determinant, ?_⟩
  refine (norm_startLeft_square_le orthogonal (norm_halfPhases_le (by norm_num) (fun k => (small k).trans (by norm_num))
    large product)).trans ?_
  linarith [norm_sub_le_of_isClose close]

end Start

/-! ## Products -/

/-- The magic basis is orthogonal up to a common length. -/
theorem norm_inMagic (m : TwoQubit) : ‖inMagic m‖ = ‖m‖ := by
  have trace : (inMagic m * (inMagic m)ᴴ).trace = (m * mᴴ).trace := by
    rw [inMagic_conjTranspose, inMagic_mul, inMagic, Matrix.trace_mul_cycle, magicInverse_mul_magic, Matrix.one_mul]
  have square : ‖inMagic m‖ ^ 2 = ‖m‖ ^ 2 :=
    Complex.ofReal_injective ((frobenius_sq_eq_trace _).trans (trace.trans (frobenius_sq_eq_trace _).symm))
  exact (pow_left_inj₀ (norm_nonneg _) (norm_nonneg _) two_ne_zero).mp square

/-- What nearly keeps the real form is near a product of special unitaries out of the magic basis. -/
theorem exists_tensor_of_real {w : Mat4 ℝ} {ε : ℝ} (unitary : w.Unitary) (special : w.toMatrix.det = 1) (small : ε ≤ 1 / 10)
    (near : ‖w.toMatrixᵀ * w.toMatrix - 1‖ ≤ ε) :
    ∃ l r : OneQubit, l ∈ specialUnitaryGroup (Fin 2) ℂ ∧ r ∈ specialUnitaryGroup (Fin 2) ℂ ∧
      ‖inMagic w.toMatrix - tensor l r‖ ≤ ε / 2 + ε ^ 2 / 4 := by
  obtain ⟨o, orthogonal, rotation, close⟩ := exists_rotation_near unitary special small near
  obtain ⟨l, r, specialL, specialR, split⟩ := exists_tensor_of_rotation orthogonal rotation
  refine ⟨l, r, specialL, specialR, ?_⟩
  rw [← split, ← inMagic_sub, norm_inMagic]
  exact close

/-- What a start splits is near a product of special unitaries. -/
theorem exists_tensor_near {up : Mat4 ℝ} {d : Diagonalization ℝ} (unitary : up.Unitary) (special : up.toMatrix.det = 1)
    (found : diagonalize (up.transpose * up) = .ok d) :
    ∃ l r : OneQubit, l ∈ specialUnitaryGroup (Fin 2) ℂ ∧ r ∈ specialUnitaryGroup (Fin 2) ℂ ∧
      ‖(intoMagic (startLeft up d)).toMatrix - tensor l r‖ ≤ 3e-13 := by
  obtain ⟨member, proper, near⟩ := startLeft_near unitary special found
  obtain ⟨l, r, specialL, specialR, close⟩ := exists_tensor_of_real member proper (by norm_num) near
  refine ⟨l, r, specialL, specialR, ?_⟩
  rw [toMatrix_intoMagic]
  refine close.trans ?_
  norm_num

/-! ## Nearly unitary factors -/

/-- A matrix on one qubit is as far from the multiples of special unitaries as its columns are from the pairs that
those have. -/
theorem frobenius_sq_eq_defects (k : OneQubit) {z : ℂ} (unit : ‖z‖ = 1) :
    ‖k‖ ^ 2 = 2 * (star z * k.det).re + ‖k 0 0 - z * star (k 1 1)‖ ^ 2 + ‖k 0 1 + z * star (k 1 0)‖ ^ 2 := by
  have circle : z.re ^ 2 + z.im ^ 2 = 1 := by
    have square := Complex.normSq_eq_norm_sq z
    rw [unit, Complex.normSq_apply] at square
    linear_combination square
  rw [frobenius_sq, Fin.sum_univ_two, Fin.sum_univ_two, Fin.sum_univ_two, Matrix.det_fin_two]
  simp only [← Complex.normSq_eq_norm_sq, Complex.normSq_apply, Complex.star_def, Complex.mul_re, Complex.mul_im,
    Complex.sub_re, Complex.sub_im, Complex.add_re, Complex.add_im, Complex.conj_re, Complex.conj_im]
  linear_combination -((k 1 1).re ^ 2 + (k 1 1).im ^ 2 + (k 1 0).re ^ 2 + (k 1 0).im ^ 2) * circle

/-- Near a multiple of a special unitary, the length is what the determinant makes it. -/
theorem frobenius_sq_le_of_near {k r : OneQubit} (special : r ∈ specialUnitaryGroup (Fin 2) ℂ) (c : ℂ) :
    ‖k‖ ^ 2 ≤ 2 * ‖k.det‖ + 2 * ‖k - c • r‖ ^ 2 := by
  obtain ⟨unitary, determinant⟩ := mem_specialUnitaryGroup_iff.mp special
  obtain ⟨corner, upper⟩ := Euler.entries_of_unitary unitary
  rw [determinant, one_mul] at corner upper
  obtain ⟨z, unit, turned⟩ : ∃ z : ℂ, ‖z‖ = 1 ∧ z * star c = c := by
    by_cases zero : c = 0
    · exact ⟨1, norm_one, by rw [zero, star_zero, mul_zero]⟩
    · have nonzero : star c ≠ 0 := star_ne_zero.mpr zero
      exact ⟨c / star c, by rw [norm_div, norm_star, div_self (norm_ne_zero_iff.mpr zero)], div_mul_cancel₀ c nonzero⟩
  set x := k - c • r with rest
  have entry (i j : Fin 2) : k i j = c * r i j + x i j := by simp [x]
  have first : k 0 0 - z * star (k 1 1) = x 0 0 - z * star (x 1 1) := by
    rw [entry, entry, corner, star_add, star_mul']
    linear_combination -star (r 1 1) * turned
  have second : k 0 1 + z * star (k 1 0) = x 0 1 + z * star (x 1 0) := by
    rw [entry, entry, upper, star_add, star_mul']
    linear_combination star (r 1 0) * turned
  have square (a b : ℂ) : ‖a + z * b‖ ^ 2 ≤ 2 * (‖a‖ ^ 2 + ‖b‖ ^ 2) := by
    have triangle := norm_add_le a (z * b)
    rw [norm_mul, unit, one_mul] at triangle
    nlinarith [norm_nonneg (a + z * b), norm_nonneg a, norm_nonneg b, sq_nonneg (‖a‖ - ‖b‖)]
  have size : ‖x‖ ^ 2 = ‖x 0 0‖ ^ 2 + ‖x 0 1‖ ^ 2 + (‖x 1 0‖ ^ 2 + ‖x 1 1‖ ^ 2) := by
    rw [frobenius_sq, Fin.sum_univ_two, Fin.sum_univ_two, Fin.sum_univ_two]
  have determinant' : (star z * k.det).re ≤ ‖k.det‖ := by
    refine (Complex.re_le_norm _).trans_eq ?_
    rw [norm_mul, norm_star, unit, one_mul]
  have first' := square (x 0 0) (-star (x 1 1))
  have second' := square (x 0 1) (star (x 1 0))
  rw [norm_neg, norm_star, mul_neg, ← sub_eq_add_neg] at first'
  rw [norm_star] at second'
  rw [frobenius_sq_eq_defects k unit, first, second]
  linarith

/-- A determinant of modulus one, and the length of a unitary up to a defect. -/
structure Nearly (μ : ℝ) (k : Mat2 ℝ) : Prop where
  det : ‖k.toMatrix.det‖ = 1
  size : ‖k.toMatrix‖ ^ 2 ≤ 2 + μ ^ 2

theorem keptByUnitaries_nearly (μ : ℝ) : KeptByUnitaries (Nearly μ) := by
  constructor
  intro k v near unitary
  constructor
  · rw [Mat2.toMatrix_mul, Matrix.det_mul, norm_mul, near.det, norm_det_of_unitary unitary, one_mul]
  · rw [Mat2.toMatrix_mul, norm_mul_unitary _ unitary]
    exact near.size

namespace Product

variable {m : Mat2 ℝ} {u : Mat4 ℝ} {p : Product ℝ} {l r : OneQubit} {c : ℂ} {δ κ μ t : ℝ}

theorem norm_normalize (m : Mat2 ℝ) : ∃ s : ℂ, ‖s‖ ^ 2 = ‖m.toMatrix.det‖⁻¹ ∧
    (normalize m m.det).toMatrix = s • m.toMatrix := by
  have root := Cx.toComplex_sqrt_sq m.det
  refine ⟨1 / m.det.sqrt.toComplex, ?_, ?_⟩
  · rw [norm_div, norm_one, div_pow, one_pow, ← norm_pow, root, Mat2.toComplex_det, one_div]
  · rw [normalize, Square.toMatrix_scale, Cx.toComplex_div, Cx.toComplex_one]

/-- A block near a multiple of a special unitary, and not too small, is nearly unitary once it is normalised. -/
theorem nearly_normalize (special : r ∈ specialUnitaryGroup (Fin 2) ℂ) (positive : 0 < t) (far : t ≤ ‖m.toMatrix.det‖)
    (near : ‖m.toMatrix - c • r‖ ^ 2 ≤ δ) (bound : 2 * δ ≤ μ ^ 2 * t) : Nearly μ (normalize m m.det) := by
  have nonzero : 0 < ‖m.toMatrix.det‖ := positive.trans_le far
  constructor
  · rw [det_normalize (by rw [Mat2.toComplex_det]; exact norm_pos_iff.mp nonzero), norm_one]
  · obtain ⟨s, square, value⟩ := norm_normalize m
    have length := frobenius_sq_le_of_near (k := m.toMatrix) special c
    rw [value, norm_smul, mul_pow, square, inv_mul_le_iff₀ nonzero]
    nlinarith [sq_nonneg μ]

theorem block_near (near : ‖u.toMatrix - tensor l r‖ ≤ κ) :
    ‖(Mat4.block u 0 0).toMatrix - l 0 0 • r‖ ≤ κ ∧ ‖(Mat4.block u 2 0).toMatrix - l 1 0 • r‖ ≤ κ := by
  have inside (rows columns : Fin 2 → Fin 4) (apart : Function.Injective rows) (apart' : Function.Injective columns) :
      ‖(u.toMatrix - tensor l r).submatrix rows columns‖ ≤ κ := (norm_submatrix_le _ apart apart').trans near
  constructor
  · refine (inside ![0, 1] ![0, 1] (by decide) (by decide)).trans_eq' ?_
    congr 1
    ext i j
    fin_cases i <;> fin_cases j <;> simp [Mat4.block]
  · refine (inside ![2, 3] ![0, 1] (by decide) (by decide)).trans_eq' ?_
    congr 1
    ext i j
    fin_cases i <;> fin_cases j <;> simp [Mat4.block]

theorem rightBlock_near (near : ‖u.toMatrix - tensor l r‖ ≤ κ) :
    ∃ c : ℂ, ‖(rightBlock u).1.toMatrix - c • r‖ ≤ κ := by
  unfold rightBlock
  dsimp only
  split
  · exact ⟨l 1 0, (block_near near).2⟩
  · exact ⟨l 0 0, (block_near near).1⟩

/-- What is left of a product once the right factor is divided out is near a multiple of the left one. -/
theorem strided_near (near : ‖u.toMatrix - tensor l r‖ ≤ κ) {q : Mat2 ℝ} (size : ‖q.toMatrix‖ ^ 2 ≤ 5 / 2) :
    ‖(Mat4.strided (u * Mat4.kron Square.identity q.dagger) 0 0).toMatrix - (r * q.toMatrixᴴ) 0 0 • l‖ ^ 2 ≤ 5 * κ ^ 2 := by
  have strided : (Mat4.strided (u * Mat4.kron Square.identity q.dagger) 0 0).toMatrix - (r * q.toMatrixᴴ) 0 0 • l =
      ((u.toMatrix - tensor l r) * tensor 1 q.toMatrixᴴ).submatrix ![0, 2] ![0, 2] := by
    rw [Matrix.sub_mul, tensor_mul_tensor, Matrix.mul_one]
    have own : (u * Mat4.kron Square.identity q.dagger).toMatrix = u.toMatrix * tensor 1 q.toMatrixᴴ := by
      rw [Mat4.toMatrix_mul, Mat4.toMatrix_kron, Square.toMatrix_identity, Square.toMatrix_dagger]
    generalize u * Mat4.kron Square.identity q.dagger = w at own ⊢
    rw [← own]
    ext i j
    fin_cases i <;> fin_cases j <;> simp [Mat4.strided, mul_comm]
  have whole : ‖(u.toMatrix - tensor l r) * tensor 1 q.toMatrixᴴ‖ ^ 2 ≤ 5 * κ ^ 2 := by
    have product := Matrix.frobenius_norm_mul (u.toMatrix - tensor l r) (tensor 1 q.toMatrixᴴ)
    refine (pow_le_pow_left₀ (norm_nonneg _) product 2).trans ?_
    rw [mul_pow, frobenius_sq_tensor, frobenius_sq_one, Matrix.frobenius_norm_conjTranspose]
    have first := pow_le_pow_left₀ (norm_nonneg _) near 2
    calc
      _ ≤ κ ^ 2 * 5 := mul_le_mul first (by linarith) (by positivity) (sq_nonneg κ)
      _ = 5 * κ ^ 2 := mul_comm _ _
  rw [strided]
  exact (pow_le_pow_left₀ (norm_nonneg _) (norm_submatrix_le _ (by decide) (by decide)) 2).trans whole

/-- The factors of a splitting of what is near a product of special unitaries are nearly unitary. -/
theorem decompose_nearly (split : decompose u = .ok p) (specialL : l ∈ specialUnitaryGroup (Fin 2) ℂ)
    (specialR : r ∈ specialUnitaryGroup (Fin 2) ℂ) (near : ‖u.toMatrix - tensor l r‖ ≤ κ) (small : κ ≤ 1 / 10)
    (bound : 20 * κ ^ 2 ≤ μ ^ 2) : Nearly μ p.left ∧ Nearly μ p.right := by
  obtain ⟨rightFar, rightEq, leftFar, leftEq⟩ := decompose_eq_ok split
  have nonneg : 0 ≤ κ := (norm_nonneg _).trans near
  obtain ⟨c, block⟩ := rightBlock_near near
  have right : Nearly √(20 * κ ^ 2) p.right := by
    rw [rightEq]
    refine nearly_normalize specialR (by norm_num) rightFar (pow_le_pow_left₀ (norm_nonneg _) block 2) ?_
    rw [Real.sq_sqrt (by positivity)]
    linarith
  have length := right.size
  rw [Real.sq_sqrt (by positivity)] at length
  have left : Nearly μ p.left := by
    rw [leftEq]
    exact nearly_normalize specialL (by norm_num) leftFar (strided_near near (by nlinarith)) (by linarith [sq_nonneg κ])
  refine ⟨left, right.det, right.size.trans ?_⟩
  rw [Real.sq_sqrt (by positivity)]
  linarith

end Product

/-- The outer factors of the decomposition of a unitary are nearly unitary, however it was diagonalised. -/
theorem ofUnitary_nearly {u : Mat4 ℝ} {o : Options ℝ} {target : Decomposition ℝ} (unitary : u.Unitary)
    (decomposed : Decomposition.ofUnitary u o = .ok target) : target.OuterHas (Nearly 14e-13) := by
  obtain ⟨f, canonical, fitted⟩ := bind_eq_ok.mp decomposed
  have kept := keptByUnitaries_nearly 14e-13
  refine ofForm_outerHas kept (canonicalForm_outerHas kept canonical fun d p found split => ?_) fitted
  obtain ⟨unitary', special, -⟩ := specialUnitary_spec unitary
  obtain ⟨l, r, specialL, specialR, near⟩ := exists_tensor_near unitary' special found
  exact Product.decompose_nearly split specialL specialR near (by norm_num) (by norm_num)

end Weyl

end Entangle

end
