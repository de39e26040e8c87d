import Mathlib
import Entangle.Proofs.NearProducts
import Entangle.Proofs.RequestedFidelity

/-!
# Near unitaries

A matrix that is unitary within a tolerance has a special unitary near it once it is divided by a fourth root of its
determinant. A diagonalisation that reproduces its square is near one of the square of that unitary, so the matrix that
a decomposition splits is near a product of special unitaries, and such a matrix passes the tests of the splitting.
-/

noncomputable section

namespace Entangle

open Matrix Complex
open scoped Matrix.Norms.Frobenius

theorem Mat4.exists_toMatrix (v : TwoQubit) : ∃ m : Mat4 ℝ, m.toMatrix = v :=
  ⟨Square.ofFn fun i j => ⟨(v i j).re, (v i j).im⟩, by ext i j; simp [Cx.toComplex]⟩

theorem Cx.toComplex_fourthRoot_pow {z : Cx ℝ} (nonzero : z.toComplex ≠ 0) :
    (z.rpow (-0.25)).toComplex ^ 4 * z.toComplex = 1 := by
  have positive : 0 < ‖z.toComplex‖ := norm_pos_iff.mpr nonzero
  have value : (z.rpow (-0.25)).toComplex =
      (‖z.toComplex‖ ^ (-(1 / 4) : ℝ) : ℝ) * exp ((-(1 / 4) * Complex.arg z.toComplex : ℝ) * I) := by
    rw [Cx.toComplex_rpow nonzero, Exact.decimal_eq]
    norm_num
  have power : (‖z.toComplex‖ ^ (-(1 / 4) : ℝ)) ^ 4 * ‖z.toComplex‖ = 1 := by
    rw [← Real.rpow_natCast, ← Real.rpow_mul positive.le]
    norm_num
    rw [Real.rpow_neg_one, inv_mul_cancel₀ positive.ne']
  rw [← Complex.norm_mul_exp_arg_mul_I z.toComplex, value, mul_pow, ← Complex.exp_nat_mul, mul_mul_mul_comm,
    ← Complex.exp_add, ← Complex.ofReal_pow, ← Complex.ofReal_mul, power]
  push_cast
  ring_nf
  exact Complex.exp_zero

theorem norm_one_twoQubit : ‖(1 : TwoQubit)‖ = 2 := by
  refine (pow_left_inj₀ (norm_nonneg _) zero_le_two two_ne_zero).mp ?_
  rw [← Matrix.diagonal_one, frobenius_sq_diagonal, Fin.sum_univ_four, norm_one]
  norm_num

namespace Weyl

section Special

variable {u up : Mat4 ℝ} {ε : ℝ}

/-- Near a matrix of determinant one that is nearly unitary there is a special unitary. -/
theorem exists_special_near (special : up.toMatrix.det = 1) (near : ‖up.toMatrix * up.toMatrixᴴ - 1‖ ≤ ε) (small : ε < 1) :
    ∃ v : Mat4 ℝ, v.Unitary ∧ v.toMatrix.det = 1 ∧ ‖up.toMatrix - v.toMatrix‖ ≤ ε := by
  obtain ⟨o, member, close, r, positive, determinant, -⟩ :=
    exists_unitary_near (x := up.toMatrixᴴ) (by rwa [Matrix.conjTranspose_conjTranspose]) small
  rw [Matrix.conjTranspose_conjTranspose] at close
  rw [Matrix.det_conjTranspose, special, star_one] at determinant
  have unit : r = 1 := by
    have size := congrArg norm determinant
    rw [norm_one, norm_mul, norm_det_of_unitary member, mul_one, RCLike.norm_ofReal, abs_of_pos positive] at size
    exact size.symm
  obtain ⟨v, value⟩ := Mat4.exists_toMatrix oᴴ
  refine ⟨v, ?_, ?_, ?_⟩
  · rw [Square.Unitary, value]
    exact Unitary.star_mem member
  · rw [unit, RCLike.ofReal_one, one_mul] at determinant
    rw [value, Matrix.det_conjTranspose, ← determinant, star_one]
  · rw [value, ← Matrix.frobenius_norm_conjTranspose, Matrix.conjTranspose_sub, Matrix.conjTranspose_conjTranspose]
    exact close.trans near

/-- A fourth root of what is near one, within the square of a distance, has a square near one. -/
theorem abs_sq_sub_one_le {r ρ : ℝ} (positive : 0 < ρ) (power : ρ ^ 4 * r = 1) (low : (1 - ε) ^ 2 ≤ r) (high : r ≤ (1 + ε) ^ 2)
    (nonneg : 0 ≤ ε) (small : ε ≤ 1 / 4) : |ρ ^ 2 - 1| ≤ 4 / 3 * ε := by
  have above : ρ ^ 2 * (1 - ε) ≤ 1 := by
    refine abs_le_of_sq_le_sq' ?_ zero_le_one |>.2
    nlinarith [pow_pos positive 4]
  have below : 1 ≤ ρ ^ 2 * (1 + ε) := by
    refine abs_le_of_sq_le_sq' ?_ (by positivity) |>.2
    nlinarith [pow_pos positive 4]
  rw [abs_le]
  constructor <;> nlinarith [sq_nonneg ρ]

/-- Dividing by a fourth root of the determinant keeps a matrix nearly unitary. -/
theorem specialUnitary_near (near : ‖u.toMatrix * u.toMatrixᴴ - 1‖ ≤ ε) (small : ε ≤ 1 / 4) :
    u.det.toComplex ≠ 0 ∧ (specialUnitary u u.det).toMatrix.det = 1 ∧
      ‖(specialUnitary u u.det).toMatrix * (specialUnitary u u.det).toMatrixᴴ - 1‖ ≤ 4 * ε := by
  have nonneg : 0 ≤ ε := (norm_nonneg _).trans near
  obtain ⟨o, member, -, r, positive, determinant, low, high⟩ :=
    exists_unitary_near (x := u.toMatrixᴴ) (by rwa [Matrix.conjTranspose_conjTranspose]) (small.trans_lt (by norm_num))
  have size : ‖u.det.toComplex‖ = r := by
    have norms := congrArg norm determinant
    rwa [Matrix.det_conjTranspose, norm_star, norm_mul, norm_det_of_unitary member, mul_one, RCLike.norm_ofReal,
      abs_of_pos positive, ← Mat4.toComplex_det] at norms
  have nonzero : u.det.toComplex ≠ 0 := norm_pos_iff.mp (size ▸ positive)
  set c := (u.det.rpow (-0.25)).toComplex with root
  have fourth : c ^ 4 * u.det.toComplex = 1 := Cx.toComplex_fourthRoot_pow nonzero
  have image : inMagic (specialUnitary u u.det).toMatrix = c • u.toMatrix := inMagic_specialUnitary u
  refine ⟨nonzero, ?_, ?_⟩
  · rw [← det_inMagic, image, Matrix.det_smul, Fintype.card_fin, ← Mat4.toComplex_det, fourth]
  · have power : ‖c‖ ^ 4 * r = 1 := by
      rw [← size, ← norm_pow, ← norm_mul, fourth, norm_one]
    have positive' : 0 < ‖c‖ := by
      rw [norm_pos_iff]
      rintro zero
      rw [zero, zero_pow four_ne_zero, zero_mul] at fourth
      exact zero_ne_one fourth
    have split : c • u.toMatrix * (c • u.toMatrix)ᴴ - 1 =
        ((‖c‖ ^ 2 : ℝ) : ℂ) • (u.toMatrix * u.toMatrixᴴ - 1) + ((‖c‖ ^ 2 - 1 : ℝ) : ℂ) • (1 : TwoQubit) := by
      rw [Matrix.conjTranspose_smul, Matrix.smul_mul, Matrix.mul_smul, smul_smul, Complex.star_def, Complex.mul_conj', smul_sub]
      push_cast
      rw [sub_smul, one_smul]
      abel
    rw [Fintype.card_fin] at low high
    have lower : (1 - ε) ^ 2 ≤ r := abs_le_of_sq_le_sq' (by linarith [low]) positive.le |>.2
    have upper : r ≤ (1 + ε) ^ 2 := abs_le_of_sq_le_sq' (by linarith [high]) (by positivity) |>.2
    have shift := abs_sq_sub_one_le positive' power lower upper nonneg small
    have moderate : ‖c‖ ^ 2 ≤ 4 / 3 := by linarith [(abs_le.mp shift).2]
    rw [← norm_inMagic, inMagic_sub, inMagic_one, ← inMagic_mul, ← inMagic_conjTranspose, image, split]
    refine (norm_add_le _ _).trans ?_
    rw [norm_smul, norm_smul, Complex.norm_real, Complex.norm_real, Real.norm_of_nonneg (sq_nonneg ‖c‖), Real.norm_eq_abs,
      norm_one_twoQubit]
    nlinarith [norm_nonneg (u.toMatrix * u.toMatrixᴴ - 1)]

end Special

section Start

variable {up v : Mat4 ℝ} {d : Diagonalization ℝ} {η κ : ℝ}

/-- Where a diagonal matrix is near a unitary of determinant one, its entries are near the unit circle and their product
is near one. -/
theorem diagonal_values_near {n : TwoQubit} {values : Fin 4 → ℂ} (unitary : n ∈ unitaryGroup (Fin 4) ℂ) (special : n.det = 1)
    (little : η ≤ 1 / 1000) (near : ‖n - diagonal values‖ ≤ η) :
    (∀ k, ‖values k‖ ≤ 1 + 2 * η) ∧ (∀ k, 1 - 2 * η ≤ ‖values k‖) ∧ ‖∏ k, values k - 1‖ ≤ 5 * η := by
  have nonneg : 0 ≤ η := (norm_nonneg _).trans near
  have rest : ‖off n‖ ^ 2 ≤ η ^ 2 := pow_le_pow_left₀ (norm_nonneg _) ((norm_off_le n values).trans near) 2
  obtain ⟨small, large, product⟩ := diagonal_near unitary (by nlinarith) rest
  rw [special] at product
  have close (k : Fin 4) : ‖values k - n k k‖ ≤ η := by
    have entry := (norm_apply_le (n - diagonal values) k k).trans near
    rwa [Matrix.sub_apply, Matrix.diagonal_apply_eq, norm_sub_rev] at entry
  have short (k : Fin 4) : ‖values k‖ ≤ 1 + η := by
    have triangle := norm_le_norm_add_norm_sub (n k k) (values k)
    rw [norm_sub_rev] at triangle
    linarith [close k, small k]
  refine ⟨fun k => by linarith [short k], fun k => ?_, ?_⟩
  · have triangle := norm_le_norm_add_norm_sub (values k) (n k k)
    nlinarith [close k, large k]
  · have step {a b a' b' : ℂ} : ‖a * b - a' * b'‖ ≤ ‖a - a'‖ * ‖b‖ + ‖a'‖ * ‖b - b'‖ := by
      have split : a * b - a' * b' = (a - a') * b + a' * (b - b') := by ring
      rw [split, ← norm_mul, ← norm_mul]
      exact norm_add_le _ _
    have pair (j k : Fin 4) : ‖values j * values k - n j j * n k k‖ ≤ 201 / 100 * η := by
      refine step.trans ?_
      nlinarith [close j, close k, short k, small j, norm_nonneg (values j - n j j), norm_nonneg (n j j),
        norm_nonneg (values k), norm_nonneg (values k - n k k)]
    have last : ‖values 2 * values 3‖ ≤ 101 / 100 := by
      rw [norm_mul]
      have both := mul_le_mul (short 2) (short 3) (norm_nonneg _) (by linarith)
      nlinarith
    have first : ‖n 0 0 * n 1 1‖ ≤ 1 := by
      rw [norm_mul]
      exact mul_le_one₀ (small 0) (norm_nonneg _) (small 1)
    have whole : ‖values 0 * values 1 * (values 2 * values 3) - n 0 0 * n 1 1 * (n 2 2 * n 3 3)‖ ≤ 9 / 2 * η := by
      refine step.trans ?_
      have one := mul_le_mul (pair 0 1) last (norm_nonneg _) (by positivity)
      have two := mul_le_mul first (pair 2 3) (norm_nonneg _) zero_le_one
      linarith
    rw [Fin.prod_univ_four, mul_assoc] at product ⊢
    have triangle := norm_sub_le_norm_sub_add_norm_sub (values 0 * values 1 * (values 2 * values 3))
      (n 0 0 * n 1 1 * (n 2 2 * n 3 3)) 1
    nlinarith

/-- A unitary whose square is nearly diagonalised is nearly turned into the real form. -/
theorem startLeft_square_near (unitary : v.Unitary) (special : v.toMatrix.det = 1)
    (orthogonal : d.rotation.toReal * d.rotation.toRealᵀ = 1) (little : η ≤ 1 / 1000)
    (near : ‖(v.transpose * v).toMatrix - d.matrix.toMatrix‖ ≤ η) :
    ‖(startLeft v d).toMatrixᵀ * (startLeft v d).toMatrix - 1‖ ≤ 27 * η := by
  have square := Mat4.toMatrix_square v
  have given := diagonalizes_own orthogonal
  set p := d.rotation.toReal.map ofReal with frame
  have member : p ∈ unitaryGroup (Fin 4) ℂ := map_mem_unitary orthogonal
  have adjoint : pᵀ = star p := transpose_map_ofReal _
  have inverse : pᵀ * p = 1 := by rw [adjoint, mem_unitaryGroup_iff'.mp member]
  have unitary' : pᵀ * (v.transpose * v).toMatrix * p ∈ unitaryGroup (Fin 4) ℂ := by
    rw [adjoint, square]
    exact mul_mem (mul_mem (Unitary.star_mem member) (mul_mem (transpose_mem_unitaryGroup_iff.mpr unitary) unitary)) member
  have special' : (pᵀ * (v.transpose * v).toMatrix * p).det = 1 := by
    rw [Matrix.det_mul_right_comm, inverse, Matrix.one_mul, square, Matrix.det_mul, Matrix.det_transpose, special, one_mul]
  have near' : ‖pᵀ * (v.transpose * v).toMatrix * p - diagonal fun k => (d.values.get k).toComplex‖ ≤ η := by
    rw [given.diagonal_eq, ← frame, ← Matrix.sub_mul, ← Matrix.mul_sub, adjoint, norm_mul_unitary _ member,
      norm_unitary_mul _ (Unitary.star_mem member)]
    exact near
  obtain ⟨small, large, product⟩ := diagonal_values_near unitary' special' little near'
  have nonneg : 0 ≤ η := (norm_nonneg _).trans near
  refine (norm_startLeft_square_le orthogonal (norm_halfPhases_le (by linarith) small large product)).trans ?_
  linarith

theorem norm_square_sub_le {ζ : ℝ} (unitary : v.Unitary) (close : ‖up.toMatrix - v.toMatrix‖ ≤ ζ) (little : ζ ≤ 1 / 10000) :
    ‖(v.transpose * v).toMatrix - (up.transpose * up).toMatrix‖ ≤ 201 / 100 * ζ := by
  have nonneg : 0 ≤ ζ := (norm_nonneg _).trans close
  set x := up.toMatrix - v.toMatrix with rest
  have split : (v.transpose * v).toMatrix - (up.transpose * up).toMatrix =
      -(v.toMatrixᵀ * x + xᵀ * v.toMatrix + xᵀ * x) := by
    rw [Mat4.toMatrix_square, Mat4.toMatrix_square, rest, Matrix.transpose_sub]
    simp only [Matrix.mul_sub, Matrix.sub_mul]
    abel
  have last : ‖xᵀ * x‖ ≤ ζ * ζ := by
    refine (Matrix.frobenius_norm_mul _ _).trans ?_
    rw [Matrix.frobenius_norm_transpose]
    exact mul_le_mul close close (norm_nonneg _) nonneg
  rw [split, norm_neg]
  refine (norm_add_le _ _).trans ((add_le_add_left (norm_add_le _ _) _).trans ?_)
  rw [norm_unitary_mul _ (transpose_mem_unitaryGroup_iff.mpr unitary), norm_mul_unitary _ unitary,
    Matrix.frobenius_norm_transpose]
  nlinarith

/-- What a start splits is near a product of special unitaries where the matrix is near a special unitary and its square
is reproduced. -/
theorem exists_tensor_of_near {ζ : ℝ} (unitary : v.Unitary) (special : v.toMatrix.det = 1) (close : ‖up.toMatrix - v.toMatrix‖ ≤ ζ)
    (little : ζ ≤ 1 / 10000) (found : diagonalize (up.transpose * up) = .ok d) :
    ∃ l r : OneQubit, l ∈ specialUnitaryGroup (Fin 2) ℂ ∧ r ∈ specialUnitaryGroup (Fin 2) ℂ ∧
      ‖(intoMagic (startLeft up d)).toMatrix - tensor l r‖ ≤ 30 * ζ + 1e-11 := by
  have nonneg : 0 ≤ ζ := (norm_nonneg _).trans close
  obtain ⟨-, orthogonal, reproduced⟩ := diagonalize_eq_ok found
  have near : ‖(v.transpose * v).toMatrix - d.matrix.toMatrix‖ ≤ 201 / 100 * ζ + 57e-14 := by
    have triangle := norm_sub_le_norm_sub_add_norm_sub (v.transpose * v).toMatrix (up.transpose * up).toMatrix d.matrix.toMatrix
    linarith [norm_square_sub_le unitary close little, norm_sub_le_of_isClose reproduced]
  have real := startLeft_square_near unitary special orthogonal (by norm_num at near ⊢; linarith) near
  obtain ⟨member, determinant⟩ := startLeft_special unitary special orthogonal
  obtain ⟨l, r, specialL, specialR, rotation⟩ := exists_tensor_of_real member determinant (by norm_num; linarith) real
  refine ⟨l, r, specialL, specialR, ?_⟩
  rw [toMatrix_intoMagic]
  have moved : ‖(startLeft up d).toMatrix - (startLeft v d).toMatrix‖ ≤ ζ := by
    rw [toMatrix_startLeft, toMatrix_startLeft, ← Matrix.sub_mul, ← Matrix.sub_mul,
      norm_mul_unitary _ (diagonal_exp_mem_unitary _),
      norm_mul_unitary _ (map_mem_unitary (startFrame_spec (diagonalizes_own orthogonal)).1.orthogonal)]
    exact close
  rw [← norm_inMagic, inMagic_sub] at moved
  refine (norm_sub_le_norm_sub_add_norm_sub _ (inMagic (startLeft v d).toMatrix) _).trans ?_
  norm_num at rotation ⊢
  nlinarith

end Start

namespace Product

variable {u : Mat4 ℝ} {k l r : OneQubit} {c : ℂ} {κ : ℝ}

/-- Near a multiple of a special unitary, the determinant is near the square of the multiple. -/
theorem norm_det_sub_sq_le (special : r ∈ specialUnitaryGroup (Fin 2) ℂ) (near : ‖k - c • r‖ ≤ κ) :
    ‖k.det - c ^ 2‖ ≤ 4 * ‖c‖ * κ + 2 * κ ^ 2 := by
  obtain ⟨unitary, determinant⟩ := mem_specialUnitaryGroup_iff.mp special
  set x := k - c • r with rest
  have split : k.det - c ^ 2 = c * (r 0 0 * x 1 1 + r 1 1 * x 0 0 - r 0 1 * x 1 0 - r 1 0 * x 0 1) +
      (x 0 0 * x 1 1 - x 0 1 * x 1 0) := by
    have entry (i j : Fin 2) : k i j = c * r i j + x i j := by simp [x]
    rw [Matrix.det_fin_two] at determinant ⊢
    rw [entry, entry, entry, entry]
    linear_combination c ^ 2 * determinant
  have nonneg : 0 ≤ κ := (norm_nonneg _).trans near
  have short (i j : Fin 2) : ‖x i j‖ ≤ κ := (norm_apply_le x i j).trans near
  have first (i j i' j' : Fin 2) : ‖r i j * x i' j'‖ ≤ κ := by
    rw [norm_mul]
    exact (mul_le_of_le_one_left (norm_nonneg _) (entry_norm_bound_of_unitary unitary i j)).trans (short i' j')
  have second (i j i' j' : Fin 2) : ‖x i j * x i' j'‖ ≤ κ ^ 2 := by
    rw [norm_mul, sq]
    exact mul_le_mul (short i j) (short i' j') (norm_nonneg _) nonneg
  have linear : ‖r 0 0 * x 1 1 + r 1 1 * x 0 0 - r 0 1 * x 1 0 - r 1 0 * x 0 1‖ ≤ 4 * κ := by
    have last := norm_sub_le (r 0 0 * x 1 1 + r 1 1 * x 0 0 - r 0 1 * x 1 0) (r 1 0 * x 0 1)
    have middle := norm_sub_le (r 0 0 * x 1 1 + r 1 1 * x 0 0) (r 0 1 * x 1 0)
    have front := norm_add_le (r 0 0 * x 1 1) (r 1 1 * x 0 0)
    linarith [first 0 0 1 1, first 1 1 0 0, first 0 1 1 0, first 1 0 0 1]
  rw [split]
  refine (norm_add_le _ _).trans ?_
  rw [norm_mul]
  have product := mul_le_mul_of_nonneg_left linear (norm_nonneg c)
  linarith [norm_sub_le (x 0 0 * x 1 1) (x 0 1 * x 1 0), second 0 0 1 1, second 0 1 1 0]

/-- Near a product of special unitaries one of the first two blocks is far from singular, and it is the one that is
taken. -/
theorem rightBlock_far (specialL : l ∈ specialUnitaryGroup (Fin 2) ℂ) (specialR : r ∈ specialUnitaryGroup (Fin 2) ℂ)
    (near : ‖u.toMatrix - tensor l r‖ ≤ κ) (small : κ ≤ 1 / 1000) :
    1 / 10 ≤ ‖(rightBlock u).1.toMatrix.det‖ := by
  have nonneg : 0 ≤ κ := (norm_nonneg _).trans near
  obtain ⟨unitary, -⟩ := mem_specialUnitaryGroup_iff.mp specialL
  obtain ⟨top, bottom⟩ := block_near near
  have size (i : Fin 2) : ‖l i 0‖ ≤ 1 := entry_norm_bound_of_unitary unitary i 0
  have column : ‖l 0 0‖ ^ 2 + ‖l 1 0‖ ^ 2 = 1 := sum_normSq_column unitary
  have bound {k : OneQubit} {i : Fin 2} (block : ‖k - l i 0 • r‖ ≤ κ) : |‖k.det‖ - ‖l i 0‖ ^ 2| ≤ 1 / 200 := by
    rw [← norm_pow]
    refine (abs_norm_sub_norm_le _ _).trans ((norm_det_sub_sq_le specialR block).trans ?_)
    nlinarith [size i]
  unfold rightBlock
  dsimp only
  split
  next low =>
    rw [Cx.abs_eq, Mat2.toComplex_det, tenth_eq] at low
    dsimp only
    linarith [abs_le.mp (bound top), abs_le.mp (bound bottom)]
  next high =>
    rw [Cx.abs_eq, Mat2.toComplex_det, tenth_eq] at high
    exact not_lt.mp high

/-- What a normalised block leaves of the multiple of a special unitary that it is near. -/
theorem normalize_multiple_far {m : Mat2 ℝ} (special : r ∈ specialUnitaryGroup (Fin 2) ℂ) (near : ‖m.toMatrix - c • r‖ ≤ κ)
    (far : 1 / 10 ≤ ‖m.toMatrix.det‖) (small : κ ≤ 1 / 1000) :
    9 / 10 + 3 / 100 ≤ ‖(r * (normalize m m.det).toMatrixᴴ) 0 0‖ ^ 2 := by
  have nonneg : 0 ≤ κ := (norm_nonneg _).trans near
  obtain ⟨unitary, -⟩ := mem_specialUnitaryGroup_iff.mp special
  obtain ⟨s, square, value⟩ := norm_normalize m
  set x := m.toMatrix - c • r with rest
  have determinant := (abs_norm_sub_norm_le _ _).trans (norm_det_sub_sq_le special near)
  rw [norm_pow, abs_le] at determinant
  have third : 3 / 10 ≤ ‖c‖ := by
    by_contra low
    nlinarith [norm_nonneg c, not_le.mp low]
  have multiple : (r * (normalize m m.det).toMatrixᴴ) 0 0 = star s * (star c + (r * xᴴ) 0 0) := by
    have own : m.toMatrix = c • r + x := by rw [rest]; abel
    have inverse : r * rᴴ = 1 := mem_unitaryGroup_iff.mp unitary
    rw [value, own, Matrix.conjTranspose_smul, Matrix.conjTranspose_add, Matrix.conjTranspose_smul, Matrix.mul_smul,
      Matrix.mul_add, Matrix.mul_smul, inverse]
    simp
  have entry : ‖(r * xᴴ) 0 0‖ ≤ κ := by
    refine (norm_apply_le _ 0 0).trans ?_
    rw [norm_unitary_mul _ unitary, Matrix.frobenius_norm_conjTranspose]
    exact near
  have part : ‖c‖ - κ ≤ ‖star c + (r * xᴴ) 0 0‖ := by
    have triangle := norm_sub_norm_le (star c) (-((r * xᴴ) 0 0))
    rw [norm_star, norm_neg, sub_neg_eq_add] at triangle
    linarith
  rw [multiple, norm_mul, norm_star, mul_pow, square, ← div_eq_inv_mul, le_div_iff₀ (by linarith)]
  have least := pow_le_pow_left₀ (by linarith) part 2
  nlinarith

/-- What is near a product of special unitaries passes the tests of the splitting. -/
theorem exists_decompose_near (specialL : l ∈ specialUnitaryGroup (Fin 2) ℂ) (specialR : r ∈ specialUnitaryGroup (Fin 2) ℂ)
    (near : ‖u.toMatrix - tensor l r‖ ≤ κ) (small : κ ≤ 1 / 1000) : ∃ p, decompose u = .ok p := by
  have nonneg : 0 ≤ κ := (norm_nonneg _).trans near
  have far := rightBlock_far specialL specialR near small
  obtain ⟨c, block⟩ := rightBlock_near near
  have large := normalize_multiple_far specialR block far small
  set right := normalize (rightBlock u).1 (rightBlock u).1.det with rightDef
  have kept : Nearly (1 / 10) right :=
    nearly_normalize specialR (by norm_num) far (pow_le_pow_left₀ (norm_nonneg _) block 2) (by nlinarith)
  have rest := strided_near (l := l) (r := r) near (by linarith [kept.size] : ‖right.toMatrix‖ ^ 2 ≤ 5 / 2)
  set w := (r * right.toMatrixᴴ) 0 0
  set left := Mat4.strided (u * Mat4.kron Square.identity right.dagger) 0 0 with leftDef
  have close : ‖left.toMatrix - w • l‖ ≤ 3 / 1000 := by
    refine abs_le_of_sq_le_sq' ?_ (by norm_num) |>.2
    nlinarith
  have determinant := (abs_norm_sub_norm_le _ _).trans (norm_det_sub_sq_le specialL close)
  rw [norm_pow, abs_le] at determinant
  refine ⟨_, decompose_of_far (rightBlock_det u ▸ rightDef.symm) leftDef.symm ?_ ?_⟩
  · rw [rightBlock_det, Mat2.toComplex_det]
    exact far
  · rw [Mat2.toComplex_det]
    nlinarith [norm_nonneg w]

end Product

/-- The square of a matrix that is unitary within `6e-6` is no longer than that of a unitary, nearly. -/
theorem norm_square_le {u : Mat4 ℝ} (near : ‖u.toMatrix * u.toMatrixᴴ - 1‖ ≤ 6e-6) :
    ‖((specialUnitary u u.det).transpose * specialUnitary u u.det).toMatrix‖ ≤ 21 / 10 := by
  obtain ⟨-, special, near'⟩ := specialUnitary_near near (by norm_num)
  obtain ⟨v, unitary, -, close⟩ := exists_special_near special near' (by norm_num)
  have length : ‖(v.transpose * v).toMatrix‖ = 2 := by
    rw [Mat4.toMatrix_mul, norm_mul_unitary _ unitary, Square.toMatrix_transpose, ← Matrix.mul_one v.toMatrixᵀ,
      norm_unitary_mul _ (transpose_mem_unitaryGroup_iff.mpr unitary), norm_one_twoQubit]
  have apart := norm_square_sub_le unitary close (by norm_num)
  have triangle := norm_le_norm_add_norm_sub (v.transpose * v).toMatrix
    ((specialUnitary u u.det).transpose * specialUnitary u u.det).toMatrix
  have small : 201 / 100 * (4 * 6e-6) ≤ (1 / 10 : ℝ) := by norm_num
  linarith

/-- A matrix that is unitary within `6e-6` has a canonical form wherever its square is diagonalised. -/
theorem exists_canonicalForm_near {u : Mat4 ℝ} {d : Diagonalization ℝ} (near : ‖u.toMatrix * u.toMatrixᴴ - 1‖ ≤ 6e-6)
    (found : diagonalize ((specialUnitary u u.det).transpose * specialUnitary u u.det) = .ok d) :
    ∃ f, canonicalForm u = .ok f := by
  obtain ⟨nonzero, special, near'⟩ := specialUnitary_near near (by norm_num)
  obtain ⟨v, unitary, special', close⟩ := exists_special_near special near' (by norm_num)
  obtain ⟨l, r, specialL, specialR, tensored⟩ := exists_tensor_of_near unitary special' close (by norm_num) found
  obtain ⟨outer, outerOk⟩ := Product.exists_decompose_near specialL specialR tensored (by norm_num)
  obtain ⟨-, orthogonal, -⟩ := diagonalize_eq_ok found
  obtain ⟨inner, innerOk, -⟩ := exists_startRight (diagonalizes_own orthogonal)
  exact ⟨_, canonicalForm_of_start nonzero found (startFolding_eq outerOk innerOk _)⟩

end Weyl

end Entangle

end
