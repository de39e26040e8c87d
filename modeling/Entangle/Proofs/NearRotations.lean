import Mathlib
import Entangle.Proofs.Diagonalisation

/-!
# Near rotations

Distances between matrices add up the squares of all entries, so that unitaries on either side keep them. A
matrix whose square is near the identity is near a unitary, by its polar form. A matrix near the identity has a
determinant near one, and a unitary that nearly keeps the real form is near a proper rotation: its imaginary part is
small, and what the real part lacks of a rotation is of second order.
-/

noncomputable section

namespace Entangle

open Matrix Complex
open scoped Matrix.Norms.Frobenius

/-! ## Real diagonals -/

section Diagonals

variable {n : Type} [DecidableEq n] {K : Type} [RCLike K]

/-- A diagonal matrix with real entries. -/
def realDiagonal (d : n → ℝ) : Matrix n n K := diagonal fun k => (d k : K)

theorem realDiagonal_sub (d e : n → ℝ) : (realDiagonal d - realDiagonal e : Matrix n n K) = realDiagonal (d - e) := by
  rw [realDiagonal, realDiagonal, Matrix.diagonal_sub, realDiagonal]
  simp only [Pi.sub_apply, RCLike.ofReal_sub]

theorem realDiagonal_one : (realDiagonal 1 : Matrix n n K) = 1 := by
  simp only [realDiagonal, Pi.one_apply, RCLike.ofReal_one, Matrix.diagonal_one]

theorem realDiagonal_conjTranspose (d : n → ℝ) : (realDiagonal d : Matrix n n K)ᴴ = realDiagonal d := by
  rw [realDiagonal, Matrix.diagonal_conjTranspose]
  congr 1
  funext k
  exact RCLike.conj_ofReal _

theorem realDiagonal_mul [Fintype n] (d e : n → ℝ) :
    (realDiagonal d * realDiagonal e : Matrix n n K) = realDiagonal (d * e) := by
  rw [realDiagonal, realDiagonal, Matrix.diagonal_mul_diagonal, realDiagonal]
  simp only [Pi.mul_apply, RCLike.ofReal_mul]

end Diagonals

/-! ## Distances -/

section Frobenius

variable {m n : Type} [Fintype m] [Fintype n] {K : Type} [RCLike K]

theorem frobenius_sq (x : Matrix m n K) : ‖x‖ ^ 2 = ∑ i, ∑ j, ‖x i j‖ ^ 2 := by
  have nonneg : 0 ≤ ∑ i, ∑ j, ‖x i j‖ ^ 2 := Finset.sum_nonneg fun i _ => Finset.sum_nonneg fun j _ => sq_nonneg _
  rw [Matrix.frobenius_norm_def]
  simp only [Real.rpow_two]
  rw [← Real.sqrt_eq_rpow, Real.sq_sqrt nonneg]

theorem norm_apply_le (x : Matrix m n K) (i : m) (j : n) : ‖x i j‖ ≤ ‖x‖ := by
  refine abs_le_of_sq_le_sq' ?_ (norm_nonneg _) |>.2
  rw [frobenius_sq]
  calc
    ‖x i j‖ ^ 2 ≤ ∑ j, ‖x i j‖ ^ 2 := Finset.single_le_sum (fun j _ => sq_nonneg ‖x i j‖) (Finset.mem_univ j)
    _ ≤ ∑ i, ∑ j, ‖x i j‖ ^ 2 :=
      Finset.single_le_sum (fun i _ => Finset.sum_nonneg fun j _ => sq_nonneg ‖x i j‖) (Finset.mem_univ i)

theorem frobenius_sq_eq_trace (x : Matrix m n K) : ((‖x‖ ^ 2 : ℝ) : K) = trace (x * xᴴ) := by
  rw [frobenius_sq, Matrix.trace]
  push_cast
  refine Finset.sum_congr rfl fun i _ => ?_
  rw [Matrix.diag_apply, Matrix.mul_apply]
  refine Finset.sum_congr rfl fun j _ => ?_
  rw [Matrix.conjTranspose_apply, RCLike.star_def, RCLike.mul_conj]

variable [DecidableEq n]

theorem frobenius_sq_diagonal (d : n → K) : ‖diagonal d‖ ^ 2 = ∑ k, ‖d k‖ ^ 2 := by
  rw [frobenius_sq]
  refine Finset.sum_congr rfl fun i _ => ?_
  rw [Finset.sum_eq_single i (fun j _ other => by rw [Matrix.diagonal_apply_ne' _ other, norm_zero, sq, zero_mul])
    fun absent => absurd (Finset.mem_univ i) absent, Matrix.diagonal_apply_eq]

theorem norm_diagonal_le {d e : n → K} (smaller : ∀ k, ‖d k‖ ≤ ‖e k‖) : ‖diagonal d‖ ≤ ‖diagonal e‖ := by
  refine (pow_le_pow_iff_left₀ (norm_nonneg _) (norm_nonneg _) two_ne_zero).mp ?_
  rw [frobenius_sq_diagonal, frobenius_sq_diagonal]
  exact Finset.sum_le_sum fun k _ => pow_le_pow_left₀ (norm_nonneg _) (smaller k) 2

/-- Unitaries keep the norm. -/
theorem norm_mul_unitary (x : Matrix m n K) {u : Matrix n n K} (unitary : u ∈ unitaryGroup n K) : ‖x * u‖ = ‖x‖ := by
  have inverse : u * uᴴ = 1 := mem_unitaryGroup_iff.mp unitary
  have same : ((‖x * u‖ ^ 2 : ℝ) : K) = ((‖x‖ ^ 2 : ℝ) : K) := by
    rw [frobenius_sq_eq_trace, frobenius_sq_eq_trace, Matrix.conjTranspose_mul, ← Matrix.mul_assoc, Matrix.mul_assoc x,
      inverse, Matrix.mul_one]
  exact (pow_left_inj₀ (norm_nonneg _) (norm_nonneg _) two_ne_zero).mp (RCLike.ofReal_injective same)

theorem norm_unitary_mul (x : Matrix n m K) {u : Matrix n n K} (unitary : u ∈ unitaryGroup n K) : ‖u * x‖ = ‖x‖ := by
  have adjoint : uᴴ ∈ unitaryGroup n K := Unitary.star_mem unitary
  rw [← Matrix.frobenius_norm_conjTranspose, Matrix.conjTranspose_mul, norm_mul_unitary _ adjoint,
    Matrix.frobenius_norm_conjTranspose]

section Axes

variable {x q : Matrix n n K} {s : n → ℝ}

theorem norm_turned (frame : q ∈ unitaryGroup n K) (y : Matrix n n K) : ‖q * y * qᴴ‖ = ‖y‖ := by
  have adjoint : qᴴ ∈ unitaryGroup n K := Unitary.star_mem frame
  rw [norm_mul_unitary _ adjoint, norm_unitary_mul _ frame]

theorem det_turned (frame : q ∈ unitaryGroup n K) (y : Matrix n n K) : (q * y * qᴴ).det = y.det := by
  have inverse : q * qᴴ = 1 := mem_unitaryGroup_iff.mp frame
  rw [Matrix.det_mul_right_comm, inverse, Matrix.one_mul]

theorem turned_sub_one (frame : q ∈ unitaryGroup n K) (d : n → ℝ) :
    q * realDiagonal d * qᴴ - 1 = q * realDiagonal (d - 1) * qᴴ := by
  have inverse : q * qᴴ = 1 := mem_unitaryGroup_iff.mp frame
  rw [← realDiagonal_sub, realDiagonal_one, Matrix.mul_sub, Matrix.sub_mul, Matrix.mul_one, inverse]

/-- The square of a matrix is diagonal on axes of its own. -/
theorem exists_axes (x : Matrix n n K) :
    ∃ q ∈ unitaryGroup n K, ∃ s : n → ℝ, xᴴ * x = q * realDiagonal s * qᴴ := by
  have symmetric : (xᴴ * x).IsHermitian := Matrix.isHermitian_conjTranspose_mul_self x
  have spectral := symmetric.spectral_theorem
  rw [Unitary.conjStarAlgAut_apply] at spectral
  exact ⟨_, symmetric.eigenvectorUnitary.2, _, spectral⟩

/-- The polar form of a matrix, on the axes of its square. -/
theorem exists_polar (frame : q ∈ unitaryGroup n K) (square : xᴴ * x = q * realDiagonal s * qᴴ) (positive : ∀ k, 0 < s k) :
    ∃ o ∈ unitaryGroup n K, x = o * (q * realDiagonal (fun k => √(s k)) * qᴴ) := by
  have inverse : q * qᴴ = 1 := mem_unitaryGroup_iff.mp frame
  have inverse' : qᴴ * q = 1 := mem_unitaryGroup_iff'.mp frame
  set root : n → ℝ := fun k => √(s k)
  set reciprocal : n → ℝ := fun k => (√(s k))⁻¹
  have cancel : (realDiagonal reciprocal * realDiagonal root : Matrix n n K) = 1 := by
    rw [realDiagonal_mul, ← realDiagonal_one]
    congr 1
    funext k
    exact inv_mul_cancel₀ (Real.sqrt_pos.mpr (positive k)).ne'
  have whole : (realDiagonal s : Matrix n n K) = realDiagonal root * realDiagonal root := by
    rw [realDiagonal_mul]
    congr 1
    funext k
    exact (Real.mul_self_sqrt (positive k).le).symm
  refine ⟨x * q * realDiagonal reciprocal * qᴴ, ?_, ?_⟩
  · have middle : qᴴ * (xᴴ * x) * q = realDiagonal s := by
      rw [square, ← Matrix.mul_assoc, ← Matrix.mul_assoc, inverse', Matrix.one_mul, Matrix.mul_assoc, inverse', Matrix.mul_one]
    rw [mem_unitaryGroup_iff', star_eq_conjTranspose]
    calc
      _ = q * realDiagonal reciprocal * (qᴴ * (xᴴ * x) * q) * realDiagonal reciprocal * qᴴ := by
        simp only [Matrix.conjTranspose_mul, Matrix.conjTranspose_conjTranspose, realDiagonal_conjTranspose, Matrix.mul_assoc]
      _ = q * ((realDiagonal reciprocal * realDiagonal root) * (realDiagonal root * realDiagonal reciprocal)) * qᴴ := by
        rw [middle, whole]
        simp only [Matrix.mul_assoc]
      _ = 1 := by
        rw [mul_eq_one_comm.mp cancel, cancel, Matrix.one_mul, Matrix.mul_one, inverse]
  · calc
      x = x * (q * qᴴ) := by rw [inverse, Matrix.mul_one]
      _ = x * q * (realDiagonal reciprocal * realDiagonal root) * qᴴ := by
        rw [cancel, Matrix.mul_one, Matrix.mul_assoc]
      _ = x * q * realDiagonal reciprocal * (qᴴ * q) * realDiagonal root * qᴴ := by
        rw [inverse', Matrix.mul_one]
        simp only [Matrix.mul_assoc]
      _ = _ := by
        simp only [Matrix.mul_assoc]

/-- A root is no further from one than its square. -/
theorem abs_sqrt_sub_one_le {y : ℝ} (positive : 0 < y) : |√y - 1| ≤ |y - 1| := by
  have factor : y - 1 = (√y - 1) * (√y + 1) := by linear_combination -Real.mul_self_sqrt positive.le
  rw [factor, abs_mul]
  refine le_mul_of_one_le_right (abs_nonneg _) ?_
  exact (le_abs_self _).trans' (by linarith [Real.sqrt_nonneg y])

end Axes

/-- A matrix whose square is near the identity has a unitary as near to it: what its square lacks is made up on the
axes of the square. The determinants differ by a positive factor, whose square is near one. -/
theorem exists_unitary_near {x : Matrix n n K} {ε : ℝ} (near : ‖xᴴ * x - 1‖ ≤ ε) (small : ε < 1) :
    ∃ o ∈ unitaryGroup n K, ‖x - o‖ ≤ ‖xᴴ * x - 1‖ ∧ ∃ r : ℝ, 0 < r ∧ x.det = r * o.det ∧
      (1 - ε) ^ Fintype.card n ≤ r ^ 2 ∧ r ^ 2 ≤ (1 + ε) ^ Fintype.card n := by
  obtain ⟨q, frame, s, square⟩ := exists_axes x
  have shift : ‖xᴴ * x - 1‖ = ‖(realDiagonal (s - 1) : Matrix n n K)‖ := by
    rw [square, turned_sub_one frame, norm_turned frame]
  have close (k : n) : |s k - 1| ≤ ε := by
    have entry := norm_apply_le (realDiagonal (s - 1) : Matrix n n K) k k
    rw [← shift, realDiagonal, Matrix.diagonal_apply_eq, RCLike.norm_ofReal] at entry
    exact entry.trans near
  have positive (k : n) : 0 < s k := by linarith [(abs_le.mp (close k)).1]
  obtain ⟨o, member, polar⟩ := exists_polar frame square positive
  refine ⟨o, member, ?_, ∏ k, √(s k), Finset.prod_pos fun k _ => Real.sqrt_pos.mpr (positive k), ?_, ?_, ?_⟩
  · have difference : x - o = o * (q * realDiagonal ((fun k => √(s k)) - 1) * qᴴ) := by
      rw [← turned_sub_one frame, Matrix.mul_sub, ← polar, Matrix.mul_one]
    rw [difference, norm_unitary_mul _ member, norm_turned frame, shift]
    refine norm_diagonal_le fun k => ?_
    rw [RCLike.norm_ofReal, RCLike.norm_ofReal]
    exact abs_sqrt_sub_one_le (positive k)
  · have determinant := congrArg Matrix.det polar
    rwa [Matrix.det_mul, det_turned frame, realDiagonal, Matrix.det_diagonal, ← RCLike.ofReal_prod, mul_comm] at determinant
  · rw [← Finset.prod_pow, ← Finset.card_univ, ← Finset.prod_const]
    refine Finset.prod_le_prod (fun k _ => by linarith) fun k _ => ?_
    rw [Real.sq_sqrt (positive k).le]
    linarith [(abs_le.mp (close k)).1]
  · rw [← Finset.prod_pow, ← Finset.card_univ, ← Finset.prod_const]
    refine Finset.prod_le_prod (fun k _ => sq_nonneg _) fun k _ => ?_
    rw [Real.sq_sqrt (positive k).le]
    linarith [(abs_le.mp (close k)).2]

/-- A real matrix whose square is near the identity has an orthogonal matrix as near to it. -/
theorem exists_orthogonal_near {x : Matrix n n ℝ} (near : ‖xᵀ * x - 1‖ < 1) :
    ∃ o : Matrix n n ℝ, oᵀ * o = 1 ∧ ‖x - o‖ ≤ ‖xᵀ * x - 1‖ := by
  rw [← Matrix.conjTranspose_eq_transpose_of_trivial] at near ⊢
  obtain ⟨o, member, close, -⟩ := exists_unitary_near le_rfl near
  refine ⟨o, ?_, close⟩
  rw [← Matrix.conjTranspose_eq_transpose_of_trivial]
  exact mem_unitaryGroup_iff'.mp member

end Frobenius

/-! ## Off the diagonal -/

section Off

variable {n : Type} [DecidableEq n] {K : Type} [RCLike K]

/-- The entries off the diagonal. -/
def off (x : Matrix n n K) : Matrix n n K := x - diagonal fun k => x k k

theorem off_apply (x : Matrix n n K) (i j : n) : off x i j = if i = j then 0 else x i j := by
  rw [off, Matrix.sub_apply, Matrix.diagonal_apply]
  split
  next same => rw [same, sub_self]
  next => rw [sub_zero]

variable [Fintype n]

theorem sum_norm_sq_row (x : Matrix n n K) (i : n) : ∑ j, ‖x i j‖ ^ 2 = ‖x i i‖ ^ 2 + ∑ j, ‖off x i j‖ ^ 2 := by
  rw [← Finset.add_sum_erase _ _ (Finset.mem_univ i), ← Finset.add_sum_erase _ (fun j => ‖off x i j‖ ^ 2) (Finset.mem_univ i),
    off_apply, if_pos rfl, norm_zero, zero_pow two_ne_zero, zero_add]
  congr 1
  refine Finset.sum_congr rfl fun j member => ?_
  rw [off_apply, if_neg (Finset.ne_of_mem_erase member).symm]

theorem norm_off_sq (x : Matrix n n K) : ‖off x‖ ^ 2 = ‖x‖ ^ 2 - ∑ k, ‖x k k‖ ^ 2 := by
  rw [eq_sub_iff_add_eq', frobenius_sq, frobenius_sq, ← Finset.sum_add_distrib]
  exact Finset.sum_congr rfl fun i _ => (sum_norm_sq_row x i).symm

/-- No diagonal matrix is nearer than the diagonal. -/
theorem norm_off_le (x : Matrix n n K) (d : n → K) : ‖off x‖ ≤ ‖x - diagonal d‖ := by
  refine (pow_le_pow_iff_left₀ (norm_nonneg _) (norm_nonneg _) two_ne_zero).mp ?_
  rw [frobenius_sq, frobenius_sq]
  refine Finset.sum_le_sum fun i _ => Finset.sum_le_sum fun j _ => ?_
  rw [off_apply, Matrix.sub_apply, Matrix.diagonal_apply]
  split
  next =>
    rw [norm_zero, zero_pow two_ne_zero]
    exact sq_nonneg _
  next => rw [sub_zero]

theorem norm_off_sq_le {x : Matrix (Fin 4) (Fin 4) K} {ε : ℝ} (small : ∀ i j, i ≠ j → ‖x i j‖ ≤ ε) :
    ‖off x‖ ^ 2 ≤ 12 * ε ^ 2 := by
  calc
    ‖off x‖ ^ 2 ≤ ∑ i : Fin 4, ∑ j : Fin 4, if i = j then 0 else ε ^ 2 := by
      rw [frobenius_sq]
      refine Finset.sum_le_sum fun i _ => Finset.sum_le_sum fun j _ => ?_
      rw [off_apply]
      split
      next => rw [norm_zero, zero_pow two_ne_zero]
      next apart => exact pow_le_pow_left₀ (norm_nonneg _) (small i j apart) 2
    _ = 12 * ε ^ 2 := by
      simp [Fin.sum_univ_four]
      ring

end Off

/-! ## Determinants -/

/-- A matrix with small entries off the diagonal has nearly the product of the diagonal as its determinant: every
permutation but one moves two places. -/
theorem norm_det_sub_le {x : TwoQubit} {ε : ℝ} (nonneg : 0 ≤ ε) (small : ε ≤ 1) (on : ∀ k, ‖x k k‖ ≤ 1)
    (off : ∀ i j, i ≠ j → ‖x i j‖ ≤ ε) : ‖x.det - ∏ k, x k k‖ ≤ 23 * ε ^ 2 := by
  have rest : x.det - ∏ k, x k k =
      ∑ σ ∈ Finset.univ.erase (1 : Equiv.Perm (Fin 4)), (Equiv.Perm.sign σ : ℤ) * ∏ k, x (σ k) k := by
    rw [Matrix.det_apply', ← Finset.add_sum_erase _ _ (Finset.mem_univ (1 : Equiv.Perm (Fin 4)))]
    simp
  have each : ∀ σ ∈ Finset.univ.erase (1 : Equiv.Perm (Fin 4)), ‖((Equiv.Perm.sign σ : ℤ) : ℂ) * ∏ k, x (σ k) k‖ ≤ ε ^ 2 := by
    intro σ member
    have moves : 2 ≤ σ.support.card := Equiv.Perm.two_le_card_support_of_ne_one (Finset.ne_of_mem_erase member)
    have sign : ‖((Equiv.Perm.sign σ : ℤ) : ℂ)‖ = 1 := by
      rcases Int.units_eq_one_or (Equiv.Perm.sign σ) with one | minus
      · simp [one]
      · simp [minus]
    rw [norm_mul, sign, one_mul, norm_prod]
    calc
      ∏ k, ‖x (σ k) k‖ ≤ ∏ k, if k ∈ σ.support then ε else 1 := by
        refine Finset.prod_le_prod (fun k _ => norm_nonneg _) fun k _ => ?_
        split
        next moved => exact off _ _ (Equiv.Perm.mem_support.mp moved)
        next fixed =>
          rw [Equiv.Perm.notMem_support.mp fixed]
          exact on k
      _ = ε ^ σ.support.card := by
        rw [Finset.prod_ite_mem, Finset.univ_inter, Finset.prod_const]
      _ ≤ ε ^ 2 := pow_le_pow_of_le_one nonneg small moves
  rw [rest]
  refine (norm_sum_le_of_le _ each).trans ?_
  rw [Finset.sum_const, Finset.card_erase_of_mem (Finset.mem_univ _), Finset.card_univ, Fintype.card_perm, Fintype.card_fin,
    nsmul_eq_mul]
  norm_num [Nat.factorial]

theorem norm_mul_sub_one_le {a b : ℂ} (small : ‖a‖ ≤ 1) : ‖a * b - 1‖ ≤ ‖a - 1‖ + ‖b - 1‖ := by
  have split : a * b - 1 = (a - 1) + a * (b - 1) := by ring
  rw [split]
  refine (norm_add_le _ _).trans (add_le_add_right ?_ _)
  rw [norm_mul]
  exact mul_le_of_le_one_left (norm_nonneg _) small

/-- A unitary near the identity has a determinant near one. -/
theorem norm_det_sub_one_le {x : TwoQubit} {ε : ℝ} (unitary : x ∈ unitaryGroup (Fin 4) ℂ) (small : ε ≤ 1)
    (near : ‖x - 1‖ ≤ ε) : ‖x.det - 1‖ ≤ 4 * ε + 23 * ε ^ 2 := by
  have nonneg : 0 ≤ ε := (norm_nonneg _).trans near
  have on (k : Fin 4) : ‖x k k‖ ≤ 1 := entry_norm_bound_of_unitary unitary k k
  have off (i j : Fin 4) (apart : i ≠ j) : ‖x i j‖ ≤ ε := by
    have entry := norm_apply_le (x - 1) i j
    rw [Matrix.sub_apply, Matrix.one_apply_ne apart, sub_zero] at entry
    exact entry.trans near
  have each (k : Fin 4) : ‖x k k - 1‖ ≤ ε := by
    have entry := norm_apply_le (x - 1) k k
    rw [Matrix.sub_apply, Matrix.one_apply_eq] at entry
    exact entry.trans near
  have product : ‖∏ k, x k k - 1‖ ≤ 4 * ε := by
    rw [Fin.prod_univ_four, mul_assoc, mul_assoc]
    have last := norm_mul_sub_one_le (b := x 3 3) (on 2)
    have middle := norm_mul_sub_one_le (b := x 2 2 * x 3 3) (on 1)
    have first := norm_mul_sub_one_le (b := x 1 1 * (x 2 2 * x 3 3)) (on 0)
    linarith [each 0, each 1, each 2, each 3]
  have whole := norm_sub_le_norm_sub_add_norm_sub x.det (∏ k, x k k) 1
  linarith [norm_det_sub_le nonneg small on off]

/-! ## Rotations -/

/-- What a unitary lacks of the real form is twice its imaginary part. -/
theorem norm_square_sub_one {w : TwoQubit} (unitary : w ∈ unitaryGroup (Fin 4) ℂ) : ‖wᵀ * w - 1‖ = 2 * ‖w.map im‖ := by
  have inverse : wᴴ * w = 1 := mem_unitaryGroup_iff'.mp unitary
  have conjugate : (wᵀ - wᴴ)ᵀ = (2 * I) • (w.map im).map ofReal := by
    ext i j
    simp [Complex.sub_conj]
    ring
  rw [← inverse, ← Matrix.sub_mul, norm_mul_unitary _ unitary, ← Matrix.frobenius_norm_transpose, conjugate, norm_smul,
    Matrix.frobenius_norm_map_eq _ _ fun a => Complex.norm_real a]
  simp

/-- What the real part of a unitary lacks of an orthogonal matrix is the square of the imaginary part. -/
theorem re_square_sub_one {w : TwoQubit} (unitary : w ∈ unitaryGroup (Fin 4) ℂ) :
    (w.map re)ᵀ * w.map re - 1 = -((w.map im)ᵀ * w.map im) := by
  have inverse : wᴴ * w = 1 := mem_unitaryGroup_iff'.mp unitary
  rw [sub_eq_iff_eq_add, ← sub_eq_neg_add, eq_sub_iff_add_eq]
  ext i j
  have entry := congrArg re (congrFun (congrFun inverse i) j)
  rw [Matrix.mul_apply, Complex.re_sum, Matrix.one_apply, apply_ite re, Complex.one_re, Complex.zero_re] at entry
  rw [Matrix.one_apply, ← entry, Matrix.add_apply, Matrix.mul_apply, Matrix.mul_apply, ← Finset.sum_add_distrib]
  refine Finset.sum_congr rfl fun k _ => ?_
  simp

/-- An orthogonal matrix near a unitary of determinant one is a proper rotation. -/
theorem det_eq_one_of_near {w : TwoQubit} {o : Matrix (Fin 4) (Fin 4) ℝ} (unitary : w ∈ unitaryGroup (Fin 4) ℂ)
    (special : w.det = 1) (orthogonal : o * oᵀ = 1) (near : ‖w - o.map ofReal‖ ≤ 6 / 100) : o.det = 1 := by
  have frame := Weyl.map_mem_unitary orthogonal
  have member : star (o.map ofReal) * w ∈ unitaryGroup (Fin 4) ℂ := mul_mem (Unitary.star_mem frame) unitary
  have back : ‖star (o.map ofReal) * w - 1‖ ≤ 6 / 100 := by
    have factor : star (o.map ofReal) * w - 1 = star (o.map ofReal) * (w - o.map ofReal) := by
      rw [Matrix.mul_sub, mem_unitaryGroup_iff'.mp frame]
    rwa [factor, norm_unitary_mul _ (Unitary.star_mem frame)]
  have determinant := norm_det_sub_one_le member (by norm_num) back
  rw [Matrix.det_mul, special, mul_one, star_eq_conjTranspose, Matrix.det_conjTranspose, Weyl.det_map_ofReal, Complex.star_def,
    Complex.conj_ofReal, ← Complex.ofReal_one, ← Complex.ofReal_sub, Complex.norm_real] at determinant
  have sign : o.det * o.det = 1 := by
    rw [← Matrix.det_one (n := Fin 4) (R := ℝ), ← orthogonal, Matrix.det_mul, Matrix.det_transpose]
  rcases mul_self_eq_one_iff.mp sign with one | minus
  · exact one
  · rw [minus] at determinant
    norm_num at determinant

/-- A unitary that nearly keeps the real form is half as far from a proper rotation. -/
theorem exists_rotation_near {w : TwoQubit} {ε : ℝ} (unitary : w ∈ unitaryGroup (Fin 4) ℂ) (special : w.det = 1)
    (small : ε ≤ 1 / 10) (near : ‖wᵀ * w - 1‖ ≤ ε) :
    ∃ o : Matrix (Fin 4) (Fin 4) ℝ, o * oᵀ = 1 ∧ o.det = 1 ∧ ‖w - o.map ofReal‖ ≤ ε / 2 + ε ^ 2 / 4 := by
  have nonneg : 0 ≤ ε := (norm_nonneg _).trans near
  set x := w.map re with realPart
  set y := w.map im with imaginaryPart
  have imaginary : ‖y‖ ≤ ε / 2 := by linarith [norm_square_sub_one unitary]
  have real : ‖xᵀ * x - 1‖ ≤ ε ^ 2 / 4 := by
    rw [re_square_sub_one unitary, norm_neg]
    calc
      ‖yᵀ * y‖ ≤ ‖yᵀ‖ * ‖y‖ := Matrix.frobenius_norm_mul _ _
      _ = ‖y‖ ^ 2 := by rw [Matrix.frobenius_norm_transpose, pow_two]
      _ ≤ (ε / 2) ^ 2 := pow_le_pow_left₀ (norm_nonneg _) imaginary 2
      _ = ε ^ 2 / 4 := by ring
  obtain ⟨o, orthogonal, close⟩ := exists_orthogonal_near (x := x) (by nlinarith)
  have orthogonal' : o * oᵀ = 1 := mul_eq_one_comm.mp orthogonal
  have distance : ‖w - o.map ofReal‖ ≤ ε / 2 + ε ^ 2 / 4 := by
    have split : w - o.map ofReal = I • y.map ofReal + (x - o).map ofReal := by
      have parts : w = x.map ofReal + I • y.map ofReal := by
        ext i j
        simp [x, y, mul_comm I, Complex.re_add_im]
      rw [parts, Matrix.map_sub _ Complex.ofReal_sub]
      abel
    rw [split]
    refine (norm_add_le _ _).trans (add_le_add ?_ ?_)
    · rwa [norm_smul, Complex.norm_I, one_mul, Matrix.frobenius_norm_map_eq _ _ fun a => Complex.norm_real a]
    · rw [Matrix.frobenius_norm_map_eq _ _ fun a => Complex.norm_real a]
      exact close.trans real
  exact ⟨o, orthogonal', det_eq_one_of_near unitary special orthogonal' (distance.trans (by nlinarith)), distance⟩

end Entangle

end
