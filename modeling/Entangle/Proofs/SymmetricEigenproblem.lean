import Mathlib
import Entangle.Proofs.NearRotations
import Entangle.Proofs.OrthogonalFrames

/-!
# Symmetric eigenproblems

On a symmetric matrix the search by plane rotations has a result exactly where its last state keeps no entry off the
diagonal above the threshold; what it then returns is the diagonal of that state in ascending order, in an orthogonal
frame. Within the default budget it always has one: a rotation takes twice the square of the pivot from the squares off
the diagonal, and among the twelve entries there the pivot is the largest, so that a sixth of their sum goes with every
step.
-/

noncomputable section

namespace Entangle.Jacobi

open Matrix
open scoped Matrix.Norms.Frobenius

/-! ## What a search ends with -/

section Result

variable {a : Real4 ℝ} {o : Options ℝ} {e : Eigen ℝ} {threshold : ℝ}

/-- A search that stops before its budget is spent stops at a small residue. -/
theorem iterate_residue (budget : ℕ) {s : State ℝ} (stopped : (iterate threshold budget s).2 = true) :
    residue (iterate threshold budget s).1.w ≤ threshold := by
  induction budget generalizing s with
  | zero => cases stopped
  | succ budget ih =>
    rw [iterate] at stopped ⊢
    dsimp only at stopped ⊢
    split at stopped
    next small =>
      rw [if_pos small]
      exact (pivot_size s).ge.trans small
    next large =>
      rw [if_neg large]
      exact ih stopped

/-- The last state of a search. -/
def lastState (a : Real4 ℝ) (o : Options ℝ) : State ℝ :=
  (iterate (o.tolerance * frobenius a) o.budget (.start a)).1

/-- A symmetric matrix has a result where the last state has a small residue, and the result is that state. -/
theorem eigen_eq_ok_iff (mirrored : ∀ i j, a i j = a j i) (tolerance : 0 ≤ o.tolerance) :
    eigen a o = .ok e ↔ residue (lastState a o).w ≤ o.tolerance * frobenius a ∧ e = sorted (lastState a o) := by
  rw [eigen_of_symmetric mirrored tolerance, Outcome.step_eq_ok]
  dsimp only
  split
  next failed =>
    rw [Bool.and_eq_true, decide_eq_true_iff] at failed
    constructor
    · intro same
      cases same
    · rintro ⟨small, -⟩
      exact absurd small (not_le.mpr failed.2)
  next passed =>
    have small : residue (lastState a o).w ≤ o.tolerance * frobenius a := by
      rw [Bool.and_eq_true, Bool.not_eq_true', decide_eq_true_iff, not_and_or, Bool.not_eq_false, not_lt] at passed
      rcases passed with stopped | small
      · exact iterate_residue o.budget stopped
      · exact small
    rw [Except.ok.injEq, eq_comm]
    exact ⟨fun same => ⟨small, same⟩, And.right⟩

theorem transpose_toReal (mirrored : ∀ i j, a i j = a j i) : a.toRealᵀ = a.toReal := by
  ext i j
  exact mirrored j i

theorem lastState_carries (mirrored : ∀ i j, a i j = a j i) (tolerance : 0 ≤ o.tolerance) :
    Carries a.toReal (lastState a o) :=
  iterate_carries (transpose_toReal mirrored) (mul_nonneg tolerance (Real.sqrt_nonneg _)) o.budget
    (carries_start a)

theorem get_sorted_values (s : State ℝ) (k : Fin 4) :
    (sorted s).values.get k = s.w (sortedColumn s k) (sortedColumn s k) := by
  simp [sorted, sortedColumn]

/-- The values are in ascending order. -/
theorem sorted_values_monotone (s : State ℝ) : Monotone (sorted s).values.get := by
  intro j k before
  rw [get_sorted_values, get_sorted_values]
  rcases before.eq_or_lt with rfl | strict
  · exact le_rfl
  · have ascending : (columnOrder s).Pairwise fun i j => s.w i i ≤ s.w j j := sortUp_sorted (fun i => s.w i i) _
    rw [sortedColumn_eq_get, sortedColumn_eq_get]
    exact ascending.rel_get_of_lt strict

end Result

/-! ## Two opposite pairs -/

/-- A diagonal with one entry for each of two pairs of axes. -/
def paired (d : Fin 4 → ℝ) (x y : ℝ) : Real4 ℝ :=
  Square.ofFn fun i j => !![d 0, 0, 0, x; 0, d 1, y, 0; 0, y, d 2, 0; x, 0, 0, d 3] i j

theorem toReal_paired_zero (d : Fin 4 → ℝ) : (paired d 0 0).toReal = diagonal d := by
  ext i j
  fin_cases i <;> fin_cases j <;> simp [paired]

/-- Between equal diagonal entries a step turns by an eighth. -/
theorem angle_equal (d x : ℝ) : ∃ c, angle d d x = (c, c) ∧ c * c = 1 / 2 := by
  have tangent : Scalar.copysign (1 / (Scalar.abs ((d - d) / (2 * x)) + Scalar.hypot ((d - d) / (2 * x)) 1))
      ((d - d) / (2 * x)) = 1 := by
    rw [sub_self, zero_div, Exact.copysign_eq, Exact.abs_eq, Exact.hypot_eq]
    norm_num
  refine ⟨1 / √2, ?_, ?_⟩
  · simp only [angle, Exact.one_eq, Exact.numeral_eq, tangent, Exact.sqrt_eq]
    norm_num
  · rw [div_mul_div_comm, Real.mul_self_sqrt (by norm_num), one_mul]

section Paired

variable {s : State ℝ} {d : Fin 4 → ℝ} {x y : ℝ}

theorem rotate_equal {p r : Fin 4} (equal : s.w r r = s.w p p) (nonzero : s.w p r ≠ 0) :
    ∃ c, (s.rotate p r).w = rotateMatrix s.w p r c c ∧ c * c = 1 / 2 := by
  obtain ⟨c, found, half⟩ := angle_equal (s.w p p) (s.w p r)
  have large : ¬ isNegligible (s.w p p) (s.w r r) (s.w p r) = true := by rwa [isNegligible_iff]
  refine ⟨c, ?_, half⟩
  unfold State.rotate
  dsimp only
  rw [if_neg large, equal, found]

theorem rotate_outer (own : s.w = paired d x y) (equal : d 3 = d 0) (nonzero : x ≠ 0) :
    (s.rotate 0 3).w = paired ![d 0 - x, d 1, d 2, d 0 + x] 0 y := by
  obtain ⟨c, turned, half⟩ := rotate_equal (s := s) (p := 0) (r := 3) (by rw [own]; simpa [paired] using equal)
    (by rw [own]; simpa [paired] using nonzero)
  rw [turned, own]
  apply Square.ext
  intro i j
  fin_cases i <;> fin_cases j <;> simp [rotateMatrix, paired, equal]
  · linear_combination (2 * d 0 - 2 * x) * half
  · linear_combination (2 * d 0 + 2 * x) * half

theorem rotate_inner (own : s.w = paired d x y) (equal : d 2 = d 1) (nonzero : y ≠ 0) :
    (s.rotate 1 2).w = paired ![d 0, d 1 - y, d 1 + y, d 3] x 0 := by
  obtain ⟨c, turned, half⟩ := rotate_equal (s := s) (p := 1) (r := 2) (by rw [own]; simpa [paired] using equal)
    (by rw [own]; simpa [paired] using nonzero)
  rw [turned, own]
  apply Square.ext
  intro i j
  fin_cases i <;> fin_cases j <;> simp [rotateMatrix, paired, equal]
  · linear_combination (2 * d 1 - 2 * y) * half
  · linear_combination (2 * d 1 + 2 * y) * half

theorem pivot_outer (own : s.w = paired d x y) (nonzero : x ≠ 0) (most : |y| ≤ |x|) : s.pivot = (|x|, 0, 3) := by
  simp [State.pivot, upper, own, paired, nonzero, not_lt.mpr most, not_lt.mpr (abs_nonneg x)]

theorem pivot_inner (own : s.w = paired d 0 y) (nonzero : y ≠ 0) : s.pivot = (|y|, 1, 2) := by
  simp [State.pivot, upper, own, paired, nonzero, not_lt.mpr (abs_nonneg y)]

theorem pivot_none (own : s.w = paired d 0 0) : s.pivot = (0, s.p, s.r) := by
  simp [State.pivot, upper, own, paired]

theorem frobenius_paired (x : ℝ) : frobenius (paired 0 x (-x)) = 2 * |x| := by
  have sum : ∑ i, ∑ j, paired 0 x (-x) i j ^ 2 = (2 * |x|) ^ 2 := by
    rw [mul_pow, sq_abs]
    simp [paired, Fin.sum_univ_four]
    ring
  rw [frobenius_eq, sum, Real.sqrt_sq (by positivity)]

/-- Two steps diagonalise a matrix of two opposite pairs. -/
theorem eigen_paired (nonzero : x ≠ 0) :
    ∃ (e : Eigen ℝ) (d : Fin 4 → ℝ), eigen (paired 0 x (-x)) .default = .ok e ∧ Orthonormal e.vectors ∧
      e.vectors.toRealᵀ * (paired 0 x (-x)).toReal * e.vectors.toReal = diagonal d := by
  set a := paired 0 x (-x) with aDef
  set threshold := (Options.default : Options ℝ).tolerance * frobenius a with thresholdDef
  have size : 0 < |x| := abs_pos.mpr nonzero
  have positive : 0 ≤ threshold := mul_nonneg default_tolerance_nonneg (Real.sqrt_nonneg _)
  have above : ¬ |x| ≤ threshold := by
    have value : (Options.default : Options ℝ).tolerance = 1e-15 := rfl
    rw [thresholdDef, value, frobenius_paired]
    norm_num
    linarith
  have mirrored (i j : Fin 4) : a i j = a j i := by
    fin_cases i <;> fin_cases j <;> simp [aDef, paired]
  set first := (State.start a).rotate 0 3 with firstDef
  set second := first.rotate 1 2 with secondDef
  have own1 : first.w = paired ![0 - x, 0, 0, 0 + x] 0 (-x) := rotate_outer (d := 0) rfl rfl nonzero
  have own2 : second.w = paired _ 0 0 := rotate_inner own1 rfl (neg_ne_zero.mpr nonzero)
  have pivot0 : (State.start a).pivot = (|x|, 0, 3) := pivot_outer (d := 0) rfl nonzero (abs_neg x).le
  have pivot1 : first.pivot = (|x|, 1, 2) := by rw [pivot_inner own1 (neg_ne_zero.mpr nonzero), abs_neg]
  have pivot2 := pivot_none own2
  have run : iterate threshold (Options.default : Options ℝ).budget (.start a) = (second, true) := by
    change iterate threshold (497 + 1 + 1 + 1) (.start a) = _
    rw [iterate, pivot0]
    dsimp only
    rw [if_neg above, iterate, pivot1]
    dsimp only
    rw [if_neg above, iterate, pivot2]
    exact if_pos positive
  have carries := lastState_carries mirrored default_tolerance_nonneg
  rw [lastState, run] at carries
  have found := eigen_of_converged mirrored run
  have turned := sorted_carries carries
  rw [own2, toReal_paired_zero, Matrix.submatrix_diagonal _ _ (sortedColumn_bijective second).injective] at turned
  exact ⟨_, _, found, eigen_orthonormal default_tolerance_nonneg found, turned⟩

end Paired

/-! ## The result -/

/-- What is returned for a symmetric matrix is an orthogonal frame in which the matrix has the returned values on its
diagonal, in ascending order, and no other entry above the threshold. -/
theorem eigen_diagonalizes {a : Real4 ℝ} {o : Options ℝ} {e : Eigen ℝ} (mirrored : ∀ i j, a i j = a j i)
    (tolerance : 0 ≤ o.tolerance) (found : eigen a o = .ok e) :
    e.vectors.toReal ∈ orthogonalGroup (Fin 4) ℝ ∧ Monotone e.values.get ∧
      (∀ k, (e.vectors.toRealᵀ * a.toReal * e.vectors.toReal) k k = e.values.get k) ∧
      ∀ i j, i ≠ j →
        |(e.vectors.toRealᵀ * a.toReal * e.vectors.toReal) i j| ≤ o.tolerance * √(∑ i, ∑ j, a i j ^ 2) := by
  have columns := eigen_orthonormal tolerance found
  obtain ⟨small, rfl⟩ := (eigen_eq_ok_iff mirrored tolerance).mp found
  set s := lastState a o
  have carries := lastState_carries mirrored tolerance
  rw [sorted_carries carries, ← frobenius_eq]
  refine ⟨(mem_orthogonalGroup_iff' (Fin 4) ℝ).mpr columns, sorted_values_monotone s, fun k => (get_sorted_values s k).symm, ?_⟩
  intro i j apart
  exact (abs_le_residue (carries.symmetric (transpose_toReal mirrored)) ((sortedColumn_bijective s).injective.ne apart)).trans small

/-- At tolerance zero and with a budget of one rotation, the one that spends the budget. -/
theorem eigen_diagonalizes_last_rotation :
    ∃ e : Eigen ℝ, eigen (paired ![2, 5, -3, 2] 1 0) ⟨0, 1⟩ = .ok e ∧ e.values = #v[-3, 1, 3, 5] ∧
      e.vectors.toReal ∈ orthogonalGroup (Fin 4) ℝ ∧
      ∀ i j, i ≠ j → (e.vectors.toRealᵀ * (paired ![2, 5, -3, 2] 1 0).toReal * e.vectors.toReal) i j = 0 := by
  set a := paired ![2, 5, -3, 2] 1 0 with a_def
  have mirrored (i j : Fin 4) : a i j = a j i := by
    fin_cases i <;> fin_cases j <;> simp [a_def, paired]
  set last := (State.start a).rotate 0 3 with last_def
  have own : last.w = paired ![2 - 1, 5, -3, 2 + 1] 0 0 := rotate_outer (d := ![2, 5, -3, 2]) rfl rfl one_ne_zero
  have run : lastState a ⟨0, 1⟩ = last := by
    have pivot : (State.start a).pivot = (|1|, 0, 3) := pivot_outer (d := ![2, 5, -3, 2]) rfl one_ne_zero (by simp)
    rw [lastState, iterate, pivot]
    dsimp only
    rw [if_neg (by simp)]
    rfl
  have settled : residue last.w = 0 := by rw [← pivot_size, pivot_none own]
  have diagonal (k : Fin 4) : last.w k k = ![1, 5, -3, 3] k := by
    rw [own]
    fin_cases k <;> simp [paired] <;> norm_num
  have order : columnOrder last = [2, 0, 3, 1] := by
    have places : List.finRange 4 = [0, 1, 2, 3] := rfl
    have third : (![1, 5, -3, 3] : Fin 4 → ℝ) 2 = -3 := rfl
    have fourth : (![1, 5, -3, 3] : Fin 4 → ℝ) 3 = 3 := rfl
    simp only [columnOrder, diagonal, places]
    norm_num [sortUp, insertDown, third, fourth]
  have found : eigen a ⟨0, 1⟩ = .ok (sorted last) := by
    rw [eigen_eq_ok_iff mirrored le_rfl, run, settled]
    simp
  obtain ⟨orthogonal, -, -, off⟩ := eigen_diagonalizes mirrored le_rfl found
  refine ⟨sorted last, found, ?_, orthogonal, fun i j apart => ?_⟩
  · have values (k : Fin 4) : (sorted last).values.get k = ![-3, 1, 3, 5] k := by
      rw [get_sorted_values, diagonal, sortedColumn_eq_get]
      fin_cases k <;> simp [order]
    apply Vector.ext
    intro k small
    have entry := values ⟨k, small⟩
    interval_cases k <;> exact entry
  · have bound := off i j apart
    rw [zero_mul] at bound
    exact abs_nonpos_iff.mp bound

/-! ## Convergence -/

section Convergence

variable {w : Real4 ℝ} {s : State ℝ} {p r : Fin 4} {c t : ℝ}

/-- The sum of the squares off the diagonal. -/
def offDiagonal (w : Real4 ℝ) : ℝ := ∑ i, ∑ j, if i = j then 0 else w i j ^ 2

theorem offDiagonal_eq_norm (w : Real4 ℝ) : offDiagonal w = ‖off w.toReal‖ ^ 2 := by
  rw [frobenius_sq, offDiagonal]
  refine Finset.sum_congr rfl fun i _ => Finset.sum_congr rfl fun j _ => ?_
  rw [off_apply]
  split
  next => rw [norm_zero, zero_pow two_ne_zero]
  next => rw [Square.toReal_apply, Real.norm_eq_abs, sq_abs]

theorem offDiagonal_nonneg (w : Real4 ℝ) : 0 ≤ offDiagonal w := by
  rw [offDiagonal_eq_norm]
  exact sq_nonneg _

/-- It is what the diagonal leaves of all squares. -/
theorem offDiagonal_eq (w : Real4 ℝ) : offDiagonal w = ‖w.toReal‖ ^ 2 - ∑ k, w k k ^ 2 := by
  rw [offDiagonal_eq_norm, norm_off_sq]
  simp

theorem frobenius_eq_norm (w : Real4 ℝ) : frobenius w = ‖w.toReal‖ := by
  rw [frobenius_eq, ← Real.sqrt_sq (norm_nonneg w.toReal), frobenius_sq]
  simp

theorem offDiagonal_le (w : Real4 ℝ) : offDiagonal w ≤ frobenius w ^ 2 := by
  have nonneg : 0 ≤ ∑ k, w k k ^ 2 := Finset.sum_nonneg fun k _ => sq_nonneg _
  rw [offDiagonal_eq, frobenius_eq_norm]
  linarith

/-- Twelve entries off the diagonal are at most the residue. -/
theorem offDiagonal_le_residue (symmetric : ∀ i j, w i j = w j i) : offDiagonal w ≤ 12 * residue w ^ 2 := by
  rw [offDiagonal_eq_norm]
  exact norm_off_sq_le fun i j apart => abs_le_residue symmetric apart

/-- A rotation that clears an entry moves its square to the diagonal, with that of its mirror image. -/
theorem sum_diagonal_rotateMatrix (apart : p ≠ r) (circle : c * c + t * t = 1)
    (clears : (c * c - t * t) * w p r + c * t * (w p p - w r r) = 0) :
    ∑ k, rotateMatrix w p r c t k k ^ 2 = ∑ k, w k k ^ 2 + 2 * w p r ^ 2 := by
  have first : rotateMatrix w p r c t p p = c * c * w p p - 2 * c * t * w p r + t * t * w r r := by
    simp [rotateMatrix, apart]
  have second : rotateMatrix w p r c t r r = t * t * w p p + 2 * c * t * w p r + c * c * w r r := by
    simp [rotateMatrix, apart.symm]
  have other : ∀ k, k ≠ p ∧ k ≠ r → rotateMatrix w p r c t k k ^ 2 - w k k ^ 2 = 0 := by
    rintro k ⟨notFirst, notSecond⟩
    simp [rotateMatrix, notFirst, notSecond]
  have moved : ∑ k, (rotateMatrix w p r c t k k ^ 2 - w k k ^ 2) = 2 * w p r ^ 2 := by
    rw [Fintype.sum_eq_add p r apart other, first, second]
    linear_combination (w p p ^ 2 + w r r ^ 2 + 2 * w p r ^ 2) * (c * c + t * t + 1) * circle -
      2 * ((c * c - t * t) * w p r + c * t * (w p p - w r r)) * clears
  rw [← moved, Finset.sum_sub_distrib]
  ring

theorem plane_mem_unitary (apart : p ≠ r) (circle : c * c + t * t = 1) : plane p r c t ∈ unitaryGroup (Fin 4) ℝ := by
  rw [mem_unitaryGroup_iff', star_eq_conjTranspose, Matrix.conjTranspose_eq_transpose_of_trivial]
  exact plane_orthogonal apart circle

/-- A step takes twice the square of its pivot from the squares off the diagonal. -/
theorem offDiagonal_rotate (symmetric : ∀ i j, s.w i j = s.w j i) (apart : p ≠ r) :
    offDiagonal (s.rotate p r).w = offDiagonal s.w - 2 * s.w p r ^ 2 := by
  unfold State.rotate
  dsimp only
  split
  next negligible =>
    rw [isNegligible_iff] at negligible
    rw [clear_eq_self symmetric negligible, negligible]
    ring
  next large =>
    rw [isNegligible_iff] at large
    have circle := angle_circle (s.w p p) (s.w r r) (s.w p r)
    have clears := angle_clears large (s.w p p) (s.w r r)
    have turn := plane_mem_unitary apart circle
    have back : (plane p r (angle (s.w p p) (s.w r r) (s.w p r)).1 (angle (s.w p p) (s.w r r) (s.w p r)).2)ᵀ ∈
        unitaryGroup (Fin 4) ℝ := by
      rw [← Matrix.conjTranspose_eq_transpose_of_trivial]
      exact Unitary.star_mem turn
    rw [offDiagonal_eq, offDiagonal_eq, sum_diagonal_rotateMatrix apart circle clears,
      toReal_rotateMatrix symmetric apart clears, norm_mul_unitary _ turn, norm_unitary_mul _ back]
    ring

theorem residue_sq (positive : 0 < residue s.w) : s.w s.pivot.2.1 s.pivot.2.2 ^ 2 = residue s.w ^ 2 := by
  rw [(pivot_place positive).2, sq_abs]

/-- The pivot and its mirror image are off the diagonal. -/
theorem two_mul_residue_sq_le (symmetric : ∀ i j, s.w i j = s.w j i) : 2 * residue s.w ^ 2 ≤ offDiagonal s.w := by
  rcases (residue_nonneg s.w).eq_or_lt with zero | positive
  · rw [← zero]
    simpa using offDiagonal_nonneg s.w
  · have left := offDiagonal_rotate symmetric (pivot_place positive).1.ne
    have nonneg := offDiagonal_nonneg (s.rotate s.pivot.2.1 s.pivot.2.2).w
    rw [residue_sq positive] at left
    linarith

/-- A step at the pivot takes a sixth of the squares off the diagonal. -/
theorem offDiagonal_rotate_pivot_le (symmetric : ∀ i j, s.w i j = s.w j i) (positive : 0 < residue s.w) :
    offDiagonal (s.rotate s.pivot.2.1 s.pivot.2.2).w ≤ 5 / 6 * offDiagonal s.w := by
  have most := offDiagonal_le_residue symmetric
  rw [offDiagonal_rotate symmetric (pivot_place positive).1.ne, residue_sq positive]
  linarith

/-- A search stops after as many rotations as it takes to bring the squares off the diagonal down to twice the square of
the threshold. -/
theorem iterate_stops {a : Matrix (Fin 4) (Fin 4) ℝ} (symmetric : aᵀ = a) {threshold : ℝ} (bound : 0 ≤ threshold)
    (rotations : ℕ) (carries : Carries a s)
    (enough : (5 / 6) ^ rotations * offDiagonal s.w ≤ 2 * threshold ^ 2) :
    (iterate threshold (rotations + 1) s).2 = true := by
  induction rotations generalizing s with
  | zero =>
    have small : s.pivot.1 ≤ threshold := by
      have least := two_mul_residue_sq_le (carries.symmetric symmetric)
      rw [pow_zero, one_mul] at enough
      rw [pivot_size]
      exact abs_le_of_sq_le_sq' (by linarith) bound |>.2
    rw [iterate]
    dsimp only
    rw [if_pos small]
  | succ rotations ih =>
    rw [iterate]
    dsimp only
    split
    next => rfl
    next large =>
      have positive : 0 < residue s.w := by
        rw [← pivot_size]
        exact bound.trans_lt (not_le.mp large)
      refine ih (rotate_carries symmetric carries (pivot_place positive).1.ne) ?_
      calc
        _ ≤ (5 / 6) ^ rotations * (5 / 6 * offDiagonal s.w) :=
          mul_le_mul_of_nonneg_left (offDiagonal_rotate_pivot_le (carries.symmetric symmetric) positive) (by positivity)
        _ = (5 / 6) ^ (rotations + 1) * offDiagonal s.w := by ring
        _ ≤ 2 * threshold ^ 2 := enough

/-- The default budget brings the squares far below the square of the default tolerance. -/
theorem default_contraction : (5 / 6 : ℝ) ^ 499 ≤ 2 * 1e-15 ^ 2 := by
  have hundred : (5 / 6 : ℝ) ^ 100 ≤ 2e-8 := by norm_num
  calc
    (5 / 6 : ℝ) ^ 499 ≤ (5 / 6) ^ (100 * 4) := pow_le_pow_of_le_one (by norm_num) (by norm_num) (by norm_num)
    _ = ((5 / 6) ^ 100) ^ 4 := pow_mul _ _ _
    _ ≤ 2e-8 ^ 4 := pow_le_pow_left₀ (by positivity) hundred 4
    _ ≤ 2 * 1e-15 ^ 2 := by norm_num

/-- On a symmetric matrix the search stops by its own condition within the default budget. -/
theorem default_stops {a : Real4 ℝ} (mirrored : ∀ i j, a i j = a j i) :
    (iterate ((Options.default : Options ℝ).tolerance * frobenius a) (Options.default : Options ℝ).budget (.start a)).2 =
      true := by
  set threshold := (Options.default : Options ℝ).tolerance * frobenius a with threshold_def
  have tolerance : (Options.default : Options ℝ).tolerance = 1e-15 := rfl
  have bound : 0 ≤ threshold := mul_nonneg default_tolerance_nonneg (Real.sqrt_nonneg _)
  refine iterate_stops (transpose_toReal mirrored) bound 499 (carries_start a) ?_
  calc
    (5 / 6) ^ 499 * offDiagonal a ≤ (5 / 6) ^ 499 * frobenius a ^ 2 :=
      mul_le_mul_of_nonneg_left (offDiagonal_le a) (by positivity)
    _ ≤ 2 * 1e-15 ^ 2 * frobenius a ^ 2 := mul_le_mul_of_nonneg_right default_contraction (sq_nonneg _)
    _ = 2 * threshold ^ 2 := by
      rw [threshold_def, tolerance]
      ring

/-- The frame that is found leaves entries off the diagonal within the tolerance. -/
theorem exists_default_eigen {a : Real4 ℝ} (mirrored : ∀ i j, a i j = a j i) :
    ∃ e, eigen a .default = .ok e ∧ e.vectors.toReal * e.vectors.toRealᵀ = 1 ∧
      ∀ i j, i ≠ j → |(e.vectors.toRealᵀ * a.toReal * e.vectors.toReal) i j| ≤ 1e-15 * ‖a.toReal‖ := by
  have stopped := default_stops mirrored
  have small := iterate_residue (Options.default : Options ℝ).budget stopped
  have carries := lastState_carries mirrored default_tolerance_nonneg
  have found : eigen a .default = .ok (sorted (lastState a .default)) :=
    (eigen_eq_ok_iff mirrored default_tolerance_nonneg).mpr ⟨small, rfl⟩
  refine ⟨_, found, (eigen_orthonormal default_tolerance_nonneg found).orthogonal, fun i j apart => ?_⟩
  rw [sorted_carries carries, ← frobenius_eq_norm]
  exact (abs_le_residue (carries.symmetric (transpose_toReal mirrored))
    ((sortedColumn_bijective _).injective.ne apart)).trans small

end Convergence

/-- On a symmetric matrix the search stops by its own condition within the default budget, so that it has a result. -/
theorem eigen_converges {a : Real4 ℝ} (mirrored : ∀ i j, a i j = a j i) :
    ∃ s : State ℝ,
      iterate ((Options.default : Options ℝ).tolerance * frobenius a) (Options.default : Options ℝ).budget (.start a) =
        (s, true) ∧
      (∀ i j, i ≠ j → |s.w i j| ≤ (Options.default : Options ℝ).tolerance * frobenius a) ∧
      eigen a .default = .ok (sorted s) := by
  have symmetric := transpose_toReal mirrored
  have stopped := default_stops mirrored
  set threshold := (Options.default : Options ℝ).tolerance * frobenius a
  have bound : 0 ≤ threshold := mul_nonneg default_tolerance_nonneg (Real.sqrt_nonneg _)
  have carries := iterate_carries symmetric bound 500 (carries_start a)
  have run : iterate threshold 500 (.start a) = ((iterate threshold 500 (.start a)).1, true) := Prod.ext rfl stopped
  refine ⟨(iterate threshold 500 (.start a)).1, run, fun i j apart => ?_, eigen_of_converged mirrored run⟩
  exact (abs_le_residue (carries.symmetric symmetric) apart).trans (iterate_residue 500 stopped)

/-- A symmetric matrix whose eigenvalues are of very different sizes. -/
def reciprocals : Real4 ℝ := Square.ofFn fun i j => 1 / (i + j + 1)

theorem eigen_converges_reciprocals :
    (∀ i j, reciprocals i j = reciprocals j i) ∧
      ∃ s : State ℝ, iterate (1e-15 * frobenius reciprocals) 500 (.start reciprocals) = (s, true) ∧
        (∀ i j, i ≠ j → |s.w i j| ≤ 1e-15 * frobenius reciprocals) ∧ eigen reciprocals .default = .ok (sorted s) := by
  have mirrored (i j : Fin 4) : reciprocals i j = reciprocals j i := by
    simp [reciprocals, add_comm]
  exact ⟨mirrored, eigen_converges mirrored⟩

end Entangle.Jacobi

end
