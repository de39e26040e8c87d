import Mathlib
import Entangle.Proofs.Diagonalisation

/-!
# Frames of eigenvectors

A plane rotation keeps the columns of a frame orthonormal, so that the frame of a symmetric eigenproblem is
orthogonal after any number of steps, converged or not, and the matrix that is left is the given one in this frame. The
rotation of a diagonalisation is therefore exactly orthogonal; only the diagonal that it leaves is approximate.
-/

noncomputable section

namespace Entangle

open Matrix

namespace Jacobi

/-! ## One step -/

/-- The columns of a frame are orthonormal. -/
def Orthonormal (q : Real4 ℝ) : Prop := q.toRealᵀ * q.toReal = 1

theorem Orthonormal.orthogonal {q : Real4 ℝ} (columns : Orthonormal q) : q.toReal * q.toRealᵀ = 1 :=
  mul_eq_one_comm.mp columns

theorem toReal_start (a : Real4 ℝ) : (State.start a).q.toReal = 1 := by
  ext i j
  simp [State.start, Matrix.one_apply]

theorem orthonormal_start (a : Real4 ℝ) : Orthonormal (State.start a).q := by
  rw [Orthonormal, toReal_start, Matrix.transpose_one, Matrix.mul_one]

/-- Cosine and sine of a step lie on the unit circle. -/
theorem angle_circle (app arr apr : ℝ) :
    (angle app arr apr).1 * (angle app arr apr).1 + (angle app arr apr).2 * (angle app arr apr).2 = 1 := by
  simp only [angle, Exact.one_eq, Exact.sqrt_eq]
  set t : ℝ := Scalar.copysign _ _
  have positive : 0 < t * t + 1 := add_pos_of_nonneg_of_pos (mul_self_nonneg t) one_pos
  set r := √(t * t + 1)
  have square : r * r = t * t + 1 := Real.mul_self_sqrt positive.le
  have nonzero : r ≠ 0 := (Real.sqrt_pos.mpr positive).ne'
  calc
    1 / r * (1 / r) + t * (1 / r) * (t * (1 / r)) = (t * t + 1) / (r * r) := by
      field_simp
      ring
    _ = 1 := by rw [square, div_self positive.ne']

section Plane

variable {p r : Fin 4} {c s : ℝ}

/-- Coordinates after a rotation in the plane of two axes. -/
def turn (p r : Fin 4) (c s : ℝ) (v : Fin 4 → ℝ) (j : Fin 4) : ℝ :=
  if j = r then s * v p + c * v r else if j = p then c * v p - s * v r else v j

/-- The rotation in the plane of two axes. -/
def plane (p r : Fin 4) (c s : ℝ) : Matrix (Fin 4) (Fin 4) ℝ :=
  Matrix.of fun k => turn p r c s (Pi.single k 1)

theorem sum_mul_plane (v : Fin 4 → ℝ) (j : Fin 4) : ∑ k, v k * plane p r c s k j = turn p r c s v j := by
  simp only [plane, Matrix.of_apply, turn, Pi.single_apply]
  split_ifs
  · simp [mul_add, Finset.sum_add_distrib, mul_comm]
  · simp [mul_sub, Finset.sum_sub_distrib, mul_comm]
  · simp

theorem toReal_rotateFrame (q : Real4 ℝ) : (rotateFrame q p r c s).toReal = q.toReal * plane p r c s := by
  ext i j
  rw [Matrix.mul_apply, sum_mul_plane]
  simp [rotateFrame, turn]

/-- A matrix in the rotated plane, entry by entry. -/
theorem plane_transpose_mul_mul (w : Matrix (Fin 4) (Fin 4) ℝ) (i j : Fin 4) :
    ((plane p r c s)ᵀ * w * plane p r c s) i j = turn p r c s (fun k => turn p r c s (fun l => w l k) i) j := by
  rw [Matrix.mul_apply, ← sum_mul_plane]
  refine Finset.sum_congr rfl fun k _ => ?_
  rw [Matrix.mul_apply, ← sum_mul_plane]
  simp only [Matrix.transpose_apply, mul_comm]

theorem plane_orthogonal (apart : p ≠ r) (circle : c * c + s * s = 1) : (plane p r c s)ᵀ * plane p r c s = 1 := by
  rw [← Matrix.mul_one (plane p r c s)ᵀ]
  ext i j
  rw [plane_transpose_mul_mul]
  rcases eq_or_ne i r with rfl | ir
  · rcases eq_or_ne j i with rfl | ji
    · simp [turn, apart, apart.symm]
      linear_combination circle
    rcases eq_or_ne j p with rfl | jp
    · simp [turn, apart, apart.symm]
      ring
    · simp [turn, ji, jp, ji.symm, jp.symm]
  rcases eq_or_ne i p with rfl | ip
  · rcases eq_or_ne j r with rfl | jr
    · simp [turn, apart, apart.symm]
      ring
    rcases eq_or_ne j i with rfl | ji
    · simp [turn, apart, apart.symm]
      linear_combination circle
    · simp [turn, ji, jr, ji.symm, jr.symm, apart]
  · rcases eq_or_ne j r with rfl | jr
    · simp [turn, ir, ip]
    rcases eq_or_ne j p with rfl | jp
    · simp [turn, ir, ip, jr]
    · simp [turn, ir, ip, jr, jp]

theorem rotateFrame_orthonormal {q : Real4 ℝ} (columns : Orthonormal q) (apart : p ≠ r) (circle : c * c + s * s = 1) :
    Orthonormal (rotateFrame q p r c s) := by
  rw [Orthonormal] at columns ⊢
  rw [toReal_rotateFrame, Matrix.transpose_mul, Matrix.mul_assoc, ← Matrix.mul_assoc q.toRealᵀ, columns, Matrix.one_mul,
    plane_orthogonal apart circle]

/-- Where the rotation clears an entry of a symmetric matrix, it gives the matrix in the rotated plane. -/
theorem toReal_rotateMatrix {w : Real4 ℝ} (symmetric : ∀ i j, w i j = w j i) (apart : p ≠ r)
    (clears : (c * c - s * s) * w p r + c * s * (w p p - w r r) = 0) :
    (rotateMatrix w p r c s).toReal = (plane p r c s)ᵀ * w.toReal * plane p r c s := by
  ext i j
  rw [plane_transpose_mul_mul]
  have across := symmetric r p
  rcases eq_or_ne i r with rfl | ir
  · rcases eq_or_ne j i with rfl | ji
    · simp [turn, rotateMatrix, apart.symm, across]
      ring
    rcases eq_or_ne j p with rfl | jp
    · simp [turn, rotateMatrix, apart, apart.symm, across]
      linear_combination -clears
    · simp [turn, rotateMatrix, ji, jp, apart.symm, symmetric j]
  rcases eq_or_ne i p with rfl | ip
  · rcases eq_or_ne j r with rfl | jr
    · simp [turn, rotateMatrix, apart, across]
      linear_combination -clears
    rcases eq_or_ne j i with rfl | ji
    · simp [turn, rotateMatrix, apart, across]
      ring
    · simp [turn, rotateMatrix, ji, jr, apart, symmetric j]
  · rcases eq_or_ne j r with rfl | jr
    · simp [turn, rotateMatrix, ir, ip]
    rcases eq_or_ne j p with rfl | jp
    · simp [turn, rotateMatrix, ir, ip, jr]
    · simp [turn, rotateMatrix, ir, ip, jr, jp]

end Plane

/-- The tangent of a step solves its quadratic equation. -/
theorem tangent_spec (theta : ℝ) :
    let t := Scalar.copysign (1 / (Scalar.abs theta + Scalar.hypot theta 1)) theta
    t * t + 2 * theta * t = 1 := by
  simp only [Exact.abs_eq, Exact.hypot_eq, Exact.copysign_eq]
  set h := √(theta ^ 2 + 1 ^ 2)
  have square : h * h = theta ^ 2 + 1 ^ 2 := Real.mul_self_sqrt (by positivity)
  have longer : |theta| < h := Real.lt_sqrt_of_sq_lt (by rw [sq_abs]; linarith)
  have positive : 0 < |theta| + h := add_pos_of_nonneg_of_pos (abs_nonneg _) ((abs_nonneg _).trans_lt longer)
  have inverse : 1 / (|theta| + h) = h - |theta| := by
    rw [div_eq_iff positive.ne']
    linear_combination sq_abs theta - square
  rw [inverse, abs_of_pos (sub_pos.mpr longer)]
  split
  next negative =>
    rw [abs_of_neg negative]
    linear_combination square
  next positive =>
    rw [abs_of_nonneg (not_lt.mp positive)]
    linear_combination square

/-- The angle of a step clears its entry. -/
theorem angle_clears {apr : ℝ} (nonzero : apr ≠ 0) (app arr : ℝ) :
    ((angle app arr apr).1 * (angle app arr apr).1 - (angle app arr apr).2 * (angle app arr apr).2) * apr +
      (angle app arr apr).1 * (angle app arr apr).2 * (app - arr) = 0 := by
  have tangent := tangent_spec ((arr - app) / (2 * apr))
  have difference : 2 * ((arr - app) / (2 * apr)) * apr = arr - app := by
    field_simp
  simp only [angle, Exact.one_eq, Exact.numeral_eq] at tangent difference ⊢
  set theta := (arr - app) / (2 * apr)
  set t : ℝ := Scalar.copysign _ theta
  set x : ℝ := 1 / Scalar.sqrt (t * t + 1)
  linear_combination (x * x * t) * difference - (x * x * apr) * tangent

/-- A step at a pivot off the diagonal keeps the frame orthonormal. -/
theorem rotate_orthonormal {s : State ℝ} {p r : Fin 4} (columns : Orthonormal s.q) (apart : p ≠ r) :
    Orthonormal (s.rotate p r).q := by
  unfold State.rotate
  dsimp only
  split
  · exact columns
  · exact rotateFrame_orthonormal columns apart (angle_circle _ _ _)

theorem isNegligible_iff (app arr apr : ℝ) : isNegligible app arr apr = true ↔ apr = 0 := by
  simp [isNegligible]

/-- Clearing an entry that is zero changes nothing. -/
theorem clear_eq_self {w : Real4 ℝ} (symmetric : ∀ i j, w i j = w j i) {p r : Fin 4} (zero : w p r = 0) :
    clear w p r = w := by
  apply Square.ext
  intro i j
  rw [clear, Square.get_ofFn]
  split
  next cleared =>
    rcases cleared with ⟨rfl, rfl⟩ | ⟨rfl, rfl⟩
    · rw [zero, Exact.zero_eq]
    · rw [symmetric, zero, Exact.zero_eq]
  next => rfl

/-- The matrix of a state is the given one in the frame of the state. -/
def Carries (a : Matrix (Fin 4) (Fin 4) ℝ) (s : State ℝ) : Prop := s.w.toReal = s.q.toRealᵀ * a * s.q.toReal

section Carries

variable {a : Matrix (Fin 4) (Fin 4) ℝ} {s : State ℝ}

theorem Carries.symmetric (symmetric : aᵀ = a) (carries : Carries a s) (i j : Fin 4) : s.w i j = s.w j i := by
  have same : s.w.toRealᵀ = s.w.toReal := by
    rw [carries, Matrix.transpose_mul, Matrix.transpose_mul, Matrix.transpose_transpose, symmetric, Matrix.mul_assoc]
  exact congrFun (congrFun same j) i

theorem carries_start (a : Real4 ℝ) : Carries a.toReal (State.start a) := by
  rw [Carries, toReal_start, Matrix.transpose_one, Matrix.one_mul, Matrix.mul_one]
  rfl

/-- A step rotates the matrix of a state together with its frame. -/
theorem rotate_carries (symmetric : aᵀ = a) (carries : Carries a s) {p r : Fin 4} (apart : p ≠ r) :
    Carries a (s.rotate p r) := by
  unfold State.rotate Carries
  dsimp only
  split
  next negligible =>
    rw [isNegligible_iff] at negligible
    rw [clear_eq_self (carries.symmetric symmetric) negligible]
    exact carries
  next large =>
    rw [isNegligible_iff] at large
    have clears := angle_clears large (s.w p p) (s.w r r)
    rw [toReal_rotateMatrix (carries.symmetric symmetric) apart clears, toReal_rotateFrame, carries, Matrix.transpose_mul]
    simp only [Matrix.mul_assoc]

end Carries

/-! ## The run -/

theorem mem_upper {i j : Fin 4} : (i, j) ∈ upper ↔ i < j := by
  revert i j
  decide

/-- A search for the largest value finds the maximum, at a place that has it. -/
theorem search_spec (size : Fin 4 × Fin 4 → ℝ) (places : List (Fin 4 × Fin 4)) (best : ℝ × Fin 4 × Fin 4) :
    let found := places.foldl (fun best place => if best.1 < size place then (size place, place) else best) best
    found.1 = places.foldl (fun worst place => max worst (size place)) best.1 ∧
      (found = best ∨ found.2 ∈ places ∧ found.1 = size found.2) := by
  induction places generalizing best with
  | nil => exact ⟨rfl, .inl rfl⟩
  | cons place rest ih =>
    simp only [List.foldl_cons]
    split
    next larger =>
      obtain ⟨value, origin⟩ := ih (size place, place)
      rw [max_eq_right larger.le]
      refine ⟨value, .inr ?_⟩
      rcases origin with here | ⟨later, own⟩
      · rw [here]
        exact ⟨List.mem_cons_self, rfl⟩
      · exact ⟨List.mem_cons_of_mem _ later, own⟩
    next smaller =>
      obtain ⟨value, origin⟩ := ih best
      rw [max_eq_left (not_lt.mp smaller)]
      refine ⟨value, origin.imp_right fun ⟨later, own⟩ => ⟨List.mem_cons_of_mem _ later, own⟩⟩

theorem foldl_max_le_iff {β : Type} (size : β → ℝ) (places : List β) (worst bound : ℝ) :
    places.foldl (fun worst place => max worst (size place)) worst ≤ bound ↔
      worst ≤ bound ∧ ∀ place ∈ places, size place ≤ bound := by
  induction places generalizing worst with
  | nil => simp
  | cons first rest ih =>
    rw [List.foldl_cons, ih, max_le_iff, List.forall_mem_cons, and_assoc]

theorem le_foldl_max {β : Type} (size : β → ℝ) (places : List β) (worst : ℝ) :
    worst ≤ places.foldl (fun worst place => max worst (size place)) worst ∧
      ∀ place ∈ places, size place ≤ places.foldl (fun worst place => max worst (size place)) worst :=
  (foldl_max_le_iff size places worst _).mp le_rfl

theorem residue_eq (w : Real4 ℝ) : residue w = upper.foldl (fun worst place => max worst |w place.1 place.2|) 0 := by
  rw [residue, Exact.zero_eq]
  congr 1
  funext worst place
  exact Exact.larger_eq _ _

theorem residue_nonneg (w : Real4 ℝ) : 0 ≤ residue w := by
  rw [residue_eq]
  exact (le_foldl_max _ upper 0).1

/-- No entry off the diagonal exceeds the residue. -/
theorem abs_le_residue {w : Real4 ℝ} (symmetric : ∀ i j, w i j = w j i) {i j : Fin 4} (apart : i ≠ j) :
    |w i j| ≤ residue w := by
  have upward {i j : Fin 4} (above : i < j) : |w i j| ≤ residue w := by
    rw [residue_eq]
    exact (le_foldl_max (fun place => |w place.1 place.2|) upper 0).2 (i, j) (mem_upper.mpr above)
  rcases lt_or_gt_of_ne apart with above | below
  · exact upward above
  · rw [symmetric]
    exact upward below

/-- The pivot is the largest entry off the diagonal. -/
theorem pivot_size (s : State ℝ) : s.pivot.1 = residue s.w := by
  rw [residue_eq, ← Exact.zero_eq]
  exact (search_spec (fun place => |s.w place.1 place.2|) upper (Scalar.ofNat 0, s.p, s.r)).1

theorem pivot_place {s : State ℝ} (positive : 0 < residue s.w) :
    s.pivot.2.1 < s.pivot.2.2 ∧ residue s.w = |s.w s.pivot.2.1 s.pivot.2.2| := by
  have origin := (search_spec (fun place => |s.w place.1 place.2|) upper (Scalar.ofNat 0, s.p, s.r)).2
  change s.pivot = (Scalar.ofNat 0, s.p, s.r) ∨ s.pivot.2 ∈ upper ∧ s.pivot.1 = _ at origin
  rw [← pivot_size] at positive ⊢
  rcases origin with start | ⟨place, own⟩
  · rw [start] at positive
    exact absurd positive (by simp)
  · exact ⟨mem_upper.mp place, own⟩

/-- A pivot that is not zero is off the diagonal. -/
theorem pivot_apart {s : State ℝ} (positive : 0 < s.pivot.1) : s.pivot.2.1 ≠ s.pivot.2.2 := by
  rw [pivot_size] at positive
  exact (pivot_place positive).1.ne

theorem iterate_orthonormal {threshold : ℝ} (bound : 0 ≤ threshold) (budget : ℕ) {s : State ℝ}
    (columns : Orthonormal s.q) : Orthonormal (iterate threshold budget s).1.q := by
  induction budget generalizing s with
  | zero => exact columns
  | succ budget ih =>
    rw [iterate]
    dsimp only
    split
    · exact columns
    · rename_i above
      exact ih (rotate_orthonormal columns (pivot_apart (bound.trans_lt (not_le.mp above))))

theorem iterate_carries {a : Matrix (Fin 4) (Fin 4) ℝ} (symmetric : aᵀ = a) {threshold : ℝ} (bound : 0 ≤ threshold)
    (budget : ℕ) {s : State ℝ} (carries : Carries a s) : Carries a (iterate threshold budget s).1 := by
  induction budget generalizing s with
  | zero => exact carries
  | succ budget ih =>
    rw [iterate]
    dsimp only
    split
    · exact carries
    · rename_i above
      exact ih (rotate_carries symmetric carries (pivot_apart (bound.trans_lt (not_le.mp above))))

/-- The size of a matrix that thresholds are relative to. -/
theorem frobenius_eq (a : Real4 ℝ) : frobenius a = √(∑ i, ∑ j, a i j ^ 2) := by
  have entries : a.toRows.flatten = [a 0 0, a 0 1, a 0 2, a 0 3, a 1 0, a 1 1, a 1 2, a 1 3, a 2 0, a 2 1, a 2 2, a 2 3,
      a 3 0, a 3 1, a 3 2, a 3 3] := by
    conv_lhs => rw [← Square.ofFn_get a]
    simp only [Square.toRows, Square.ofFn, Vector.toList_ofFn, List.ofFn_succ, List.ofFn_zero]
    rfl
  rw [frobenius, entries, Exact.zero_eq, Exact.sqrt_eq]
  congr 1
  simp only [List.foldl_cons, List.foldl_nil, Fin.sum_univ_four]
  ring

/-- The columns in the order of the diagonal. -/
def columnOrder (s : State ℝ) : List (Fin 4) := sortUp (fun i j => decide (s.w i i < s.w j j)) (List.finRange 4)

theorem columnOrder_perm (s : State ℝ) : (columnOrder s).Perm (List.finRange 4) := sortUp_perm _ _

theorem length_columnOrder (s : State ℝ) : (columnOrder s).length = 4 :=
  (columnOrder_perm s).length_eq.trans List.length_finRange

/-- The column that sorting puts at each place. -/
def sortedColumn (s : State ℝ) (k : Fin 4) : Fin 4 :=
  (sortUp (fun i j => decide (s.w i i < s.w j j)) (List.finRange 4)).toArray.getD k 0

theorem sortedColumn_eq_get (s : State ℝ) (k : Fin 4) :
    sortedColumn s k = (columnOrder s).get (k.cast (length_columnOrder s).symm) := by
  change (columnOrder s).toArray.getD k 0 = _
  simp [length_columnOrder]

theorem sortedColumn_bijective (s : State ℝ) : Function.Bijective (sortedColumn s) := by
  have distinct : (columnOrder s).Nodup := (columnOrder_perm s).nodup_iff.mpr (List.nodup_finRange 4)
  rw [← Finite.injective_iff_bijective]
  intro j k same
  rw [sortedColumn_eq_get, sortedColumn_eq_get] at same
  exact Fin.cast_injective _ (distinct.injective_get same)

theorem toReal_sorted (s : State ℝ) : (sorted s).vectors.toReal = s.q.toReal.submatrix id (sortedColumn s) := by
  ext i k
  simp [sorted, sortedColumn]

/-- The eigenvectors carry the matrix to the one of the state, in the order of its diagonal. -/
theorem sorted_carries {a : Matrix (Fin 4) (Fin 4) ℝ} {s : State ℝ} (carries : Carries a s) :
    (sorted s).vectors.toRealᵀ * a * (sorted s).vectors.toReal =
      s.w.toReal.submatrix (sortedColumn s) (sortedColumn s) := by
  have inner := Matrix.submatrix_mul s.q.toRealᵀ a (sortedColumn s) id id Function.bijective_id
  have outer := Matrix.submatrix_mul (s.q.toRealᵀ * a) s.q.toReal (sortedColumn s) id (sortedColumn s) Function.bijective_id
  rw [toReal_sorted, carries, outer, inner, Matrix.submatrix_id_id, Matrix.transpose_submatrix]

/-- What is found is read off the last state of the search. -/
theorem sorted_of_eigen_eq_ok {a : Real4 ℝ} {o : Options ℝ} {e : Eigen ℝ} (found : eigen a o = .ok e) :
    e = sorted (iterate (o.tolerance * frobenius a) o.budget (.start a)).1 := by
  have steps := Outcome.step_eq_ok.mp found
  split at steps
  · cases steps
  dsimp only at steps
  split at steps
  · cases steps
  split at steps
  · cases steps
  exact (Except.ok.inj steps).symm

/-- The eigenvectors that are found are orthonormal. -/
theorem eigen_orthonormal {a : Real4 ℝ} {o : Options ℝ} {e : Eigen ℝ} (tolerance : 0 ≤ o.tolerance)
    (found : eigen a o = .ok e) : Orthonormal e.vectors := by
  have bound : 0 ≤ o.tolerance * frobenius a := mul_nonneg tolerance (Real.sqrt_nonneg _)
  have columns := iterate_orthonormal bound o.budget (orthonormal_start a)
  rw [sorted_of_eigen_eq_ok found]
  set last := (iterate (o.tolerance * frobenius a) o.budget (State.start a)).1
  have product := Matrix.submatrix_mul last.q.toRealᵀ last.q.toReal (sortedColumn last) id (sortedColumn last)
    Function.bijective_id
  rw [columns] at product
  rw [Orthonormal, toReal_sorted, Matrix.transpose_submatrix, ← product]
  exact Matrix.submatrix_one_equiv (Equiv.ofBijective _ (sortedColumn_bijective last))

end Jacobi

namespace Weyl

open Complex (ofReal)

/-- A diagonalisation is read off an orthogonal frame, and reproduces the matrix within the tolerance. -/
theorem diagonalize_eq_ok {m : Mat4 ℝ} {d : Diagonalization ℝ} (found : diagonalize m = .ok d) :
    d = .ofRotation m d.rotation ∧ d.rotation.toReal * d.rotation.toRealᵀ = 1 ∧ d.matrix.isClose m 1e-13 = true := by
  unfold diagonalize at found
  split at found
  · rename_i d' searched
    obtain rfl := Except.ok.inj found
    obtain ⟨mixture, -, passed⟩ := List.exists_of_findSome?_eq_some searched
    unfold Diagonalization.ofMixture? at passed
    split at passed
    · cases passed
    · rename_i eigen solved
      dsimp only at passed
      split at passed
      · rename_i close
        obtain rfl := Option.some.inj passed
        exact ⟨rfl, (Jacobi.eigen_orthonormal Jacobi.default_tolerance_nonneg solved).orthogonal, close⟩
      · cases passed
  · cases found

/-- A rotation that leaves a diagonal gives the matrix back exactly. -/
theorem matrix_ofRotation {m : Mat4 ℝ} {q : Real4 ℝ} (orthogonal : q.toReal * q.toRealᵀ = 1) {values : Fin 4 → ℂ}
    (turned : (q.toReal.map ofReal)ᵀ * m.toMatrix * q.toReal.map ofReal = diagonal values) :
    (Diagonalization.ofRotation m q).matrix = m := by
  have frame := map_mul_transpose orthogonal
  have inside : (q.complex.transpose * m * q.complex).toMatrix = diagonal values := by
    rw [Mat4.toMatrix_mul, Mat4.toMatrix_mul, Square.toMatrix_transpose, Real4.toMatrix_complex, turned]
  have entries : (diagonal fun k => ((Diagonalization.ofRotation m q).values.get k).toComplex) = diagonal values := by
    congr 1
    funext k
    have entry := congrFun (congrFun inside k) k
    rw [Matrix.diagonal_apply_eq] at entry
    rw [← entry]
    simp [Diagonalization.ofRotation]
  apply Square.toMatrix_injective
  rw [Diagonalization.matrix, Mat4.toMatrix_mul, Mat4.toMatrix_mul, Square.toMatrix_transpose, Real4.toMatrix_complex,
    Square.toMatrix_diagonal]
  change q.toReal.map ofReal * (diagonal fun k => ((Diagonalization.ofRotation m q).values.get k).toComplex) *
    (q.toReal.map ofReal)ᵀ = _
  rw [entries, ← turned]
  calc
    _ = (q.toReal.map ofReal * (q.toReal.map ofReal)ᵀ) * m.toMatrix * (q.toReal.map ofReal * (q.toReal.map ofReal)ᵀ) := by
      simp only [Matrix.mul_assoc]
    _ = _ := by rw [frame, Matrix.one_mul, Matrix.mul_one]

end Weyl

end Entangle

end
