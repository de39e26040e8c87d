import Mathlib
import Entangle.Weyl.Diagonalize
import Entangle.Proofs.RotationProduct

/-!
# Exact diagonalisations

Putting the columns of a diagonalising rotation in another order, or reversing some of them, gives
another diagonalisation of the same matrix. Where the matrix is the square `uᵀu` of a unitary, phases
that are half of what the diagonal lacks turn `u` and the rotation into a rotation.
-/

noncomputable section

namespace Entangle

open Matrix Complex

/-! ## Sorting -/

namespace Jacobi

variable {β : Type} (below : β → β → Bool)

theorem insertDown_perm (x : β) (ys : List β) : (insertDown below x ys).Perm (x :: ys) := by
  induction ys with
  | nil => exact List.Perm.refl _
  | cons y rest ih =>
    rw [insertDown]
    split
    · exact (ih.cons y).trans (List.Perm.swap x y rest)
    · exact List.Perm.refl _

theorem sortUp_perm (xs : List β) : (sortUp below xs).Perm xs := by
  have inserted (sorted : List β) :
      (xs.foldl (fun sorted x => insertDown below x sorted) sorted).Perm (xs ++ sorted) := by
    induction xs generalizing sorted with
    | nil => exact List.Perm.refl _
    | cons x rest ih =>
      have head := (insertDown_perm below x sorted).append_left rest
      exact (ih _).trans (head.trans List.perm_middle)
  have all := inserted []
  rw [List.append_nil] at all
  exact (List.reverse_perm _).trans all

/-- A list that is in order stays as it is. -/
theorem sortUp_of_sorted {β : Type} {below : β → β → Bool} {xs : List β}
    (ascending : xs.Pairwise fun x y => below y x = false) : sortUp below xs = xs := by
  have inserted (sorted : List β) (above : ∀ x ∈ xs, ∀ y ∈ sorted, below x y = false) :
      xs.foldl (fun sorted x => insertDown below x sorted) sorted = xs.reverse ++ sorted := by
    induction xs generalizing sorted with
    | nil => rfl
    | cons x rest ih =>
      obtain ⟨first, ascending'⟩ := List.pairwise_cons.mp ascending
      have head : insertDown below x sorted = x :: sorted := by
        cases sorted with
        | nil => rfl
        | cons y others => simp [insertDown, above x List.mem_cons_self y List.mem_cons_self]
      have above' : ∀ z ∈ rest, ∀ y ∈ x :: sorted, below z y = false := by
        intro z later y member
        rcases List.mem_cons.mp member with rfl | old
        · exact first z later
        · exact above z (List.mem_cons_of_mem _ later) y old
      rw [List.foldl_cons, head, ih ascending' _ above', List.reverse_cons, List.append_assoc]
      rfl
  rw [sortUp, inserted [] (by simp), List.append_nil, List.reverse_reverse]

theorem insertDown_sorted {β : Type} {key : β → ℝ} (x : β) {ys : List β}
    (descending : ys.Pairwise fun y z => key z ≤ key y) :
    (insertDown (fun y z => decide (key y < key z)) x ys).Pairwise fun y z => key z ≤ key y := by
  induction ys with
  | nil => simp [insertDown]
  | cons y rest ih =>
    obtain ⟨first, descending'⟩ := List.pairwise_cons.mp descending
    rw [insertDown]
    split
    next smaller =>
      refine List.pairwise_cons.mpr ⟨fun z member => ?_, ih descending'⟩
      rcases List.mem_cons.mp ((insertDown_perm _ x rest).mem_iff.mp member) with rfl | old
      · exact (decide_eq_true_iff.mp smaller).le
      · exact first z old
    next larger =>
      have head : key y ≤ key x := not_lt.mp fun smaller => larger (decide_eq_true smaller)
      refine List.pairwise_cons.mpr ⟨fun z member => ?_, descending⟩
      rcases List.mem_cons.mp member with rfl | old
      · exact head
      · exact (first z old).trans head

/-- Sorting puts the keys in ascending order. -/
theorem sortUp_sorted {β : Type} (key : β → ℝ) (xs : List β) :
    (sortUp (fun x y => decide (key x < key y)) xs).Pairwise fun x y => key x ≤ key y := by
  have inserted (sorted : List β) (descending : sorted.Pairwise fun y z => key z ≤ key y) :
      (xs.foldl (fun sorted x => insertDown (fun x y => decide (key x < key y)) x sorted) sorted).Pairwise
        fun y z => key z ≤ key y := by
    induction xs generalizing sorted with
    | nil => exact descending
    | cons x rest ih => exact ih _ (insertDown_sorted x descending)
  exact List.pairwise_reverse.mpr (inserted [] List.Pairwise.nil)

theorem default_tolerance_nonneg : 0 ≤ (Options.default : Options ℝ).tolerance := by
  change (0 : ℝ) ≤ 1e-15
  norm_num

/-- A symmetric matrix passes the checks before the search. -/
theorem eigen_of_symmetric {a : Real4 ℝ} (mirrored : ∀ i j, a i j = a j i) {o : Options ℝ} (tolerance : 0 ≤ o.tolerance) :
    eigen a o = Outcome.step "EigenSym4" (
      let run := iterate (o.tolerance * frobenius a) o.budget (.start a)
      if !run.2 && decide (o.tolerance * frobenius a < residue run.1.w) then .error (.plain .eigenFailed)
      else .ok (sorted run.1)) := by
  have finite : a.all Scalar.isFinite = true := by
    rw [Square.all_iff]
    intro i j
    exact Exact.isFinite_eq _
  have symmetric : asymmetry? a (Scalar.larger (o.tolerance * frobenius a) (1e-12 * frobenius a)) = none := by
    have bound : 0 ≤ Scalar.larger (o.tolerance * frobenius a) (1e-12 * frobenius a) := by
      rw [Exact.larger_eq]
      exact le_max_of_le_left (mul_nonneg tolerance (Real.sqrt_nonneg _))
    rw [ asymmetry?, List.find?_eq_none]
    rintro ⟨i, j⟩ -
    dsimp only
    rw [mirrored i j, sub_self, Exact.abs_eq, abs_zero, decide_eq_true_iff]
    exact not_lt.mpr bound
  unfold eigen
  dsimp only
  rw [finite, symmetric]
  rfl

/-- Where the search converges, the eigenvectors are those of the state that it ends in. -/
theorem eigen_of_converged {a : Real4 ℝ} (mirrored : ∀ i j, a i j = a j i) {s : State ℝ}
    (converged : iterate ((Options.default : Options ℝ).tolerance * frobenius a) (Options.default : Options ℝ).budget
      (.start a) = (s, true)) : eigen a .default = .ok (sorted s) := by
  rw [eigen_of_symmetric mirrored default_tolerance_nonneg, converged]
  rfl

/-- A diagonal matrix needs no rotation. -/
theorem eigen_diagonal_eq (entry : Fin 4 → ℝ) :
    eigen (Square.diagonal 0 entry) .default = .ok (sorted (State.start (Square.diagonal 0 entry))) := by
  set a : Real4 ℝ := Square.diagonal 0 entry with diag
  have off {i j : Fin 4} (apart : i ≠ j) : a i j = 0 := by
    rw [diag, Square.get_diagonal, if_neg apart]
  have pivot : (State.start a).pivot = (0, 0, 0) := by
    simp [State.pivot, State.start, upper, off]
  refine eigen_of_converged (fun i j => ?_) ?_
  · rcases eq_or_ne i j with rfl | apart
    · rfl
    · rw [off apart, off apart.symm]
  · change iterate _ (499 + 1) (State.start a) = _
    rw [iterate, pivot]
    exact if_pos (mul_nonneg default_tolerance_nonneg (Real.sqrt_nonneg _))

/-- With its entries in order it is diagonal in the frame it comes in. -/
theorem eigen_diagonal {entry : Fin 4 → ℝ} (ascending : Monotone entry) :
    ∃ e : Eigen ℝ, eigen (Square.diagonal 0 entry) .default = .ok e ∧
      e.vectors = Square.diagonal 0 fun _ => 1 := by
  refine ⟨_, eigen_diagonal_eq entry, ?_⟩
  set a : Real4 ℝ := Square.diagonal 0 entry with diag
  have order : sortUp (fun i j => decide ((State.start a).w i i < (State.start a).w j j))
      (List.finRange 4) = List.finRange 4 := by
    refine sortUp_of_sorted ((List.pairwise_lt_finRange 4).imp fun {i j} before => ?_)
    simpa [State.start, diag] using ascending before.le
  have column : ∀ k : Fin 4, (List.finRange 4).toArray.getD k 0 = k := by decide
  apply Square.ext
  intro i k
  simp only [sorted]
  rw [order, Square.get_ofFn, column]
  simp [State.start]

end Jacobi

namespace Weyl

/-! ## Diagonalisations -/

/-- A real orthogonal matrix and the diagonal that it gives a symmetric matrix. -/
structure Diagonalizes (m : TwoQubit) (p : Matrix (Fin 4) (Fin 4) ℝ) (values : Fin 4 → ℂ) : Prop where
  orthogonal : p * pᵀ = 1
  product : p.map ofReal * diagonal values * (p.map ofReal)ᵀ = m

variable {m : TwoQubit} {p : Matrix (Fin 4) (Fin 4) ℝ} {values : Fin 4 → ℂ}

theorem Diagonalizes.reorder (given : Diagonalizes m p values) {column : Fin 4 → Fin 4}
    (bijective : Function.Bijective column) :
    Diagonalizes m (p.submatrix id column) (values ∘ column) := by
  set e := Equiv.ofBijective column bijective
  constructor
  · have product := Matrix.submatrix_mul_equiv p pᵀ id e id
    rw [given.orthogonal, Matrix.submatrix_id_id] at product
    exact product
  · have inner := Matrix.submatrix_mul_equiv (p.map ofReal) (diagonal values) id e e
    have outer := Matrix.submatrix_mul_equiv (p.map ofReal * diagonal values) (p.map ofReal)ᵀ id e id
    rw [given.product, Matrix.submatrix_id_id, ← inner, Matrix.submatrix_diagonal_equiv] at outer
    exact outer

theorem Diagonalizes.flip (given : Diagonalizes m p values) {sign : Fin 4 → ℝ}
    (unit : ∀ k, sign k * sign k = 1) : Diagonalizes m (p * diagonal sign) values := by
  have square : diagonal sign * (diagonal sign)ᵀ = 1 := by
    rw [Matrix.diagonal_transpose, Matrix.diagonal_mul_diagonal, funext unit, Matrix.diagonal_one]
  have image : (p * diagonal sign).map ofReal = p.map ofReal * diagonal fun k => (sign k : ℂ) := by
    ext i j
    simp
  have kept : (diagonal fun k => (sign k : ℂ)) * diagonal values * (diagonal fun k => (sign k : ℂ))ᵀ =
      diagonal values := by
    rw [Matrix.diagonal_transpose, Matrix.diagonal_mul_diagonal, Matrix.diagonal_mul_diagonal]
    congr 1
    funext k
    have unit' : (sign k : ℂ) * sign k = 1 := by exact_mod_cast unit k
    linear_combination values k * unit'
  constructor
  · calc
      _ = p * (diagonal sign * (diagonal sign)ᵀ) * pᵀ := by
        simp only [Matrix.transpose_mul, Matrix.mul_assoc]
      _ = 1 := by rw [square, Matrix.mul_one, given.orthogonal]
  · calc
      _ = p.map ofReal * ((diagonal fun k => (sign k : ℂ)) * diagonal values *
          (diagonal fun k => (sign k : ℂ))ᵀ) * (p.map ofReal)ᵀ := by
        simp only [image, Matrix.transpose_mul, Matrix.mul_assoc]
      _ = m := by rw [kept, given.product]

theorem Diagonalizes.diagonal_eq (given : Diagonalizes m p values) :
    diagonal values = (p.map ofReal)ᵀ * m * p.map ofReal := by
  have inverse : (p.map ofReal)ᵀ * p.map ofReal = 1 :=
    mul_eq_one_comm.mp (map_mul_transpose given.orthogonal)
  calc
    _ = (p.map ofReal)ᵀ * p.map ofReal * diagonal values * ((p.map ofReal)ᵀ * p.map ofReal) := by
      rw [inverse, Matrix.one_mul, Matrix.mul_one]
    _ = _ := by
      rw [← given.product]
      simp only [Matrix.mul_assoc]

/-- The values on the diagonal of a unitary matrix have modulus one. -/
theorem Diagonalizes.norm_values (given : Diagonalizes m p values) (unitary : m ∈ unitaryGroup (Fin 4) ℂ)
    (k : Fin 4) : ‖values k‖ = 1 := by
  have adjoint := transpose_map_ofReal p
  have frame := map_mem_unitary given.orthogonal
  have member : diagonal values ∈ unitaryGroup (Fin 4) ℂ := by
    rw [given.diagonal_eq, adjoint]
    exact mul_mem (mul_mem (Unitary.star_mem frame) unitary) frame
  rw [mem_unitaryGroup_iff, star_eq_conjTranspose, Matrix.diagonal_conjTranspose,
    Matrix.diagonal_mul_diagonal] at member
  have entry := congrFun (congrFun member k) k
  rw [Matrix.diagonal_apply_eq, Matrix.one_apply_eq, Pi.star_apply, Complex.star_def,
    Complex.mul_conj'] at entry
  have square : ‖values k‖ ^ 2 = 1 := by exact_mod_cast entry
  exact (pow_eq_one_iff_of_nonneg (norm_nonneg _) two_ne_zero).mp square

theorem Diagonalizes.prod_values (given : Diagonalizes m p values) : ∏ k, values k = m.det := by
  have square : (p.map ofReal).det * (p.map ofReal)ᵀ.det = 1 := by
    rw [← Matrix.det_mul, map_mul_transpose given.orthogonal, Matrix.det_one]
  rw [← given.product, Matrix.det_mul, Matrix.det_mul, Matrix.det_diagonal]
  linear_combination -(∏ k, values k) * square

/-- A complex matrix that is unitary and orthogonal is real. -/
theorem exists_real_of_orthogonal {w : TwoQubit} (unitary : w ∈ unitaryGroup (Fin 4) ℂ)
    (orthogonal : wᵀ * w = 1) :
    ∃ o : Matrix (Fin 4) (Fin 4) ℝ, o * oᵀ = 1 ∧ w = o.map ofReal := by
  have inverse : star w * w = 1 := mem_unitaryGroup_iff'.mp unitary
  have same : star w = wᵀ := by
    rw [← Matrix.mul_one (star w), ← mul_eq_one_comm.mp orthogonal, ← Matrix.mul_assoc, inverse,
      Matrix.one_mul]
  have real (i j : Fin 4) : ((w i j).re : ℂ) = w i j := by
    have entry := congrFun (congrFun same j) i
    exact Complex.conj_eq_iff_re.mp entry
  have image : w = (w.map re).map ofReal := by
    ext i j
    exact (real i j).symm
  refine ⟨w.map re, ?_, image⟩
  have product : w * wᵀ = 1 := mul_eq_one_comm.mp orthogonal
  ext i j
  have entry := congrFun (congrFun product i) j
  have cast : ((w.map re * (w.map re)ᵀ) i j : ℂ) = (w * wᵀ) i j := by
    rw [Matrix.mul_apply, Matrix.mul_apply, Complex.ofReal_sum]
    refine Finset.sum_congr rfl fun k _ => ?_
    simp [real]
  apply Complex.ofReal_injective
  rw [cast, entry, Matrix.one_apply, Matrix.one_apply, apply_ite ofReal, Complex.ofReal_one,
    Complex.ofReal_zero]

theorem diagonal_exp_mem_unitary (d : Fin 4 → ℝ) : (diagonal fun k => exp (d k * I)) ∈ unitaryGroup (Fin 4) ℂ := by
  rw [mem_unitaryGroup_iff, star_eq_conjTranspose, Matrix.diagonal_conjTranspose, Matrix.diagonal_mul_diagonal,
    ← Matrix.diagonal_one]
  congr 1
  funext k
  rw [Pi.star_apply, Complex.star_def, Complex.mul_conj', Complex.norm_exp_ofReal_mul_I]
  simp

/-- Phases that balance have determinant one. -/
theorem det_diagonal_exp {d : Fin 4 → ℝ} (balance : ∑ k, d k = 0) :
    (diagonal fun k => exp (d k * I) : TwoQubit).det = 1 := by
  rw [Matrix.det_diagonal, ← Complex.exp_sum, ← Finset.sum_mul, ← Complex.ofReal_sum, balance]
  simp

/-- The factor that the phases leave on the left is a proper rotation. -/
theorem exists_left_rotation {u : TwoQubit} (unitary : u ∈ unitaryGroup (Fin 4) ℂ) (special : u.det = 1)
    (given : Diagonalizes (uᵀ * u) p values) (proper : p.det = 1) {d : Fin 4 → ℝ} (balance : ∑ k, d k = 0)
    (halves : ∀ k, exp (d k * I) ^ 2 * values k = 1) :
    ∃ o : Matrix (Fin 4) (Fin 4) ℝ, o * oᵀ = 1 ∧ o.det = 1 ∧
      u * p.map ofReal * (diagonal fun k => exp (d k * I)) = o.map ofReal := by
  set e : TwoQubit := diagonal fun k => exp (d k * I)
  have phases : e ∈ unitaryGroup (Fin 4) ℂ := diagonal_exp_mem_unitary d
  have member : u * p.map ofReal * e ∈ unitaryGroup (Fin 4) ℂ :=
    mul_mem (mul_mem unitary (map_mem_unitary given.orthogonal)) phases
  have orthogonal : (u * p.map ofReal * e)ᵀ * (u * p.map ofReal * e) = 1 := by
    calc
      _ = e * ((p.map ofReal)ᵀ * (uᵀ * u) * p.map ofReal) * e := by
        simp only [e, Matrix.transpose_mul, Matrix.diagonal_transpose, Matrix.mul_assoc]
      _ = e * diagonal values * e := by rw [← given.diagonal_eq]
      _ = 1 := by
        rw [Matrix.diagonal_mul_diagonal, Matrix.diagonal_mul_diagonal, ← Matrix.diagonal_one]
        congr 1
        funext k
        linear_combination halves k
  obtain ⟨o, real, image⟩ := exists_real_of_orthogonal member orthogonal
  refine ⟨o, real, ?_, image⟩
  have determinant : (o.det : ℂ) = 1 := by
    rw [← det_map_ofReal, ← image, Matrix.det_mul, Matrix.det_mul, special, det_map_ofReal, proper,
      det_diagonal_exp balance]
    simp
  exact_mod_cast determinant

/-! ## Diagonal matrices -/

theorem isClose_self {n : ℕ} (a : Square n (Cx ℝ)) {atol : ℝ} (positive : 0 ≤ atol) : a.isClose a atol = true := by
  rw [Square.isClose, Square.all₂_iff]
  intro i j
  simp [Cx.isClose, positive]

/-- The frame of the standard axes. -/
def standardFrame : Real4 ℝ := Square.diagonal 0 fun _ => 1

theorem toReal_standardFrame : standardFrame.toReal = 1 := by
  ext i j
  simp [standardFrame, Matrix.one_apply]

theorem standardFrame_orthogonal : standardFrame.toReal * standardFrame.toRealᵀ = 1 := by
  rw [toReal_standardFrame, Matrix.transpose_one, Matrix.mul_one]

theorem toMatrix_standardFrame : standardFrame.complex.toMatrix = 1 := by
  rw [Real4.toMatrix_complex, toReal_standardFrame, Matrix.map_one _ Complex.ofReal_zero Complex.ofReal_one]

theorem ofRotation_standardFrame (m : Mat4 ℝ) :
    Diagonalization.ofRotation m standardFrame = ⟨standardFrame, Vector.ofFn fun k => m k k⟩ := by
  have turned : standardFrame.complex.transpose * m * standardFrame.complex = m := by
    apply Square.toMatrix_injective
    rw [Mat4.toMatrix_mul, Mat4.toMatrix_mul, Square.toMatrix_transpose, toMatrix_standardFrame, Matrix.transpose_one,
      Matrix.one_mul, Matrix.mul_one]
  simp only [Diagonalization.ofRotation, turned]

theorem matrix_ofRotation_diagonal (values : Fin 4 → Cx ℝ) :
    (Diagonalization.ofRotation (Square.diagonal 0 values) standardFrame).matrix = Square.diagonal 0 values := by
  apply Square.toMatrix_injective
  rw [ofRotation_standardFrame, Diagonalization.matrix, Mat4.toMatrix_mul, Mat4.toMatrix_mul, Square.toMatrix_transpose,
    toMatrix_standardFrame, Square.toMatrix_diagonal, Square.toMatrix_diagonal, Matrix.transpose_one, Matrix.one_mul,
    Matrix.mul_one]
  congr 1
  funext k
  simp

/-- The entry that the first mixture makes of a complex value. -/
def mixed (z : Cx ℝ) : ℝ := (firstMixture : Mixture ℝ).re * z.re + (firstMixture : Mixture ℝ).im * z.im

/-- Mixing the parts of a diagonal matrix mixes its entries. -/
theorem combine_diagonal (values : Fin 4 → Cx ℝ) :
    (Mat4.real (Square.diagonal 0 values)).combine (firstMixture : Mixture ℝ).re
      (Mat4.imag (Square.diagonal 0 values)) (firstMixture : Mixture ℝ).im =
        Square.diagonal 0 fun k => mixed (values k) := by
  apply Square.ext
  intro i j
  simp only [Real4.combine, Square.get_zipWith, Mat4.real, Mat4.imag, Square.get_map, Square.get_diagonal]
  have zero : (0 : Cx ℝ) = ⟨0, 0⟩ := Cx.ext Exact.zero_eq Exact.zero_eq
  split
  · rfl
  · rw [zero]
    simp

/-- A matrix is diagonalised by the eigenvectors of its first mixture, if they reproduce it. -/
theorem diagonalize_of_eigen {m : Mat4 ℝ} {e : Jacobi.Eigen ℝ}
    (found : Jacobi.eigen ((Mat4.real m).combine (firstMixture : Mixture ℝ).re (Mat4.imag m) (firstMixture : Mixture ℝ).im)
      .default = .ok e) (exact : (Diagonalization.ofRotation m e.vectors).matrix = m) :
    diagonalize m = .ok (Diagonalization.ofRotation m e.vectors) := by
  have first : Diagonalization.ofMixture? m firstMixture = some (Diagonalization.ofRotation m e.vectors) := by
    have close := isClose_self m (by norm_num : (0 : ℝ) ≤ 1e-13)
    unfold Diagonalization.ofMixture?
    rw [found]
    dsimp only
    rw [exact]
    exact if_pos close
  rw [diagonalize, mixtures, List.findSome?_cons, first]

/-- A diagonal matrix is diagonalised by the eigenvectors of its mixed entries, if they reproduce it. -/
theorem diagonalize_diagonal_of_eigen {values : Fin 4 → Cx ℝ} {e : Jacobi.Eigen ℝ}
    (found : Jacobi.eigen (Square.diagonal 0 fun k => mixed (values k)) .default = .ok e)
    (exact : (Diagonalization.ofRotation (Square.diagonal 0 values) e.vectors).matrix = Square.diagonal 0 values) :
    diagonalize (Square.diagonal 0 values) = .ok (Diagonalization.ofRotation (Square.diagonal 0 values) e.vectors) := by
  rw [← combine_diagonal] at found
  exact diagonalize_of_eigen found exact

/-- A diagonal matrix whose mixed entries are in order is diagonalised by the standard axes. -/
theorem diagonalize_diagonal {values : Fin 4 → Cx ℝ} (ascending : Monotone fun k => mixed (values k)) :
    diagonalize (Square.diagonal 0 values) =
      .ok (Diagonalization.ofRotation (Square.diagonal 0 values) standardFrame) := by
  obtain ⟨e, found, vectors⟩ := Jacobi.eigen_diagonal ascending
  rw [← standardFrame] at vectors
  rw [← vectors]
  apply diagonalize_diagonal_of_eigen found
  rw [vectors, matrix_ofRotation_diagonal]

theorem matrix_ofRotation_identity :
    (Diagonalization.ofRotation (Square.identity : Mat4 ℝ) standardFrame).matrix = Square.identity :=
  matrix_ofRotation_diagonal _

theorem diagonalize_identity :
    diagonalize (Square.identity : Mat4 ℝ) =
      .ok (Diagonalization.ofRotation Square.identity standardFrame) :=
  diagonalize_diagonal monotone_const

end Weyl

end Entangle

end
