import Mathlib
import Entangle.Random.Unitary
import Entangle.Proofs.MatrixView

/-!
# Orthonormal columns

As vectors over the complex numbers, the columns that are done are the first vectors of the orthonormal sequence of all
columns: projecting a column against them once leaves what is orthogonal to the columns before it, projecting it again
changes nothing, and its length is not zero where the columns are independent. So the matrix of the columns is unitary,
and the factor that is left on the right is upper triangular with positive numbers on its diagonal.
-/

noncomputable section

namespace Entangle.Orthonormal

open Matrix InnerProductSpace
open scoped ComplexInnerProductSpace

/-- The space of the columns. -/
abbrev Space := EuclideanSpace ℂ (Fin 4)

def vector (v : Column ℝ) : Space := WithLp.toLp 2 fun i => (v.get i).toComplex

/-- The columns of a matrix as vectors. -/
def vectors (m : Mat4 ℝ) (j : Fin 4) : Space := WithLp.toLp 2 (m.toMatrix.col j)

variable {u v : Column ℝ} {m : Mat4 ℝ}

theorem vector_column (m : Mat4 ℝ) (j : Fin 4) : vector (column m j) = vectors m j := by
  ext i
  simp [vector, vectors, column]

theorem toComplex_inner (u v : Column ℝ) : (inner u v).toComplex = ⟪vector u, vector v⟫ := by
  have terms : List.finRange 4 = [0, 1, 2, 3] := rfl
  rw [PiLp.inner_apply, Fin.sum_univ_four, inner, terms]
  simp [vector, mul_comm]

theorem vector_project (v u : Column ℝ) : vector (project v u) = vector v - ⟪vector u, vector v⟫ • vector u := by
  ext i
  simp [vector, project, toComplex_inner]

theorem norm_eq (v : Column ℝ) : norm v = ‖vector v‖ := by
  have terms : List.finRange 4 = [0, 1, 2, 3] := rfl
  rw [EuclideanSpace.norm_eq, Fin.sum_univ_four, norm, terms]
  simp [vector, Complex.sq_norm, Complex.normSq_apply]

theorem vector_normalize (v : Column ℝ) : vector (normalize v) = (‖vector v‖ : ℂ)⁻¹ • vector v := by
  ext i
  simp [vector, normalize, norm_eq, div_eq_inv_mul]

/-! ## Projections -/

/-- Projecting against columns at right angles takes away the components along all of them. -/
theorem vector_projectAll {done : List (Column ℝ)} (apart : done.Pairwise fun u w => ⟪vector u, vector w⟫ = 0)
    (v : Column ℝ) :
    vector (projectAll done v) = vector v - (done.map fun u => ⟪vector u, vector v⟫ • vector u).sum := by
  induction done generalizing v with
  | nil => simp [projectAll]
  | cons u done ih =>
    rw [List.pairwise_cons] at apart
    have kept : ∀ w ∈ done, ⟪vector w, vector (project v u)⟫ = ⟪vector w, vector v⟫ := by
      intro w member
      rw [vector_project, inner_sub_right, inner_smul_right, inner_eq_zero_symm.mp (apart.1 w member), mul_zero, sub_zero]
    have same : (done.map fun w => ⟪vector w, vector (project v u)⟫ • vector w) =
        done.map fun w => ⟪vector w, vector v⟫ • vector w := List.map_congr_left fun w member => by rw [kept w member]
    change vector (projectAll done (project v u)) = _
    rw [ih apart.2, same, vector_project, List.map_cons, List.sum_cons, sub_sub]

/-- The orthonormal sequence of the columns of a matrix. -/
abbrev sequence (m : Mat4 ℝ) : Fin 4 → Space := gramSchmidtNormed ℂ (vectors m)

theorem sequence_eq (m : Mat4 ℝ) (i : Fin 4) :
    sequence m i = (‖gramSchmidt ℂ (vectors m) i‖ : ℂ)⁻¹ • gramSchmidt ℂ (vectors m) i := rfl

theorem sequence_apart (m : Mat4 ℝ) {i j : Fin 4} (other : i ≠ j) : ⟪sequence m i, gramSchmidt ℂ (vectors m) j⟫ = 0 := by
  rw [sequence_eq, inner_smul_left, gramSchmidt_orthogonal ℂ _ other, mul_zero]

/-- The component along a vector of the sequence. -/
theorem component_sequence (m : Mat4 ℝ) (i : Fin 4) (w : Space) :
    ⟪sequence m i, w⟫ • sequence m i = (ℂ ∙ gramSchmidt ℂ (vectors m) i).starProjection w := by
  rw [Submodule.starProjection_singleton, sequence_eq, inner_smul_left, smul_smul]
  congr 1
  simp
  ring

/-- The columns that are done are the first of the sequence. -/
def Leading (m : Mat4 ℝ) (count : ℕ) (done : List (Column ℝ)) : Prop :=
  done.map vector = ((List.finRange 4).take count).map (sequence m)

theorem Leading.apart {count : ℕ} {done : List (Column ℝ)} (leading : Leading m count done) :
    done.Pairwise fun u w => ⟪vector u, vector w⟫ = 0 := by
  have distinct : ((List.finRange 4).take count).Pairwise (· ≠ ·) := ((List.nodup_finRange 4).sublist (List.take_sublist _ _))
  have each : (((List.finRange 4).take count).map (sequence m)).Pairwise fun x y => ⟪x, y⟫ = 0 := by
    refine List.pairwise_map.mpr (distinct.imp fun other => ?_)
    rw [sequence_eq m _, inner_smul_left, sequence_eq, inner_smul_right, gramSchmidt_orthogonal ℂ _ other, mul_zero, mul_zero]
  rw [← leading] at each
  exact List.pairwise_map.mp each

theorem take_toFinset (k : Fin 4) : ((List.finRange 4).take k).toFinset = Finset.Iio k := by
  revert k
  decide

theorem take_succ (k : Fin 4) : (List.finRange 4).take (k + 1) = (List.finRange 4).take k ++ [k] := by
  revert k
  decide

/-- What is left of a vector after the columns that are done. -/
theorem Leading.vector_projectAll {k : Fin 4} {done : List (Column ℝ)} (leading : Leading m k done) (v : Column ℝ) :
    vector (projectAll done v) = vector v - ∑ i ∈ Finset.Iio k, ⟪sequence m i, vector v⟫ • sequence m i := by
  have distinct : ((List.finRange 4).take k).Nodup := (List.nodup_finRange 4).sublist (List.take_sublist _ _)
  have sums : (done.map fun u => ⟪vector u, vector v⟫ • vector u) =
      ((List.finRange 4).take k).map fun i => ⟪sequence m i, vector v⟫ • sequence m i := by
    have := congrArg (List.map fun x => ⟪x, vector v⟫ • x) leading
    simpa only [List.map_map, Function.comp_def] using this
  rw [Orthonormal.vector_projectAll leading.apart, sums, ← take_toFinset, List.sum_toFinset _ distinct]

/-- The second projection changes nothing, and the column that comes next is the next of the sequence. -/
theorem Leading.extend {k : Fin 4} {done : List (Column ℝ)} (leading : Leading m k done) :
    Leading m (k + 1) (extend done (column m k)) := by
  have once : vector (projectAll done (column m k)) = gramSchmidt ℂ (vectors m) k := by
    rw [leading.vector_projectAll, vector_column, gramSchmidt_def]
    simp only [component_sequence]
  have twice : vector (projectAll done (projectAll done (column m k))) = gramSchmidt ℂ (vectors m) k := by
    have none : ∀ i ∈ Finset.Iio k, ⟪sequence m i, gramSchmidt ℂ (vectors m) k⟫ • sequence m i = 0 := fun i before => by
      rw [sequence_apart m (Finset.mem_Iio.mp before).ne, zero_smul]
    rw [leading.vector_projectAll, once, Finset.sum_eq_zero none, sub_zero]
  rw [Leading, Orthonormal.extend, List.map_append, leading, take_succ, List.map_append, List.map_singleton, List.map_singleton,
    vector_normalize, twice]
  rfl

/-! ## The matrix of the columns -/

theorem leading_columns (m : Mat4 ℝ) {count : ℕ} (most : count ≤ 4) :
    Leading m count ((((List.finRange 4).take count).map (column m)).foldl extend []) := by
  induction count with
  | zero => rfl
  | succ count ih =>
    have leading := ih (by omega)
    have next := take_succ ⟨count, most⟩
    rw [next, List.map_append, List.foldl_append]
    exact @Leading.extend m ⟨count, most⟩ _ leading

theorem vectors_orthonormalize (m : Mat4 ℝ) (j : Fin 4) : vectors (orthonormalize m) j = sequence m j := by
  have all : (columns m).map vector = (List.finRange 4).map (sequence m) := leading_columns m le_rfl
  have length : (columns m).length = 4 := by
    rw [← List.length_map vector, all, List.length_map, List.length_finRange]
  have place : (j : ℕ) < (columns m).length := by
    rw [length]
    exact j.isLt
  have stored : ((columns m).map vector)[(j : ℕ)]? = some (vectors (orthonormalize m) j) := by
    rw [List.getElem?_map, List.getElem?_eq_getElem place, Option.map_some, Option.some_inj]
    ext i
    simp [vectors, vector, orthonormalize, place]
  rw [all, List.getElem?_map] at stored
  simpa using stored.symm

/-- The entries of an adjoint times a matrix. -/
theorem conjTranspose_mul_apply (a b : Mat4 ℝ) (i j : Fin 4) :
    (a.toMatrixᴴ * b.toMatrix) i j = ⟪vectors a i, vectors b j⟫ := by
  rw [vectors, vectors, EuclideanSpace.inner_toLp_toLp, Matrix.mul_apply, dotProduct]
  simp [mul_comm]

theorem linearIndependent_vectors (independent : LinearIndependent ℂ m.toMatrix.col) : LinearIndependent ℂ (vectors m) :=
  independent.map' (WithLp.linearEquiv 2 ℂ (Fin 4 → ℂ)).symm.toLinearMap (LinearEquiv.ker _)

/-- Along its own vector of the sequence a column is as long as what is left of it. -/
theorem inner_sequence_self (m : Mat4 ℝ) (j : Fin 4) : ⟪sequence m j, vectors m j⟫ = ‖gramSchmidt ℂ (vectors m) j‖ := by
  have others : ∀ i ∈ Finset.Iio j, ∀ c : ℂ, ⟪sequence m j, c • gramSchmidt ℂ (vectors m) i⟫ = 0 := fun i before c => by
    rw [inner_smul_right, sequence_apart m (Finset.mem_Iio.mp before).ne', mul_zero]
  have split := congrArg (⟪sequence m j, ·⟫) (gramSchmidt_def'' ℂ (vectors m) j)
  rw [inner_add_right, inner_sum, Finset.sum_eq_zero fun i before => others i before _, add_zero] at split
  rw [split, sequence_eq, inner_smul_left, inner_self_eq_norm_sq_to_K]
  rcases eq_or_ne (‖gramSchmidt ℂ (vectors m) j‖) 0 with none | some
  · simp [none]
  · have : (‖gramSchmidt ℂ (vectors m) j‖ : ℂ) ≠ 0 := by exact_mod_cast some
    simp [pow_two, this]

end Entangle.Orthonormal

namespace Entangle.Random

open Matrix
open Entangle.Orthonormal (conjTranspose_mul_apply inner_sequence_self linearIndependent_vectors sequence_eq
  vectors_orthonormalize)

/-- Sixteen entries whose columns are independent make a unitary, and its adjoint times their matrix is upper triangular
with positive numbers on the diagonal. -/
theorem orthonormal4_factors (entries : List (Cx ℝ))
    (independent : LinearIndependent ℂ (ofEntries entries).toMatrix.col) :
    (orthonormal4 entries).toMatrixᴴ * (orthonormal4 entries).toMatrix = 1 ∧
      ((orthonormal4 entries).toMatrixᴴ * (ofEntries entries).toMatrix).BlockTriangular id ∧
      ∀ j, ∃ length : ℝ, 0 < length ∧ ((orthonormal4 entries).toMatrixᴴ * (ofEntries entries).toMatrix) j j = length := by
  have independent := linearIndependent_vectors independent
  refine ⟨?_, fun i j below => ?_, fun j => ?_⟩
  · ext i j
    rw [conjTranspose_mul_apply, orthonormal4, vectors_orthonormalize, vectors_orthonormalize,
      orthonormal_iff_ite.mp (InnerProductSpace.gramSchmidtNormed_orthonormal independent), Matrix.one_apply]
  · rw [conjTranspose_mul_apply, orthonormal4, vectors_orthonormalize, sequence_eq, inner_smul_left,
      InnerProductSpace.gramSchmidt_inv_triangular ℂ _ (show j < i from below), mul_zero]
  · refine ⟨_, norm_pos_iff.mpr (InnerProductSpace.gramSchmidt_ne_zero j independent), ?_⟩
    rw [conjTranspose_mul_apply, orthonormal4, vectors_orthonormalize, inner_sequence_self]

/-- The entries of a matrix with slanting columns. -/
def slanted : List (Cx ℝ) := [1, 0, 0, 0, Cx.i, 1, 0, 0, 0, 2, 1, 0, 3, 0, Cx.i, 1]

theorem toMatrix_slanted : (ofEntries slanted).toMatrix =
    !![1, 0, 0, 0; Complex.I, 1, 0, 0; 0, 2, 1, 0; 3, 0, Complex.I, 1] := by
  have two : (2 : Cx ℝ).toComplex = 2 := Cx.toComplex_ofNat 2
  have three : (3 : Cx ℝ).toComplex = 3 := Cx.toComplex_ofNat 3
  ext i j
  fin_cases i <;> fin_cases j <;> simp [ofEntries, slanted, two, three]

theorem orthonormal4_factors_slanted : LinearIndependent ℂ (ofEntries slanted).toMatrix.col ∧
    (orthonormal4 slanted).toMatrixᴴ * (orthonormal4 slanted).toMatrix = 1 ∧
    ((orthonormal4 slanted).toMatrixᴴ * (ofEntries slanted).toMatrix).BlockTriangular id := by
  have independent : LinearIndependent ℂ (ofEntries slanted).toMatrix.col := by
    rw [Matrix.linearIndependent_cols_iff_isUnit, Matrix.isUnit_iff_isUnit_det, toMatrix_slanted]
    simp [Matrix.det_succ_row_zero, Fin.sum_univ_succ]
  obtain ⟨unitary, triangular, -⟩ := orthonormal4_factors slanted independent
  exact ⟨independent, unitary, triangular⟩

end Entangle.Random

end
