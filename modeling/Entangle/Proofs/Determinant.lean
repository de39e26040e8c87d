import Mathlib
import Entangle.Proofs.MatrixView

/-!
# Determinants by elimination

Elimination with the largest entry of each column as pivot computes the determinant, also of a
singular matrix. The invariant is about the corner of the matrix that is still to be eliminated:
what is left of the computation multiplies the accumulator by the determinant of that corner.
-/

noncomputable section

namespace Entangle.Mat4

open Matrix

/-! ## Pivots -/

/-- The fold of a search for the largest size keeps a size that belongs to its row and bounds all
that it has seen. -/
theorem foldl_largest_spec {β : Type} (size : β → ℝ) (rows : List β) (start : β) :
    let best := rows.foldl (fun best i => if best.2 < size i then (i, size i) else best)
      (start, size start)
    (best.1 = start ∨ best.1 ∈ rows) ∧ best.2 = size best.1 ∧ size start ≤ best.2 ∧
      ∀ i ∈ rows, size i ≤ best.2 := by
  induction rows generalizing start with
  | nil => simp
  | cons row rest ih =>
      simp only [List.foldl_cons]
      split
      next larger =>
        obtain ⟨place, value, bound, bounds⟩ := ih row
        refine ⟨?_, value, larger.le.trans bound, ?_⟩
        · rcases place with here | later
          · exact Or.inr (by rw [here]; exact List.mem_cons_self)
          · exact Or.inr (List.mem_cons_of_mem _ later)
        · intro i member
          rcases List.mem_cons.mp member with rfl | later
          · exact bound
          · exact bounds i later
      next smaller =>
        obtain ⟨place, value, bound, bounds⟩ := ih start
        refine ⟨?_, value, bound, ?_⟩
        · rcases place with here | later
          · exact Or.inl here
          · exact Or.inr (List.mem_cons_of_mem _ later)
        · intro i member
          rcases List.mem_cons.mp member with rfl | later
          · exact (not_lt.mp smaller).trans bound
          · exact bounds i later

/-- The pivot lies at or below the diagonal, and its size is the largest there. -/
theorem pivot_spec (w : Mat4 ℝ) (col : Fin 4) :
    col ≤ (pivot w col).1 ∧ (pivot w col).2 = ‖w.toMatrix (pivot w col).1 col‖ ∧
      ∀ i, col ≤ i → ‖w.toMatrix i col‖ ≤ (pivot w col).2 := by
  have spec := foldl_largest_spec (fun i => (w i col).abs)
    ((List.finRange 4).filter (col < ·)) col
  obtain ⟨place, value, bound, bounds⟩ := spec
  refine ⟨?_, value.trans (Cx.abs_eq _), ?_⟩
  · rcases place with here | later
    · exact here.ge
    · exact (decide_eq_true_iff.mp (List.mem_filter.mp later).2).le
  · intro i below
    rw [Square.toMatrix_apply, ← Cx.abs_eq]
    rcases below.eq_or_lt with rfl | strict
    · exact bound
    · exact bounds i (List.mem_filter.mpr ⟨List.mem_finRange i, by simpa using strict⟩)

/-! ## Row operations -/

theorem toMatrix_swapRows (w : Mat4 ℝ) (p q : Fin 4) :
    (swapRows w p q).toMatrix = w.toMatrix.submatrix (Equiv.swap p q) id := by
  ext i j
  simp only [swapRows, Square.toMatrix_apply, Square.get_ofFn, Matrix.submatrix_apply, id_eq,
    Equiv.swap_apply_def]
  split_ifs <;> rfl

theorem toMatrix_eliminate (w : Mat4 ℝ) (col i k : Fin 4) :
    (eliminate w col).toMatrix i k =
      if col < i ∧ col ≤ k then
        w.toMatrix i k - w.toMatrix i col / w.toMatrix col col * w.toMatrix col k
      else w.toMatrix i k := by
  simp only [eliminate, Square.toMatrix_apply, Square.get_ofFn]
  split
  next inside => simp [inside.1]
  next => rfl

/-! ## The corner that is left -/

/-- The matrix with its first `k` rows and columns replaced by those of the identity. -/
def corner (k : ℕ) (m : TwoQubit) : TwoQubit :=
  .of fun i j => if (i : ℕ) < k ∨ (j : ℕ) < k then (1 : TwoQubit) i j else m i j

theorem corner_zero (m : TwoQubit) : corner 0 m = m := by
  ext i j
  simp [corner]

theorem corner_four (m : TwoQubit) : corner 4 m = 1 := by
  ext i j
  simp [corner]

/-- Exchanging two rows of the corner reverses the sign of its determinant. -/
theorem det_corner_swap {col p : Fin 4} (m : TwoQubit) (below : col < p) :
    (corner col (m.submatrix (Equiv.swap p col) id)).det = -(corner col m).det := by
  have permuted : corner col (m.submatrix (Equiv.swap p col) id) =
      (corner col m).submatrix (Equiv.swap p col) id := by
    ext i j
    simp only [corner, Matrix.of_apply, Matrix.submatrix_apply, id_eq, Matrix.one_apply,
      Equiv.swap_apply_def]
    split_ifs <;> grind
  rw [permuted, Matrix.det_permute, Equiv.Perm.sign_swap below.ne']
  simp

/-- Subtracting multiples of the pivot row leaves the determinant of the corner. -/
theorem det_corner_eliminate (w : Mat4 ℝ) (col : Fin 4) :
    (corner col w.toMatrix).det = (corner col (eliminate w col).toMatrix).det := by
  apply Matrix.det_eq_of_forall_row_eq_smul_add_const
    (fun i => if col < i then w.toMatrix i col / w.toMatrix col col else 0) col (by simp)
  intro i j
  simp only [corner, Matrix.of_apply, toMatrix_eliminate, Matrix.one_apply]
  split_ifs <;> grind

/-- With its column cleared below the diagonal, a corner has the diagonal entry as a factor. -/
theorem det_corner_succ (m : TwoQubit) (col : Fin 4) (cleared : ∀ i, col < i → m i col = 0) :
    (corner col m).det = m col col * (corner (col + 1) m).det := by
  set rest := corner (col + 1) m with rest_def
  set tail : Fin 4 → ℂ := fun j => if col < j then m col j else 0 with tail_def
  have row : corner col m = rest.updateRow col (m col col • rest col + tail) := by
    ext i j
    by_cases here : i = col
    · subst here
      simp only [Matrix.updateRow_self, Pi.add_apply, Pi.smul_apply, smul_eq_mul, rest_def, tail_def,
        corner, Matrix.of_apply, Matrix.one_apply]
      split_ifs <;> grind
    · have off_diagonal : col < i → j = col → m i j = 0 := by
        rintro below rfl
        exact cleared i below
      rw [Matrix.updateRow_ne here]
      simp only [rest_def, corner, Matrix.of_apply, Matrix.one_apply]
      split_ifs <;> grind
  have tail_zero : (rest.updateRow col tail).det = 0 := by
    apply Matrix.det_eq_zero_of_column_eq_zero col
    intro i
    by_cases here : i = col
    · subst here
      simp [tail_def]
    · rw [Matrix.updateRow_ne here]
      simp [rest_def, corner, here]
  rw [row, Matrix.det_updateRow_add, Matrix.det_updateRow_smul, Matrix.updateRow_eq_self, tail_zero,
    add_zero]

/-- A corner without an entry of any size in its first column has determinant zero. -/
theorem det_corner_of_zero_column {col : Fin 4} {m : TwoQubit} (zero : ∀ i, col ≤ i → m i col = 0) :
    (corner col m).det = 0 := by
  apply Matrix.det_eq_zero_of_column_eq_zero col
  intro i
  have entry := zero i
  simp only [corner, Matrix.of_apply, Matrix.one_apply]
  split_ifs <;> grind

/-! ## The computation -/

/-- The computation over `columns` multiplies the accumulator by the determinant of the corner at `k`. -/
def ComputesCorner (k : ℕ) (columns : List (Fin 4)) : Prop :=
  ∀ (w : Mat4 ℝ) (acc : Cx ℝ), (detFrom columns w acc).toComplex = acc.toComplex * (corner k w.toMatrix).det

theorem computesCorner_nil : ComputesCorner 4 [] := by
  intro w acc
  rw [corner_four, Matrix.det_one, mul_one]
  rfl

section Columns

variable {col : Fin 4} {rest : List (Fin 4)}

/-- With the pivot in place, clearing its column leaves the next corner. -/
theorem ComputesCorner.eliminate (next : ComputesCorner (col + 1) rest) (w : Mat4 ℝ) (acc : Cx ℝ)
    (nonzero : w.toMatrix col col ≠ 0) :
    (detFrom rest (eliminate w col) (acc * w col col)).toComplex =
      acc.toComplex * (corner col w.toMatrix).det := by
  have cleared : ∀ i, col < i → (Mat4.eliminate w col).toMatrix i col = 0 := by
    intro i below
    rw [toMatrix_eliminate, if_pos ⟨below, le_refl col⟩, div_mul_cancel₀ _ nonzero, sub_self]
  have kept : (Mat4.eliminate w col).toMatrix col col = w.toMatrix col col := by
    rw [toMatrix_eliminate, if_neg (fun inside => lt_irrefl col inside.1)]
  rw [next, det_corner_eliminate, det_corner_succ _ col cleared, kept, Cx.toComplex_mul, mul_assoc]
  rfl

/-- One column more: it is zero, or its pivot is brought to the diagonal, with the sign of the exchange. -/
theorem ComputesCorner.cons (col : Fin 4) (next : ComputesCorner (col + 1) rest) : ComputesCorner col (col :: rest) := by
  intro w acc
  obtain ⟨below, size, largest⟩ := pivot_spec w col
  rw [detFrom]
  split
  next p s pivot_eq =>
    rw [pivot_eq] at below size largest
    dsimp only at below size largest
    split
    next zero =>
      have s_zero : s = 0 := by simpa using zero
      have column : ∀ i, col ≤ i → w.toMatrix i col = 0 := by
        intro i under
        have := largest i under
        rwa [s_zero, norm_le_zero_iff] at this
      rw [det_corner_of_zero_column column, mul_zero, Cx.toComplex_zero]
    next nonzero =>
      have pivot_ne : w.toMatrix p col ≠ 0 := by
        intro zero
        apply nonzero
        rw [size, zero, norm_zero]
        simp
      split
      next same =>
        subst same
        exact next.eliminate w acc pivot_ne
      next different =>
        have swapped := toMatrix_swapRows w p col
        have entry : (swapRows w p col).toMatrix col col = w.toMatrix p col := by
          rw [swapped]
          simp
        rw [next.eliminate _ _ (by rw [entry]; exact pivot_ne), swapped,
          det_corner_swap _ (lt_of_le_of_ne below (Ne.symm different)), Cx.toComplex_neg]
        ring

end Columns

/-- The computed determinant is the determinant. -/
theorem toComplex_det (m : Mat4 ℝ) : m.det.toComplex = m.toMatrix.det := by
  have all : ComputesCorner 0 [0, 1, 2, 3] := .cons 0 <| .cons 1 <| .cons 2 <| .cons 3 computesCorner_nil
  rw [det, all, Cx.toComplex_one, one_mul]
  exact congrArg Matrix.det (corner_zero _)

end Entangle.Mat4

namespace Entangle.Real4

theorem det_eq (m : Real4 ℝ) : m.det = m.toReal.det := by
  have complex := Mat4.toComplex_det m.complex
  rw [toMatrix_complex] at complex
  have mapped := RingHom.map_det Complex.ofRealHom m.toReal
  have same : (Mat4.det m.complex).toComplex = ((m.toReal.det : ℝ) : ℂ) := complex.trans mapped.symm
  exact congrArg Complex.re same

end Entangle.Real4

namespace Entangle

/-- Elimination computes the signed sum over all permutations of the rows, for every complex matrix and for every real
one, whichever pivots are found. -/
theorem det_leibniz :
    (∀ m : Mat4 ℝ, m.det.toComplex = ∑ σ : Equiv.Perm (Fin 4), Equiv.Perm.sign σ • ∏ j, (m.get (σ j) j).toComplex) ∧
      ∀ m : Real4 ℝ, m.det = ∑ σ : Equiv.Perm (Fin 4), Equiv.Perm.sign σ • ∏ j, m.get (σ j) j := by
  constructor
  · intro m
    rw [Mat4.toComplex_det, Matrix.det_apply]
    rfl
  · intro m
    rw [Real4.det_eq, Matrix.det_apply]
    rfl

end Entangle

end
