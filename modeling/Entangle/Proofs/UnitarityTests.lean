import Mathlib
import Entangle.Matrix.Unitarity
import Entangle.Proofs.DoubleOrder

/-!
# Two tests of unitarity

Matrices from outside are checked entry by entry over their storage, with the largest deviation kept on the way; the
matrices of a fixed size are multiplied by their adjoint and compared with the identity. On doubles the two tests give
the same answer, whatever the entries are. A deviation that is no number may be hidden behind an infinite one, in the
larger part of an entry or in the largest of all entries, but an infinity is above every tolerance.
-/

namespace Entangle

open Binary64 (SameNumber)

/-- Both parts of a complex number within a tolerance of zero. -/
def Cx.Within (z : Cx Float) (atol : Float) : Prop := z.re.abs ≤ atol ∧ z.im.abs ≤ atol

namespace Dense

variable {m : Dense Float} {atol : Float}

/-! ## The largest deviation -/

theorem isNaN_of_deviation? {z : Cx Float} {dev : Float} (found : deviation? z = some dev) : dev.isNaN = false := by
  simp only [deviation?, Option.ite_none_left_eq_some, Option.some.injEq] at found
  obtain ⟨number, rfl⟩ := found
  rw [← Binary64.scalar_isNaN]
  exact Bool.eq_false_iff.mpr number

/-- The deviation of an entry is within a tolerance if both parts of the entry are. -/
theorem deviation?_le_iff (finite : atol.isFinite = true) (z : Cx Float) :
    (∃ dev, deviation? z = some dev ∧ dev ≤ atol) ↔ z.Within atol := by
  rw [Cx.Within, ← Binary64.larger_le_iff finite]
  simp only [deviation?, Option.ite_none_left_eq_some, Option.some.injEq]
  constructor
  · rintro ⟨_, ⟨-, rfl⟩, below⟩
    exact below
  · intro below
    refine ⟨_, ⟨?_, rfl⟩, below⟩
    rw [Binary64.scalar_isNaN]
    exact Bool.eq_false_iff.mp (Binary64.isNaN_of_le below).1

section Fold

variable {ι : Type} {measure : ι → Option Float} {places : List ι} {worst : Float}

/-- The largest of measured values is a number if each measured value is one. -/
theorem isNaN_of_foldlM_larger (numbers : ∀ i dev, measure i = some dev → dev.isNaN = false) (number : worst.isNaN = false)
    {result : Float} (found : places.foldlM (fun worst i => (measure i).map (Scalar.larger worst)) worst = some result) :
    result.isNaN = false := by
  induction places generalizing worst with
  | nil => exact Option.some.inj found ▸ number
  | cons i rest ih =>
    rw [List.foldlM_cons] at found
    obtain ⟨_, next, found⟩ := Option.bind_eq_some_iff.mp found
    obtain ⟨dev, measured, rfl⟩ := Option.map_eq_some_iff.mp next
    refine ih ?_ found
    rcases Binary64.larger_eq_or worst dev with same | same
    · rwa [same]
    · rw [same]
      exact numbers i dev measured

/-- The largest of measured values is within a finite tolerance if each value is measured and within it. -/
theorem foldlM_larger_le_iff (finite : atol.isFinite = true) :
    (∃ result, places.foldlM (fun worst i => (measure i).map (Scalar.larger worst)) worst = some result ∧ result ≤ atol) ↔
      worst ≤ atol ∧ ∀ i ∈ places, ∃ dev, measure i = some dev ∧ dev ≤ atol := by
  induction places generalizing worst with
  | nil => simp [pure]
  | cons i rest ih =>
    rw [List.foldlM_cons, List.forall_mem_cons]
    cases measured : measure i with
    | none => simp
    | some dev =>
      change (∃ result, rest.foldlM _ (Scalar.larger worst dev) = _ ∧ _) ↔ _
      rw [ih, Binary64.larger_le_iff finite]
      simp [and_assoc]

end Fold

/-- A matrix passes the check if every entry of what its product with the adjoint lacks of the identity is within the
tolerance. -/
theorem requireUnitary_iff_within {n : ℕ} (size : n = 2 ∨ n = 4) (rows : m.rows = n) (cols : m.cols = n)
    (finite : atol.isFinite = true) (nonneg : 0 ≤ atol) :
    requireUnitary (some m) atol = .ok () ↔ ∀ i j : Fin n, (m.defect n i j).Within atol := by
  have number : atol.isNaN = false := (Binary64.isFinite_iff.mp finite).1
  have tolerance : Scalar.isTolerance atol = true := by
    have above : ¬ atol < 0 := Binary64.not_lt_iff.mpr (.inr (.inr nonneg))
    rw [Scalar.isTolerance, Binary64.scalar_isFinite, finite, decide_eq_false above]
    rfl
  rw [requireUnitary_iff_worst size rows cols tolerance]
  have below : (∃ worst, m.worstDeviation? n = some worst ∧ ¬ atol < worst) ↔
      ∃ worst, m.worstDeviation? n = some worst ∧ worst ≤ atol := by
    refine exists_congr fun worst => and_congr_right fun found => ?_
    have number' : worst.isNaN = false :=
      isNaN_of_foldlM_larger (fun place dev => isNaN_of_deviation?) (by decide) found
    rw [Binary64.not_lt_iff, number, number']
    simp
  rw [below, worstDeviation?]
  refine (foldlM_larger_le_iff finite).trans ?_
  simp only [deviation?_le_iff finite, List.mem_flatMap, List.mem_map, List.mem_range]
  constructor
  · rintro ⟨-, within⟩ i j
    exact within (i, j) ⟨i, i.isLt, j, j.isLt, rfl⟩
  · intro within
    refine ⟨nonneg, ?_⟩
    rintro _ ⟨i, hi, j, hj, rfl⟩
    exact within ⟨i, hi⟩ ⟨j, hj⟩

/-! ## Comparison with the identity -/

/-- A product entry is close to that of the identity if a sum with the same parts, up to the sign of zeros, is within the
tolerance after the entry of the identity is taken away. -/
theorem isClose_identity_iff {z sum : Cx Float} (re : SameNumber sum.re z.re) (im : SameNumber sum.im z.im) (one : Prop)
    [Decidable one] : z.isClose (if one then 1 else 0) atol = true ↔ Cx.Within (if one then sum - 1 else sum) atol := by
  rw [Cx.isClose, Bool.and_eq_true, decide_eq_true_iff, decide_eq_true_iff, Cx.Within]
  split
  · change (z.re - 1).abs ≤ atol ∧ (z.im - 0).abs ≤ atol ↔ (sum.re - 1).abs ≤ atol ∧ (sum.im - 0).abs ≤ atol
    rw [(re.sub 1).abs, (im.sub 0).abs]
  · change (z.re - 0).abs ≤ atol ∧ (z.im - 0).abs ≤ atol ↔ _
    rw [Binary64.sub_zero_eq, Binary64.sub_zero_eq, re.abs, im.abs]

theorem isUnitary_mat2_iff {u : Mat2 Float} (shape : m.toMat2 = .ok u) :
    u.isUnitary atol = true ↔ ∀ i j : Fin 2, (m.defect 2 i j).Within atol := by
  obtain ⟨-, rfl⟩ := toMat2_eq_ok.mp shape
  rw [Mat2.isUnitary, Square.isClose, Square.all₂_iff]
  refine forall_congr' fun i => forall_congr' fun j => ?_
  rw [Square.get_identity, defect, Mat2.get_mul]
  simp only [Square.get_dagger, Square.get_ofFn, ← Fin.val_inj, List.range, List.range.loop, List.foldl_cons, List.foldl_nil]
  -- the sum over the storage starts with a zero, which the product of fixed size leaves out
  exact isClose_identity_iff ((SameNumber.zero_add rfl _).add _) ((SameNumber.zero_add rfl _).add _) _

theorem isUnitary_mat4_iff {u : Mat4 Float} (shape : m.toMat4 = .ok u) :
    u.isUnitary atol = true ↔ ∀ i j : Fin 4, (m.defect 4 i j).Within atol := by
  obtain ⟨-, rfl⟩ := toMat4_eq_ok.mp shape
  rw [Mat4.isUnitary, Square.isClose, Square.all₂_iff]
  refine forall_congr' fun i => forall_congr' fun j => ?_
  rw [Square.get_identity, defect, Mat4.get_mul]
  simp only [Square.get_dagger, Square.get_ofFn, ← Fin.val_inj, List.range, List.range.loop, List.foldl_cons, List.foldl_nil]
  exact isClose_identity_iff (.refl _) (.refl _) _

/-- A matrix of two or four rows passes the check on storage if and only if the matrix of fixed size that it converts to
is unitary within the same tolerance. -/
theorem requireUnitary_iff_isUnitary (m : Dense Float) {atol : Float} (finite : atol.isFinite = true) (nonneg : 0 ≤ atol) :
    (m.rows = 2 → m.cols = 2 →
      ∃ u, m.toMat2 = .ok u ∧ (requireUnitary (some m) atol = .ok () ↔ u.isUnitary atol = true)) ∧
    (m.rows = 4 → m.cols = 4 →
      ∃ u, m.toMat4 = .ok u ∧ (requireUnitary (some m) atol = .ok () ↔ u.isUnitary atol = true)) := by
  constructor
  · intro rows cols
    have shape := toMat2_eq_ok.mpr ⟨⟨rows, cols⟩, rfl⟩
    refine ⟨_, shape, ?_⟩
    rw [requireUnitary_iff_within (.inl rfl) rows cols finite nonneg, isUnitary_mat2_iff shape]
  · intro rows cols
    have shape := toMat4_eq_ok.mpr ⟨⟨rows, cols⟩, rfl⟩
    refine ⟨_, shape, ?_⟩
    rw [requireUnitary_iff_within (.inr rfl) rows cols finite nonneg, isUnitary_mat4_iff shape]

/-- A matrix whose product with its adjoint has an entry with an infinite part and one that is no number. -/
def shaded : Dense Float := ⟨2, 2, #[⟨Scalar.infinity, 0⟩, 0, 0, 1]⟩

/-- Where an infinite part hides one that is no number, both tests fail. -/
theorem requireUnitary_iff_isUnitary_shaded :
    (1e-9 : Float).isFinite = true ∧ (0 : Float) ≤ 1e-9 ∧
      (shaded.defect 2 0 0).re.isInf = true ∧ (shaded.defect 2 0 0).im.isNaN = true ∧
      ∃ u, shaded.toMat2 = .ok u ∧ (requireUnitary (some shaded) 1e-9 = .ok () ↔ u.isUnitary 1e-9 = true) ∧
        requireUnitary (some shaded) 1e-9 ≠ .ok () := by
  have finite : (1e-9 : Float).isFinite = true := by decide +kernel
  have nonneg : (0 : Float) ≤ 1e-9 := by decide +kernel
  have infinite : (shaded.defect 2 0 0).re.isInf = true := by decide +kernel
  have lost : (shaded.defect 2 0 0).im.isNaN = true := by decide +kernel
  obtain ⟨u, shape, same⟩ := (requireUnitary_iff_isUnitary shaded finite nonneg).1 rfl rfl
  refine ⟨finite, nonneg, infinite, lost, u, shape, same, fun passed => ?_⟩
  have within := (requireUnitary_iff_within (.inl rfl) rfl rfl finite nonneg).mp passed 0 0
  have number := (Binary64.isNaN_of_le within.2).1
  rw [Binary64.isNaN_abs] at number
  exact Bool.eq_false_iff.mp number lost

end Dense

end Entangle
