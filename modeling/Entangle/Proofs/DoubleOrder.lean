import Mathlib
import Entangle.Proofs.DoubleFormat

/-!
# The order of doubles

Doubles are compared by sign, exponent and significand, so the order of those that are numbers is the one of a rank in a
linear order. It follows that the larger of two doubles is below a finite bound if and only if both are, although an
infinity wins over a value that is no number. Subtracting zero changes nothing, and adding zero nothing but the sign of
a zero.
-/

namespace Entangle.Binary64

open Float.Model (UnpackedFloat)
open Float.Model.Format (binary64)
open Float.Model.UnpackedFloat

variable {x y z t : Float} {f g : UnpackedFloat}

/-! ## Ranks -/

/-- The place of a value in the order: the kind of its magnitude with the sign, then its exponent and significand, which
count downwards below zero. -/
def rank : UnpackedFloat → ℤ ×ₗ ℤ ×ₗ ℤ
  | .notANumber => toLex (0, toLex (0, 0))
  | .infinity .negative => toLex (-2, toLex (0, 0))
  | .infinity .positive => toLex (2, toLex (0, 0))
  | .zero _ => toLex (0, toLex (0, 0))
  | .finite .negative m e _ => toLex (-1, toLex (-e, -(m : ℤ)))
  | .finite .positive m e _ => toLex (1, toLex (e, (m : ℤ)))

/-- Among numbers the order is that of the ranks. -/
theorem compare_eq_lt_iff (number : f.isNaN = false) (number' : g.isNaN = false) :
    f.compare g = some .lt ↔ rank f < rank g := by
  have sizes (m n : ℕ) (e k : ℤ) : (compare e k).then (compare m n) = .lt ↔ e < k ∨ e = k ∧ m < n := by
    rw [Ordering.then_eq_lt, compare_lt_iff_lt, compare_eq_iff_eq, compare_lt_iff_lt]
  have sizes' (m n : ℕ) (e k : ℤ) : ((compare e k).then (compare m n)).swap = .lt ↔ k < e ∨ e = k ∧ n < m := by
    rw [eq_comm (a := e), ← sizes, Ordering.swap_then, ← Std.OrientedCmp.eq_swap, ← Std.OrientedCmp.eq_swap]
  have signs : compare Sign.negative Sign.positive = .lt := rfl
  -- values of different kinds are told apart by the first number of their ranks
  rcases f with (_ | _) | _ | _ | ⟨_ | _, m, e, positive⟩ <;>
    rcases g with (_ | _) | _ | _ | ⟨_ | _, n, k, positive'⟩ <;>
    simp [UnpackedFloat.compare, UnpackedFloat.isNaN, rank, Prod.Lex.lt_iff, sizes, sizes', signs] at number number' ⊢

theorem le_iff_rank : x ≤ y ↔ x.isNaN = false ∧ y.isNaN = false ∧ rank (view x) ≤ rank (view y) := by
  constructor
  · intro below
    obtain ⟨number, number'⟩ := isNaN_of_le below
    refine ⟨number, number', not_lt.mp fun above => ?_⟩
    have found := (compare_eq_lt_iff (isNaN_view y ▸ number') (isNaN_view x ▸ number)).mpr above
    rw [le_iff, compare_swap (view y) (view x), found] at below
    simp at below
  · rintro ⟨number, number', ranks⟩
    have notAbove : ¬ y < x := fun above => by
      rw [lt_iff, compare_eq_lt_iff (isNaN_view y ▸ number') (isNaN_view x ▸ number)] at above
      exact absurd ranks (not_le.mpr above)
    rcases not_lt_iff.mp notAbove with lost | lost | below
    · rw [lost] at number'
      cases number'
    · rw [lost] at number
      cases number
    · exact below

theorem below_trans (first : x ≤ y) (second : y ≤ z) : x ≤ z := by
  rw [le_iff_rank] at first second ⊢
  exact ⟨first.1, second.2.1, first.2.2.trans second.2.2⟩

theorem below_of_lt (below : x < y) : x ≤ y := le_iff.mpr (.inl (lt_iff.mp below))

/-! ## The larger of two -/

/-- Nothing infinite and positive is below a finite bound. -/
theorem not_le_of_isInf (infinite : x.isInf = true) (positive : 0 < x) (finite : t.isFinite = true) : ¬ x ≤ t := by
  intro below
  rw [isInf_view] at infinite
  rw [lt_iff, view_zero] at positive
  rw [isFinite_view] at finite
  rw [le_iff] at below
  revert infinite positive below finite
  cases view x with
  | infinity s =>
    cases s with
    | negative => simp [UnpackedFloat.compare]
    | positive => cases view t <;> simp [UnpackedFloat.compare, UnpackedFloat.isFinite]
  | _ => simp [UnpackedFloat.isInf]

theorem scalar_isInf (x : Float) : Scalar.isInf x = x.isInf := by
  rw [Scalar.isInf, scalar_isNaN, scalar_isFinite, isNaN_view, isFinite_view, isInf_view]
  cases view x <;> rfl

/-- The larger of two doubles is below a finite bound if and only if both are. -/
theorem larger_le_iff (finite : t.isFinite = true) : Scalar.larger x y ≤ t ↔ x ≤ t ∧ y ≤ t := by
  have infinite {x : Float} (large : (Scalar.isInf x && decide (0 < x)) = true) : ¬ x ≤ t := by
    rw [Bool.and_eq_true, scalar_isInf, decide_eq_true_iff] at large
    exact not_le_of_isInf large.1 large.2 finite
  have lost {x : Float} (lost : Scalar.isNaN x = true) : ¬ x ≤ t := fun below => by
    rw [scalar_isNaN, (isNaN_of_le below).1] at lost
    cases lost
  rw [Scalar.larger]
  split_ifs with large large' none none' order
  · exact ⟨fun below => absurd below (infinite large), And.left⟩
  · exact ⟨fun below => absurd below (infinite large'), And.right⟩
  · exact ⟨fun below => absurd below (lost none), And.left⟩
  · exact ⟨fun below => absurd below (lost none'), And.right⟩
  · exact ⟨fun below => ⟨below, below_trans (below_of_lt order) below⟩, And.left⟩
  · have reversed : x ≤ y := by
      rcases not_lt_iff.mp order with lost | lost | below
      · exact absurd ((scalar_isNaN y).trans lost) none'
      · exact absurd ((scalar_isNaN x).trans lost) none
      · exact below
    exact ⟨fun below => ⟨below_trans reversed below, below⟩, And.right⟩

theorem larger_eq_or (x y : Float) : Scalar.larger x y = x ∨ Scalar.larger x y = y := by
  rw [Scalar.larger]
  split_ifs <;> simp

/-! ## Zero -/

theorem encoded_view (x : Float) : encoded (view x) = view x := by
  rw [encoded, pack_view]
  rfl

/-- Subtracting zero changes nothing. -/
theorem sub_zero_eq (x : Float) : x - 0 = x := by
  have kept : UnpackedFloat.sub binary64 (view x) (.zero .positive) = view x := by
    cases view x with
    | zero s => cases s <;> rfl
    | _ => rfl
  apply eq_of_view
  rw [view_sub, view_zero, kept, encoded_view]

/-- The same double, or zeros of either sign. -/
def SameNumber (x y : Float) : Prop := x = y ∨ (x == 0) = true ∧ (y == 0) = true

namespace SameNumber

theorem refl (x : Float) : SameNumber x x := .inl rfl

theorem symm (same : SameNumber x y) : SameNumber y x := same.imp Eq.symm And.symm

theorem trans (first : SameNumber x y) (second : SameNumber y z) : SameNumber x z := by
  rcases first with rfl | ⟨zero, middle⟩
  · exact second
  · rcases second with rfl | ⟨-, last⟩
    · exact .inr ⟨zero, middle⟩
    · exact .inr ⟨zero, last⟩

theorem zero_add (zero : (x == 0) = true) (z : Float) : SameNumber (x + z) z := by
  obtain ⟨s, zero⟩ := beq_zero_iff.mp zero
  by_cases zero' : (z == 0) = true
  · exact .inr ⟨add_beq_zero (beq_zero_iff.mpr ⟨s, zero⟩) zero', zero'⟩
  · left
    have kept : UnpackedFloat.add binary64 (.zero s) (view z) = view z := by
      rw [beq_zero_iff] at zero'
      cases seen : view z with
      | zero t => exact absurd ⟨t, seen⟩ zero'
      | _ => rfl
    exact eq_of_view (by rw [view_add, zero, kept, encoded_view])

theorem zero_sub (zero : (x == 0) = true) (z : Float) : SameNumber (x - z) (-z) := by
  obtain ⟨s, zero⟩ := beq_zero_iff.mp zero
  by_cases zero' : (z == 0) = true
  · refine .inr ⟨sub_beq_zero (beq_zero_iff.mpr ⟨s, zero⟩) zero', ?_⟩
    obtain ⟨t, zero'⟩ := beq_zero_iff.mp zero'
    rw [beq_zero_iff, view_neg, zero']
    exact ⟨_, encoded_zero _⟩
  · left
    have turned : UnpackedFloat.sub binary64 (.zero s) (view z) = (view z).neg := by
      rw [beq_zero_iff] at zero'
      cases seen : view z with
      | zero t => exact absurd ⟨t, seen⟩ zero'
      | _ => rfl
    exact eq_of_view (by rw [view_sub, zero, turned, view_neg])

variable (same : SameNumber x y)

include same

theorem add (z : Float) : SameNumber (x + z) (y + z) := by
  rcases same with rfl | ⟨zero, zero'⟩
  · exact refl _
  · exact (zero_add zero z).trans (zero_add zero' z).symm

theorem sub (z : Float) : SameNumber (x - z) (y - z) := by
  rcases same with rfl | ⟨zero, zero'⟩
  · exact refl _
  · exact (zero_sub zero z).trans (zero_sub zero' z).symm

theorem abs : x.abs = y.abs := by
  rcases same with rfl | ⟨zero, zero'⟩
  · rfl
  · obtain ⟨s, zero⟩ := beq_zero_iff.mp zero
    obtain ⟨t, zero'⟩ := beq_zero_iff.mp zero'
    apply eq_of_view
    rw [view_abs, view_abs, zero, zero']
    rfl

end SameNumber

end Entangle.Binary64
