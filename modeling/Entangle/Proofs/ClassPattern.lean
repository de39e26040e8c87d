import Mathlib
import Entangle.Proofs.GateCount
import Entangle.Proofs.SingleAxis

/-!
# The pattern of a class

A symmetry class is a point, a line or a face of the chamber. Fitting a form to a class moves its angles onto that
part of the chamber, however far away the form is, and leaves them where they are if the form lies there already.
A decomposition therefore has the pattern of its class, whichever options it was made with.
-/

noncomputable section

namespace Entangle.Weyl

/-- The angles of a class. -/
def Class.Holds : Class → ℝ → ℝ → ℝ → Prop
  | .general, _, _, _ => True
  | .identity, a, b, c => a = 0 ∧ b = 0 ∧ c = 0
  | .swap, a, b, c => a = Real.pi / 4 ∧ b = Real.pi / 4 ∧ c = Real.pi / 4
  | .partialSwap, a, b, c => b = a ∧ c = a
  | .partialSwapFlip, a, b, c => b = a ∧ c = -a
  | .controlled, _, b, c => b = 0 ∧ c = 0
  | .mirrorControlled, a, b, _ => a = Real.pi / 4 ∧ b = Real.pi / 4
  | .aab, a, b, _ => b = a
  | .abb, _, b, c => c = b
  | .abmb, _, b, c => c = -b

theorem Class.holds_point (k : Class) (a b c : ℝ) : k.Holds (k.point a b c).1 (k.point a b c).2.1 (k.point a b c).2.2 := by
  cases k with
  | general => trivial
  | identity | swap => exact ⟨rfl, rfl, rfl⟩
  | partialSwap | partialSwapFlip | controlled | mirrorControlled => exact ⟨rfl, rfl⟩
  | aab | abb | abmb => rfl

theorem closestPartialSwap_self (x : ℝ) : closestPartialSwap x x x = x := by
  simp only [closestPartialSwap, Exact.numeral_eq]
  ring

/-- Angles that have the pattern stay where they are. -/
theorem Class.point_eq_self {k : Class} {a b c : ℝ} (holds : k.Holds a b c) : k.point a b c = (a, b, c) := by
  cases k with
  | general => rfl
  | identity | swap =>
    obtain ⟨rfl, rfl, rfl⟩ := holds
    rfl
  | partialSwap =>
    obtain ⟨rfl, rfl⟩ := holds
    rw [point, closestPartialSwap_self]
  | partialSwapFlip =>
    obtain ⟨rfl, rfl⟩ := holds
    rw [point, neg_neg, closestPartialSwap_self]
  | controlled | mirrorControlled =>
    obtain ⟨rfl, rfl⟩ := holds
    rfl
  | aab =>
    obtain rfl : b = a := holds
    rw [point, add_self_div_two]
  | abb =>
    obtain rfl : c = b := holds
    rw [point, add_self_div_two]
  | abmb =>
    obtain rfl : c = -b := holds
    rw [point, sub_neg_eq_add, add_self_div_two]

theorem ofForm_fitted {u : Mat4 ℝ} {f : Form ℝ} {o : Options ℝ} {target : Decomposition ℝ}
    (decomposed : Decomposition.ofForm u f o = .ok target) : target.fitted = o.classFor f := by
  obtain ⟨fit, -, rest⟩ := bind_eq_ok.mp (Outcome.step_eq_ok.mp decomposed)
  dsimp only at rest
  split at rest
  · cases rest
  · obtain rfl := Except.ok.inj rest
    rfl

/-- The classes that add nothing to a third angle that is zero. -/
def Class.flat : List Class := [.general, .identity, .controlled, .mirrorControlled, .aab]

/-- A form without a third angle is left without one in exactly these classes: in any other class the angle would be
zero only at a point of a class that is tried before. -/
theorem nearestClass_flat {f : Form ℝ} (zero : f.c = 0) (fidelity : ℝ) :
    ((f.nearestClass fidelity).point f.a f.b f.c).2.2 = 0 ↔ f.nearestClass fidelity ∈ Class.flat := by
  have quarter : Real.pi / 4 ≠ 0 := by linarith [Real.pi_pos]
  rw [zero]
  unfold Form.nearestClass
  dsimp only
  rw [Exact.zero_eq, zero]
  split
  next => exact iff_of_true rfl (by decide)
  next still =>
  split
  next => exact iff_of_false quarter (by decide)
  split
  next aligned =>
    refine iff_of_false (fun (same : closestPartialSwap f.a f.b 0 = 0) => ?_) (by decide)
    rw [same] at aligned
    exact still aligned
  split
  next flipped =>
    refine iff_of_false (fun (same : -closestPartialSwap f.a f.b (-0) = 0) => ?_) (by decide)
    rw [same, neg_eq_zero.mp same] at flipped
    exact still flipped
  split
  next => exact iff_of_true rfl (by decide)
  next apart =>
  split
  next => exact iff_of_true rfl (by decide)
  split
  next => exact iff_of_true rfl (by decide)
  split
  next near =>
    refine iff_of_false (fun (same : (f.b + 0) / 2 = 0) => ?_) (by decide)
    rw [Exact.numeral_eq, same] at near
    exact apart near
  split
  next near =>
    refine iff_of_false (fun (same : -((f.b - 0) / 2) = 0) => ?_) (by decide)
    have mirrored : (0 - f.b) / 2 = -((f.b - 0) / 2) := by ring
    rw [Exact.numeral_eq, mirrored, same, neg_eq_zero.mp same] at near
    exact apart near
  next => exact iff_of_true rfl (by decide)

/-- Where the canonical form has no third angle, the decomposition has none exactly in these classes, and it has none
if the fit is perfect. -/
theorem ofUnitary_flat {u : Mat4 ℝ} {f : Form ℝ} (canonical : canonicalForm u = .ok f) (zero : f.c = 0) {fidelity : ℝ}
    {target : Decomposition ℝ} (decomposed : Decomposition.ofUnitary u ⟨some fidelity, none⟩ = .ok target) :
    (target.c = 0 ↔ target.fitted ∈ Class.flat) ∧ (target.calculated = 1 → target.c = 0) := by
  obtain ⟨f', canonical', kept⟩ := ofUnitary_eq_ok.mp decomposed
  obtain rfl := Except.ok.inj (canonical.symm.trans canonical')
  obtain ⟨fit, fits, calculated, -, -, c⟩ := ofForm_eq_ok kept
  have chosen : target.fitted = f.nearestClass fidelity := ofForm_fitted kept
  have third : fit.form.c = ((f.nearestClass fidelity).point f.a f.b f.c).2.2 := congrArg (fun p => p.2.2) (fit_moves fits).1
  constructor
  · rw [chosen, c, third]
    exact nearestClass_flat zero fidelity
  · intro perfect
    obtain ⟨-, -, same | same⟩ := fit_perfect (canonicalForm_inChamber canonical) fits (calculated.symm.trans perfect)
    · rw [c, same, zero]
    · rw [c, same, zero, neg_zero]

/-- Whatever the options are, a decomposition lies in the chamber and has the pattern of its class, which is the
class that the options choose for the canonical form. A canonical form with that pattern keeps its angles. -/
theorem ofUnitary_pattern {u : Mat4 ℝ} {o : Options ℝ} {target : Decomposition ℝ}
    (decomposed : Decomposition.ofUnitary u o = .ok target) :
    (target.a ≤ Real.pi / 4 ∧ target.b ≤ target.a ∧ |target.c| ≤ target.b) ∧
      target.fitted.Holds target.a target.b target.c ∧
      ∃ f, canonicalForm u = .ok f ∧ target.fitted = o.classFor f ∧
        (target.fitted.Holds f.a f.b f.c → target.a = f.a ∧ target.b = f.b ∧ target.c = f.c) := by
  obtain ⟨f, canonical, kept⟩ := ofUnitary_eq_ok.mp decomposed
  obtain ⟨fit, fits, -, a, b, c⟩ := ofForm_eq_ok kept
  have chosen := ofForm_fitted kept
  have moved := (fit_moves fits).1
  rw [← chosen, ← a, ← b, ← c] at moved
  refine ⟨ofUnitary_chamber decomposed, ?_, f, canonical, chosen, ?_⟩
  · have holds := target.fitted.holds_point f.a f.b f.c
    rwa [← moved] at holds
  · intro holds
    rw [Class.point_eq_self holds] at moved
    simpa only [Prod.mk.injEq] using moved

/-- An interaction about one axis, forced far away onto the line of the swap's powers. -/
theorem ofUnitary_pattern_partialSwap :
    ∃ target : Decomposition ℝ,
      Decomposition.ofUnitary (single .z (1 / 2)) (Options.default.withoutFidelity.withClass .partialSwap) = .ok target ∧
        target.fitted = .partialSwap ∧ target.a ≤ Real.pi / 4 ∧ target.b = target.a ∧ target.c = target.a := by
  have small : |(1 / 2 : ℝ)| ≤ Real.pi / 4 := by
    rw [abs_of_pos (by norm_num)]
    linarith [Real.pi_gt_three]
  obtain ⟨f, canonical, denotes, factored, -⟩ := canonicalForm_single .z small
  set o : Options ℝ := Options.default.withoutFidelity.withClass .partialSwap
  have fitted : f.fit (o.classFor f) = .ok (toPartialSwap f) := rfl
  obtain ⟨decomposed, -⟩ := ofForm_fits_class factored (canonicalForm_inChamber canonical) fitted rfl
  rw [denotes] at decomposed
  have found := ofUnitary_eq_ok.mpr ⟨f, canonical, decomposed⟩
  obtain ⟨⟨first, -⟩, pattern, -⟩ := ofUnitary_pattern found
  exact ⟨_, found, rfl, first, pattern⟩

end Entangle.Weyl

end
