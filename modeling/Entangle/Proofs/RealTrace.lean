import Mathlib
import Entangle.Synthesis.Diagonal
import Entangle.Proofs.LocalInvariance

/-!
# Diagonals that make a trace real

The trace of a matrix's product with its transpose in the magic basis comes from two pairs of mirrored rows, and a
diagonal that turns one row of each pair against the other makes it real. For a unitary of determinant one the trace is
that of its interaction with doubled angles, up to a sign; it is real only if one angle is zero, and in the chamber this
is the third.
-/

noncomputable section

namespace Entangle

open Matrix Complex

namespace Weyl

/-! ## The trace -/

/-- What the outer rows contribute to the trace. -/
def outerRows (m : TwoQubit) : ℂ := m 0 3 * m 3 0 - m 0 2 * m 3 1 - m 0 1 * m 3 2 + m 0 0 * m 3 3

/-- What the inner rows contribute to the trace. -/
def innerRows (m : TwoQubit) : ℂ := -m 1 3 * m 2 0 + m 1 2 * m 2 1 + m 1 1 * m 2 2 - m 1 0 * m 2 3

theorem trace_gram (m : TwoQubit) : (gram m).trace = 2 * (innerRows m + outerRows m) := by
  simp [gram, Axis.pair, Axis.halfTurn, Matrix.trace, Matrix.mul_apply, Fin.sum_univ_four, innerRows, outerRows]
  ring

theorem trace_inMagic (m : TwoQubit) : (inMagic m).trace = m.trace := by
  rw [inMagic, Matrix.trace_mul_cycle, magicInverse_mul_magic, Matrix.one_mul]

section Related

variable {w w' : TwoQubit} {θ : Axis → ℝ}

/-- Among matrices of determinant one the trace only depends on the interaction, up to a sign. -/
theorem UpToLocal.trace_gram (related : UpToLocal w w') (one : w.det = 1) (one' : w'.det = 1) :
    ∃ sign : ℂ, sign * sign = 1 ∧ (gram w').trace = sign * (gram w).trace := by
  obtain ⟨t, a, b, c, d, -, -, hc, hd, rfl⟩ := related
  have regular {g : OneQubit} (unitary : g ∈ unitaryGroup (Fin 2) ℂ) : IsUnit g := (Unitary.toUnits ⟨g, unitary⟩).isUnit
  exact ⟨localFactor (exp (t * I)) a b c d, localFactor_mul_self one one',
    trace_gram_local _ a b (regular hc) (regular hd) w⟩

theorem im_trace_gram_coupling (θ : Axis → ℝ) : (gram (coupling θ)).trace.im = 4 * doubled Real.sin θ := by
  rw [trace_gram_coupling]
  simp

/-- In the chamber a real trace leaves no third angle. -/
theorem Ordered.third_eq_zero (ordered : Ordered θ) (outer : θ .x ≤ Real.pi / 4) (real : (gram (coupling θ)).trace.im = 0) :
    θ .z = 0 := by
  obtain ⟨second, third⟩ := ordered
  obtain ⟨lower, upper⟩ := abs_le.mp third
  have pi := Real.pi_pos
  have inside {x : ℝ} (least : -(Real.pi / 4) ≤ x) (most : x ≤ Real.pi / 4) (zero : Real.sin (2 * x) = 0) : x = 0 := by
    have double := (Real.sin_eq_zero_iff_of_lt_of_lt (by linarith) (by linarith)).mp zero
    linarith
  have nonneg : 0 ≤ θ .y := (abs_nonneg _).trans third
  rw [im_trace_gram_coupling, doubled] at real
  have factors : (Real.sin (2 * θ .x) = 0 ∨ Real.sin (2 * θ .y) = 0) ∨ Real.sin (2 * θ .z) = 0 := by
    simpa [mul_eq_zero] using real
  rcases factors with (first | middle) | last
  · have zero := inside (by linarith) outer first
    linarith
  · have zero := inside (by linarith) (by linarith) middle
    linarith
  · exact inside (by linarith) (by linarith) last

end Related

theorem interaction_entries (a b : ℝ) : (interaction a b 0).toMatrix =
    cross (cos (a - b)) (I * sin (a - b)) (cos (a + b)) (I * sin (a + b)) := by
  rw [toMatrix_interaction, coupling_eq_cross]
  simp [angles]

theorem outerRows_interaction (a b : ℝ) : outerRows (interaction a b 0).toMatrix = (Real.cos (2 * (a - b)) : ℝ) := by
  rw [interaction_entries]
  push_cast
  rw [Complex.cos_two_mul']
  simp [outerRows, cross]
  linear_combination Complex.sin (a - b) ^ 2 * I_sq

theorem innerRows_interaction (a b : ℝ) : innerRows (interaction a b 0).toMatrix = (Real.cos (2 * (a + b)) : ℝ) := by
  rw [interaction_entries]
  push_cast
  rw [Complex.cos_two_mul']
  simp [innerRows, cross]
  linear_combination Complex.sin (a + b) ^ 2 * I_sq

/-- A unitary of determinant one whose trace is real has a canonical form without a third angle. -/
theorem canonicalForm_of_real_trace {w : Mat4 ℝ} (unitary : w.Unitary) (one : w.toMatrix.det = 1)
    (exactly : ExactlyDiagonalized w) (real : (gram w.toMatrix).trace.im = 0) :
    ∃ f : Form ℝ, canonicalForm w = .ok f ∧ f.Factored ∧ f.matrix = w ∧ f.c = 0 := by
  obtain ⟨f, canonical, denotes, factored⟩ := exactly.exists_form unitary
  have chamber := canonicalForm_inChamber canonical
  have related := factored.upToLocal
  rw [denotes] at related
  obtain ⟨sign, square, trace⟩ := related.trace_gram (det_coupling _) one
  have still : (gram (coupling (angles f.a f.b f.c))).trace.im = 0 := by
    rcases mul_self_eq_one_iff.mp square with rfl | rfl
    · rw [trace, one_mul] at real
      exact real
    · rw [trace, neg_one_mul, Complex.neg_im, neg_eq_zero] at real
      exact real
  exact ⟨f, canonical, factored, denotes, chamber.ordered.third_eq_zero chamber.first still⟩

end Weyl

/-! ## The transform -/

namespace Synthesis

open Weyl (ExactlyDiagonalized canonicalForm_of_real_trace coordinates coordinates_of_canonicalForm det_coupling
  det_diagonal_exp diagonal_exp_mem_unitary exactlyDiagonalized_interaction fromMagic gram gram_inMagic inMagic_fromMagic
  innerRows innerRows_interaction interaction interaction_unitary outerRows outerRows_interaction toMatrix_interaction
  trace_inMagic)

/-- The angle that makes the trace real. -/
def traceAngle (m : Mat4 ℝ) : ℝ :=
  Complex.arg ⟨(innerRows m.toMatrix).re - (outerRows m.toMatrix).re, (innerRows m.toMatrix).im + (outerRows m.toMatrix).im⟩

theorem traceAngle_balance (m : Mat4 ℝ) :
    Real.sin (traceAngle m) * ((innerRows m.toMatrix).re - (outerRows m.toMatrix).re) =
      Real.cos (traceAngle m) * ((innerRows m.toMatrix).im + (outerRows m.toMatrix).im) := by
  set z : ℂ := ⟨(innerRows m.toMatrix).re - (outerRows m.toMatrix).re,
    (innerRows m.toMatrix).im + (outerRows m.toMatrix).im⟩
  have cosine : ‖z‖ * Real.cos z.arg = z.re := Complex.norm_mul_cos_arg z
  have sine : ‖z‖ * Real.sin z.arg = z.im := Complex.norm_mul_sin_arg z
  change Real.sin z.arg * z.re = Real.cos z.arg * z.im
  rw [← cosine, ← sine]
  ring

/-- The diagonal that turns the last two basis vectors against each other. -/
def opposed (t : ℝ) : Mat4 ℝ := Mat4.diag 1 1 (Cx.cis (-t)) (Cx.cis t)

/-- Its phases, which balance. -/
def opposedTurns (t : ℝ) : Fin 4 → ℝ := ![0, 0, -t, t]

theorem sum_opposedTurns (t : ℝ) : ∑ k, opposedTurns t k = 0 := by
  simp [opposedTurns, Fin.sum_univ_four]

theorem toMatrix_opposed (t : ℝ) : (opposed t).toMatrix = diagonal fun k => exp (opposedTurns t k * I) := by
  rw [opposed, Mat4.toMatrix_diag]
  congr 1
  funext k
  fin_cases k <;> simp [opposedTurns]

/-- No turn changes nothing. -/
theorem opposed_zero_mul (m : Mat4 ℝ) : opposed 0 * m = m := by
  apply Square.toMatrix_injective
  have none : (fun k => exp (opposedTurns 0 k * I)) = fun _ => 1 := by
    funext k
    fin_cases k <;> simp [opposedTurns]
  rw [Mat4.toMatrix_mul, toMatrix_opposed, none, Matrix.diagonal_one, Matrix.one_mul]

/-- Turns one after the other make one turn. -/
theorem opposed_mul_opposed_mul (s t : ℝ) (m : Mat4 ℝ) : opposed s * (opposed t * m) = opposed (s + t) * m := by
  apply Square.toMatrix_injective
  have sum : (fun k => exp (opposedTurns s k * I) * exp (opposedTurns t k * I)) = fun k => exp (opposedTurns (s + t) k * I) := by
    funext k
    rw [← Complex.exp_add]
    fin_cases k <;> simp [opposedTurns] <;> ring_nf
  rw [Mat4.toMatrix_mul, Mat4.toMatrix_mul, Mat4.toMatrix_mul, ← Matrix.mul_assoc, toMatrix_opposed, toMatrix_opposed,
    toMatrix_opposed, Matrix.diagonal_mul_diagonal, sum]

theorem innerRows_opposed (t : ℝ) (m : Mat4 ℝ) :
    innerRows (opposed t * m).toMatrix = exp (-t * I) * innerRows m.toMatrix := by
  rw [opposed, Mat4.toMatrix_mul, Mat4.toMatrix_diag]
  simp [innerRows]
  ring

theorem outerRows_opposed (t : ℝ) (m : Mat4 ℝ) :
    outerRows (opposed t * m).toMatrix = exp (t * I) * outerRows m.toMatrix := by
  rw [opposed, Mat4.toMatrix_mul, Mat4.toMatrix_diag]
  simp [outerRows]
  ring

/-- The transform turns them by the angle that makes the trace real. -/
theorem realTraceTransform_eq (m : Mat4 ℝ) : realTraceTransform m = opposed (traceAngle m) := by
  set a1 : Cx ℝ := -m 1 3 * m 2 0 + m 1 2 * m 2 1 + m 1 1 * m 2 2 - m 1 0 * m 2 3 with inner
  set a2 : Cx ℝ := m 0 3 * m 3 0 - m 0 2 * m 3 1 - m 0 1 * m 3 2 + m 0 0 * m 3 3 with outer
  have innerIs : innerRows m.toMatrix = a1.toComplex := by simp [innerRows, inner]
  have outerIs : outerRows m.toMatrix = a2.toComplex := by simp [outerRows, outer]
  have still : (Cx.cis (-0) : Cx ℝ) = 1 := by
    apply Cx.toComplex_injective
    simp
  rw [traceAngle, innerIs, outerIs]
  set ψ := Complex.arg ⟨a1.re - a2.re, a1.im + a2.im⟩
  change Mat4.diag (Cx.cis (-Scalar.ofNat 0)) (Cx.cis (-Scalar.ofNat 0)) (Cx.cis (-(ψ - Scalar.ofNat 0)))
    (Cx.cis (- -(Scalar.ofNat 0 + Scalar.ofNat 0 + (ψ - Scalar.ofNat 0)))) = _
  simp only [Exact.ofNat_eq, Nat.cast_zero, sub_zero, zero_add, neg_neg, still]
  rfl

/-- The phases of the transform, which balance. -/
def traceTurns (m : Mat4 ℝ) : Fin 4 → ℝ := opposedTurns (traceAngle m)

theorem sum_traceTurns (m : Mat4 ℝ) : ∑ k, traceTurns m k = 0 := sum_opposedTurns _

theorem toMatrix_realTraceTransform (m : Mat4 ℝ) :
    (realTraceTransform m).toMatrix = diagonal fun k => exp (traceTurns m k * I) := by
  rw [realTraceTransform_eq, toMatrix_opposed]
  rfl

theorem norm_realTraceTransform (m : Mat4 ℝ) (i j : Fin 4) :
    ‖(realTraceTransform m i j).toComplex‖ = if i = j then 1 else 0 := by
  rw [← Square.toMatrix_apply, toMatrix_realTraceTransform, Matrix.diagonal_apply]
  split
  · exact Complex.norm_exp_ofReal_mul_I _
  · exact norm_zero

theorem det_realTraceTransform (m : Mat4 ℝ) : (realTraceTransform m).toMatrix.det = 1 := by
  rw [toMatrix_realTraceTransform, det_diagonal_exp (sum_traceTurns m)]

theorem realTraceTransform_real (m : Mat4 ℝ) : (gram (realTraceTransform m * m).toMatrix).trace.im = 0 := by
  have turn (t : ℝ) (w : ℂ) : (exp (t * I) * w).im = Real.cos t * w.im + Real.sin t * w.re := by
    rw [Complex.mul_im, Complex.exp_ofReal_mul_I_re, Complex.exp_ofReal_mul_I_im]
  rw [realTraceTransform_eq, Weyl.trace_gram, innerRows_opposed, outerRows_opposed, ← Complex.ofReal_neg, Complex.mul_im,
    Complex.add_im, turn, turn, Real.cos_neg, Real.sin_neg]
  simp
  linear_combination -traceAngle_balance m

/-- The trace of the product with the transpose in the magic basis. -/
theorem toComplex_trace_square (v : Mat4 ℝ) :
    (Mat4.trace ((fromMagic v).transpose * fromMagic v)).toComplex = (gram v.toMatrix).trace := by
  rw [Mat4.toComplex_trace, Mat4.toMatrix_mul, Square.toMatrix_transpose, ← inMagic_fromMagic v, gram_inMagic, trace_inMagic]

/-- The transform is a diagonal of phases whose product is one, and after it the trace of the product with the transpose in
the magic basis is real. So a unitary of determinant one has no third coordinate after it. -/
theorem realTraceTransform_spec (m : Mat4 ℝ) :
    (∀ i j, ‖(realTraceTransform m i j).toComplex‖ = if i = j then 1 else 0) ∧
      (realTraceTransform m).toMatrix.det = 1 ∧
      (Mat4.trace ((fromMagic (realTraceTransform m * m)).transpose * fromMagic (realTraceTransform m * m))).im = 0 ∧
      (m.Unitary → m.toMatrix.det = 1 → ExactlyDiagonalized (realTraceTransform m * m) →
        ∃ a b, coordinates (realTraceTransform m * m) = .ok (a, b, 0)) := by
  refine ⟨norm_realTraceTransform m, det_realTraceTransform m, ?_, fun unitary one exactly => ?_⟩
  · rw [← Cx.im_toComplex, toComplex_trace_square]
    exact realTraceTransform_real m
  · have unitary' : (realTraceTransform m * m).Unitary := by
      rw [Square.Unitary, Mat4.toMatrix_mul, toMatrix_realTraceTransform]
      exact mul_mem (diagonal_exp_mem_unitary _) unitary
    have one' : (realTraceTransform m * m).toMatrix.det = 1 := by
      rw [Mat4.toMatrix_mul, Matrix.det_mul, det_realTraceTransform, one, one_mul]
    obtain ⟨f, canonical, -, -, zero⟩ := canonicalForm_of_real_trace unitary' one' exactly (realTraceTransform_real m)
    exact ⟨f.a, f.b, by rw [coordinates_of_canonicalForm canonical, zero]⟩

/-- The transform undoes a turn of an interaction about the first two axes, where its inner rows outweigh the outer ones. -/
theorem realTraceTransform_turned {a b t : ℝ} (order : Real.cos (2 * (a - b)) < Real.cos (2 * (a + b)))
    (turn : t ∈ Set.Ioc (-Real.pi) Real.pi) :
    realTraceTransform (opposed (-t) * interaction a b 0) * (opposed (-t) * interaction a b 0) = interaction a b 0 := by
  have polar (r : ℝ) : (⟨r * Real.cos t, r * Real.sin t⟩ : ℂ) = r * (cos t + sin t * I) := by
    apply Complex.ext <;>
      simp [Complex.cos_ofReal_re, Complex.cos_ofReal_im, Complex.sin_ofReal_re, Complex.sin_ofReal_im]
  have parts (t x : ℝ) : (exp (t * I) * x).re = x * Real.cos t ∧ (exp (t * I) * x).im = x * Real.sin t := by
    rw [Complex.re_mul_ofReal, Complex.im_mul_ofReal, Complex.exp_ofReal_mul_I_re, Complex.exp_ofReal_mul_I_im]
    exact ⟨mul_comm _ _, mul_comm _ _⟩
  have angle : traceAngle (opposed (-t) * interaction a b 0) = t := by
    rw [traceAngle, innerRows_opposed, outerRows_opposed, innerRows_interaction, outerRows_interaction, ← Complex.ofReal_neg,
      neg_neg, (parts t _).1, (parts t _).2, (parts (-t) _).1, (parts (-t) _).2, Real.cos_neg, Real.sin_neg, mul_neg,
      ← sub_eq_add_neg, ← sub_mul, ← sub_mul, polar]
    exact Complex.arg_mul_cos_add_sin_mul_I (sub_pos.mpr order) turn
  rw [realTraceTransform_eq, angle, opposed_mul_opposed_mul, add_neg_cancel, opposed_zero_mul]

/-- An interaction with angles of opposite signs after a turn by one radian. -/
def turnedInteraction : Mat4 ℝ := opposed (-1) * interaction (1 / 2) (-1 / 4) 0

theorem realTraceTransform_spec_turned : turnedInteraction.Unitary ∧ turnedInteraction.toMatrix.det = 1 ∧
    realTraceTransform turnedInteraction * turnedInteraction = interaction (1 / 2) (-1 / 4) 0 ∧
    ExactlyDiagonalized (realTraceTransform turnedInteraction * turnedInteraction) ∧
    ∃ a b, coordinates (realTraceTransform turnedInteraction * turnedInteraction) = .ok (a, b, 0) := by
  have unitary : turnedInteraction.Unitary := by
    rw [Square.Unitary, turnedInteraction, Mat4.toMatrix_mul, toMatrix_opposed]
    exact mul_mem (diagonal_exp_mem_unitary _) (interaction_unitary _ _ _)
  have one : turnedInteraction.toMatrix.det = 1 := by
    rw [turnedInteraction, Mat4.toMatrix_mul, Matrix.det_mul, toMatrix_opposed, det_diagonal_exp (sum_opposedTurns _),
      toMatrix_interaction, det_coupling, one_mul]
  have undone : realTraceTransform turnedInteraction * turnedInteraction = interaction (1 / 2) (-1 / 4) 0 := by
    apply realTraceTransform_turned
    · apply Real.cos_lt_cos_of_nonneg_of_le_pi <;> linarith [Real.pi_gt_three]
    · constructor <;> linarith [Real.pi_gt_three]
  have exactly : ExactlyDiagonalized (realTraceTransform turnedInteraction * turnedInteraction) := by
    rw [undone]
    exact exactlyDiagonalized_interaction _ _ _
  exact ⟨unitary, one, undone, exactly, (realTraceTransform_spec turnedInteraction).2.2.2 unitary one exactly⟩

end Synthesis

end Entangle

end
