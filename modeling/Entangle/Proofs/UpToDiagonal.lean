import Mathlib
import Entangle.Synthesis.Diagonal
import Entangle.Proofs.CircuitShape
import Entangle.Proofs.ClassPattern
import Entangle.Proofs.ControlledNot
import Entangle.Proofs.PulseModes
import Entangle.Proofs.RealTrace

/-!
# The count of controlled-nots up to a diagonal

A diagonal before the circuit brings the third angle of a unitary to zero. The circuit is made for the form fitted to a
symmetry class, though, and some classes give the angle back: two controlled-nots are enough exactly if the fitted form
has no third angle, and three stand there otherwise.
-/

noncomputable section

namespace Entangle

open Complex
open Circuit (Sequence Instruction)
open Gate (Operation Standard)

/-! ## Counting by name -/

/-- Among corrections, the instructions with the name of the entangling gate are those on two qubits. -/
theorem Circuit.Sequence.count_eq_countP {α : Type} {s : Sequence α} {basis : Euler.Basis} {entangler : Instruction α}
    (woven : s.Over (Instruction.Woven basis.gates entangler)) (two : entangler.qubits.length = 2)
    (other : ∀ g ∈ basis.gates, g.name ≠ entangler.name) :
    s.count entangler.name = s.instructions.countP fun i => i.qubits.length = 2 := by
  refine List.countP_congr fun i member => ?_
  rw [beq_iff_eq, decide_eq_true_iff]
  rcases woven i member with ⟨g, listed, op, qubits, -⟩ | ⟨g, listed, op, qubits, -⟩ | same
  · have name : i.name = g.name := by rw [Instruction.name, op, Operation.name]
    exact iff_of_false (name ▸ other g listed) (by simp [qubits])
  · have name : i.name = g.name := by rw [Instruction.name, op, Operation.name]
    exact iff_of_false (name ▸ other g listed) (by simp [qubits])
  · exact iff_of_true (congrArg _ same) (same ▸ two)

/-! ## Two small angles -/

namespace Weyl

section Small

variable {f : Form ℝ}

/-- Two equal small angles may be too large to be left out. -/
theorem not_near_identity (b : f.b = f.a) (c : f.c = 0) (large : 0.000026 ≤ f.a) (small : f.a ≤ 0.00004) :
    ¬ f.isNear 0.999999999 0 0 0 = true := by
  have positive : 0 < f.a := by linarith
  have sine : 0.0000255 ≤ Real.sin f.a := by
    have above := Real.sin_gt_sub_cube positive
    have cube := pow_le_pow_left₀ positive.le small 3
    norm_num at cube large ⊢
    linarith
  have square : 6.5e-10 ≤ Real.sin f.a ^ 2 := by nlinarith
  have most : Real.sin f.a ^ 2 ≤ f.a ^ 2 := Real.sin_sq_le_sq
  rw [isNear_iff, b, c, traceFidelity_canonicalTrace, sub_zero, sub_zero, Real.cos_zero, Real.sin_zero, mul_pow, mul_pow,
    Real.cos_sq']
  set q := Real.sin f.a ^ 2
  have product : (1 - q) * (1 - q) ≤ 1 - 1.99 * q := by
    have little : q ≤ 0.01 := by nlinarith
    nlinarith
  norm_num at product square ⊢
  linarith

/-- They are spread over all three axes at little cost. -/
theorem near_closestPartialSwap (b : f.b = f.a) (c : f.c = 0) (positive : 0 < f.a) (small : f.a ≤ 0.00004) :
    f.isNear 0.999999999 (closestPartialSwap f.a f.a 0) (closestPartialSwap f.a f.a 0) (closestPartialSwap f.a f.a 0) =
      true := by
  set x := closestPartialSwap f.a f.a 0 with point
  -- two thirds of the angle, but for a cubic term
  have value : x = 2 * f.a / 3 - f.a * (f.a ^ 2 * (2 * (3 + f.a ^ 2)) / 243) := by
    rw [point]
    simp only [closestPartialSwap, Exact.numeral_eq]
    ring
  have correction : 0 ≤ f.a * (f.a ^ 2 * (2 * (3 + f.a ^ 2)) / 243) := by positivity
  have tiny : f.a * (f.a ^ 2 * (2 * (3 + f.a ^ 2)) / 243) ≤ f.a * 0.005 := by
    have square : f.a ^ 2 ≤ 0.01 := by nlinarith
    exact mul_le_mul_of_nonneg_left (by nlinarith) positive.le
  have near : (f.a - x) ^ 2 ≤ 2e-10 := by nlinarith
  have own : x ^ 2 ≤ 8e-10 := by nlinarith
  have first : Real.sin (f.a - x) ^ 2 ≤ (f.a - x) ^ 2 := Real.sin_sq_le_sq
  have third : Real.sin x ^ 2 ≤ x ^ 2 := Real.sin_sq_le_sq
  rw [isNear_iff, b, c, traceFidelity_canonicalTrace, zero_sub, Real.cos_neg, mul_pow, mul_pow, Real.cos_sq', Real.cos_sq']
  set s := Real.sin (f.a - x) ^ 2
  set r := Real.sin x ^ 2
  have s0 : 0 ≤ s := sq_nonneg _
  have r0 : 0 ≤ r := sq_nonneg _
  have product : 1 - 2 * s - r ≤ (1 - s) * (1 - s) * (1 - r) := by nlinarith [mul_nonneg s0 s0, mul_nonneg s0 r0]
  have rest := sq_nonneg (Real.sin (f.a - x) * Real.sin (f.a - x) * Real.sin (-x))
  linarith

/-- A form with two equal small angles is given a third one: it is not near the identity, but near a swap's power. -/
theorem nearestClass_partialSwap (b : f.b = f.a) (c : f.c = 0) (large : 0.000026 ≤ f.a) (small : f.a ≤ 0.00004) :
    f.nearestClass 0.999999999 = .partialSwap := by
  have positive : 0 < f.a := by linarith
  unfold Form.nearestClass
  dsimp only
  rw [Exact.quarterPi_eq, Exact.zero_eq, b, c, if_neg (not_near_identity b c large small), if_neg (not_near_swap c),
    if_pos (near_closestPartialSwap b c positive small)]

end Small

end Weyl

namespace Synthesis

open Weyl

namespace Decomposer

variable {d : Decomposer ℝ} {u : Mat4 ℝ} {target : Decomposition ℝ}

/-- Where no pulse form can apply, the plain circuit is written. -/
theorem exists_synthesize_plain (auto : d.options.pulse = .auto) (free : ¬ d.HasRoot)
    (fitted : Decomposition.ofUnitary u .default = .ok target) (r : Request ℝ) :
    ∃ s, d.synthesize u r = .ok s ∧ s.Over (Instruction.Woven d.options.euler.gates ⟨d.gate, d.params, [0, 1]⟩) ∧
      s.Uses d.gate (d.countFor target r) := by
  obtain ⟨s, joined, -⟩ := d.exists_interleave (d.corrections (d.countFor target r) target)
    (.empty (d.startPhase (d.countFor target r) target))
  have none : d.pulse (d.countFor target r) (d.corrections (d.countFor target r) target) target = .error none := by
    rcases d.pulse_cases (d.countFor target r) (d.corrections (d.countFor target r) target) target with
      ⟨-, none⟩ | ⟨-, -, place, refused⟩ | ⟨-, root, -⟩
    · exact none
    · rw [refused, refusal, auto, if_neg (by decide)]
    · exact absurd root free
  have realized : d.realize (d.countFor target r) target = .ok s := (realize_of_none none).trans joined
  exact ⟨s, synthesize_eq_ok.mpr ⟨target, fitted, realized⟩, over_interleave (.empty _) joined, uses_realize realized⟩

end Decomposer

/-! ## The circuit -/

/-- The unitary with determinant one. -/
def unimodular (u : Mat4 ℝ) : Mat4 ℝ := u.scale (1 / ((Mat4.det u).rpow (-0.25)).conj)

/-- What the circuit is made for: the diagonal is split off. -/
def remainder (u : Mat4 ℝ) : Mat4 ℝ := realTraceTransform (unimodular u) * unimodular u

variable {u : Mat4 ℝ} {target : Decomposition ℝ}

theorem exists_decomposeUpToDiagonal (fitted : Decomposition.ofUnitary (remainder u) .default = .ok target) :
    ∃ r, decomposeUpToDiagonal u = .ok r ∧ r.diagonal = (realTraceTransform (unimodular u)).conj ∧
      r.circuit.count "cx" ≤ 3 ∧ (r.circuit.count "cx" ≤ 2 ↔ target.c = 0) := by
  obtain ⟨d, built, gate, options, -⟩ := Decomposer.exists_ofGate_controlledNot (Options.default.withEuler .u)
  have params : d.params = [] := by
    obtain ⟨-, -, -, -, parts⟩ := Decomposer.ofGate_eq_ok built
    rw [parts]
  have free : ¬ d.HasRoot := by
    rw [Decomposer.hasRoot_iff, options]
    decide
  obtain ⟨s, synthesized, woven, uses⟩ :=
    Decomposer.exists_synthesize_plain (by rw [options]; rfl) free fitted .default
  rw [gate, params, options] at woven
  have count : s.count "cx" = d.countFor target .default :=
    (Sequence.count_eq_countP woven rfl (by decide)).trans uses.count
  obtain ⟨first, second, third⟩ := Weyl.ofUnitary_chamber fitted
  have three : d.countFor target .default = 3 ↔ target.c ≠ 0 := by
    have lossless : d.effectiveFidelity .default = 1 := by
      change d.options.fidelity = 1
      rw [options]
      exact Exact.one_eq
    change bestCount (traces target.a target.b target.c d.basis.b) (d.effectiveFidelity .default) = 3 ↔ _
    rw [lossless]
    exact bestCount_eq_three_iff (third.trans (second.trans first)) _
  refine ⟨_, Outcome.step_eq_ok.mpr (bind_eq_ok.mpr ⟨d, built, bind_eq_ok.mpr ⟨s, synthesized, rfl⟩⟩), rfl, ?_, ?_⟩
  · change s.count "cx" ≤ 3
    omega
  · change s.count "cx" ≤ 2 ↔ _
    rw [count, ← not_iff_not, ← ne_eq (target.c), ← three]
    omega

/-! ## The diagonal -/

theorem norm_conj_realTraceTransform (m : Mat4 ℝ) (i j : Fin 4) :
    ‖((realTraceTransform m).conj i j).toComplex‖ = if i = j then 1 else 0 := by
  rw [← norm_realTraceTransform, Square.get_conj, Cx.toComplex_conj, norm_star]

theorem toMatrix_unimodular (unitary : u.Unitary) :
    (unimodular u).toMatrix = inMagic (specialUnitary u u.det).toMatrix := by
  obtain ⟨-, -, back⟩ := specialUnitary_spec unitary
  have turn : 1 / star (exp (-((u.det.arg / 4 : ℝ) * I))) * exp ((u.det.arg / 4 : ℝ) * I) = 1 := by
    rw [Complex.star_def, ← Complex.exp_conj, map_neg, map_mul, Complex.conj_ofReal, Complex.conj_I, mul_neg, neg_neg,
      one_div, inv_mul_cancel₀ (Complex.exp_ne_zero _)]
  rw [unimodular, Square.toMatrix_scale, Cx.toComplex_div, Cx.toComplex_one, Cx.toComplex_conj,
    toComplex_fourthRoot unitary, ← back, smul_smul, turn, one_smul]

theorem remainder_unitary (unitary : u.Unitary) : (remainder u).Unitary := by
  obtain ⟨special, -, -⟩ := specialUnitary_spec unitary
  rw [Square.Unitary, remainder, Mat4.toMatrix_mul, toMatrix_realTraceTransform, toMatrix_unimodular unitary]
  exact mul_mem (diagonal_exp_mem_unitary _) (inMagic_mem_unitary_iff.mpr special)

theorem det_remainder (unitary : u.Unitary) : (remainder u).toMatrix.det = 1 := by
  obtain ⟨-, one, -⟩ := specialUnitary_spec unitary
  rw [remainder, Mat4.toMatrix_mul, Matrix.det_mul, toMatrix_realTraceTransform, det_diagonal_exp (sum_traceTurns _),
    toMatrix_unimodular unitary, det_inMagic, one, one_mul]

/-- What is left has no third angle. -/
theorem canonicalForm_remainder (unitary : u.Unitary) (exactly : ExactlyDiagonalized (remainder u)) :
    ∃ f : Form ℝ, canonicalForm (remainder u) = .ok f ∧ f.Factored ∧ f.matrix = remainder u ∧ f.c = 0 :=
  canonicalForm_of_real_trace (remainder_unitary unitary) (det_remainder unitary) exactly (realTraceTransform_real _)

/-! ## Interactions about two axes -/

/-- Nothing is split off from an interaction about the first two axes whose inner rows outweigh the outer ones. -/
theorem remainder_interaction {a b : ℝ} (order : Real.cos (2 * (a - b)) ≤ Real.cos (2 * (a + b))) :
    remainder (interaction a b 0) = interaction a b 0 := by
  have still : unimodular (interaction a b 0) = interaction a b 0 := by
    apply Square.toMatrix_injective
    rw [toMatrix_unimodular (interaction_unitary a b 0), toMatrix_specialUnitary_interaction, toMatrix_interaction, coupling]
  have none : traceAngle (interaction a b 0) = 0 := by
    rw [traceAngle, outerRows_interaction, innerRows_interaction, Complex.arg_eq_zero_iff]
    exact ⟨sub_nonneg.mpr order, by simp only [Complex.ofReal_im, add_zero]⟩
  rw [remainder, still, realTraceTransform_eq, none, opposed_zero_mul]

/-- Nothing is split off where the two angles are opposite. -/
theorem remainder_opposite (t : ℝ) : remainder (interaction t (-t) 0) = interaction t (-t) 0 := by
  apply remainder_interaction
  rw [add_neg_cancel, mul_zero, Real.cos_zero]
  exact Real.cos_le_one _

/-- A half turn reverses the second of two opposite angles, so the canonical form has two equal ones. -/
theorem canonicalForm_opposite {t : ℝ} (nonneg : 0 ≤ t) (inner : t < Real.pi / 4) :
    ∃ f : Form ℝ, canonicalForm (interaction t (-t) 0) = .ok f ∧ f.Factored ∧ f.matrix = interaction t (-t) 0 ∧
      f.a = t ∧ f.b = t ∧ f.c = 0 := by
  have unitary := interaction_unitary t (-t) 0
  have exactly := exactlyDiagonalized_interaction t (-t) 0
  obtain ⟨f, canonical, factored, denotes, -⟩ := canonicalForm_remainder unitary (by rwa [remainder_opposite])
  rw [remainder_opposite] at canonical denotes
  have reversed : Axis.x.sense * angles t t 0 = angles t (-t) 0 := by
    funext k
    cases k <;> simp [Axis.sense, angles]
  have related := upToLocal_sense .x (angles t t 0)
  rw [reversed, ← toMatrix_interaction t (-t) 0] at related
  have inside : Ordered (angles t t 0) := ⟨le_rfl, by simpa [angles] using nonneg⟩
  have read := coordinates_of_upToLocal unitary exactly inside inner related
  obtain ⟨a, b, c⟩ : f.a = t ∧ f.b = t ∧ f.c = 0 := by
    simpa only [coordinates_of_canonicalForm canonical, Except.ok.injEq, Prod.mk.injEq] using read
  exact ⟨f, canonical, factored, denotes, a, b, c⟩

/-- With two small angles the fit to a swap's power gives a third one back, and a third controlled-not. -/
theorem decomposeUpToDiagonal_small {t : ℝ} (large : 0.000026 ≤ t) (small : t ≤ 0.00004) :
    ∃ r, decomposeUpToDiagonal (interaction t (-t) 0) = .ok r ∧ r.circuit.count "cx" = 3 := by
  obtain ⟨f, canonical, factored, denotes, a, b, c⟩ :=
    canonicalForm_opposite (t := t) (by linarith) (by linarith [Real.pi_gt_three])
  obtain ⟨target, decomposed⟩ : ∃ target, Decomposition.ofForm f.matrix f ⟨some 0.999999999, none⟩ = .ok target := by
    have possible : (0.999999999 : ℝ) ≤ 1 := by norm_num
    obtain ⟨fit, -, kept, -⟩ := ofForm_fits factored (canonicalForm_inChamber canonical) possible
    exact ⟨_, kept⟩
  rw [denotes] at decomposed
  have fitted := ofUnitary_eq_ok.mpr ⟨f, canonical, decomposed⟩
  have chosen : target.fitted = .partialSwap := (ofForm_fitted decomposed).trans
    (nearestClass_partialSwap (b.trans a.symm) c (large.trans_eq a.symm) (a.trans_le small))
  obtain ⟨flat, -⟩ := ofUnitary_flat canonical c fitted
  rw [← default_eq, ← remainder_opposite] at fitted
  obtain ⟨r, result, -, most, two⟩ := exists_decomposeUpToDiagonal fitted
  have more : ¬ r.circuit.count "cx" ≤ 2 := by
    rw [two, flat, chosen]
    decide
  exact ⟨r, result, by omega⟩

/-! ## The count -/

/-- The diagonal has entries of modulus one. At most three controlled-nots stand in the circuit, and at most two
exactly if the form fitted to the remainder has no third angle. The remainder itself has none: two are enough if the
fit is perfect, and otherwise exactly in the classes that do not give the angle back. -/
theorem decomposeUpToDiagonal_count (unitary : u.Unitary)
    (fitted : Decomposition.ofUnitary (remainder u) .default = .ok target) :
    ∃ r, decomposeUpToDiagonal u = .ok r ∧ (∀ i j, ‖(r.diagonal i j).toComplex‖ = if i = j then 1 else 0) ∧
      r.circuit.count "cx" ≤ 3 ∧ (r.circuit.count "cx" ≤ 2 ↔ target.c = 0) ∧
      (ExactlyDiagonalized (remainder u) →
        (∃ a b, coordinates (remainder u) = .ok (a, b, 0)) ∧
          (target.calculated = 1 → r.circuit.count "cx" ≤ 2) ∧
          (r.circuit.count "cx" ≤ 2 ↔
            target.fitted ∈ [.general, .identity, .controlled, .mirrorControlled, .aab])) := by
  obtain ⟨r, decomposed, diagonal, most, two⟩ := exists_decomposeUpToDiagonal fitted
  refine ⟨r, decomposed, fun i j => ?_, most, two, fun exactly => ?_⟩
  · rw [diagonal, norm_conj_realTraceTransform]
  · obtain ⟨f, canonical, -, -, zero⟩ := canonicalForm_remainder unitary exactly
    rw [default_eq] at fitted
    obtain ⟨flat, perfect⟩ := ofUnitary_flat canonical zero fitted
    refine ⟨⟨f.a, f.b, ?_⟩, fun full => two.mpr (perfect full), two.trans flat⟩
    rw [coordinates_of_canonicalForm canonical, zero]

/-- An interaction about the first axis has one angle, and two controlled-nots are enough. -/
theorem decomposeUpToDiagonal_count_single :
    ∃ r, decomposeUpToDiagonal (single .x (1 / 2)) = .ok r ∧
      (∀ i j, ‖(r.diagonal i j).toComplex‖ = if i = j then 1 else 0) ∧ r.circuit.count "cx" ≤ 2 := by
  have size : |(1 / 2 : ℝ)| = 1 / 2 := abs_of_pos (by norm_num)
  have whole : remainder (single .x (1 / 2)) = single .x (1 / 2) := remainder_interaction (by simp)
  obtain ⟨target, fitted, -, -, -, -, third⟩ :=
    ofUnitary_single .x (t := 1 / 2) (by rw [size]; norm_num) (by rw [size]; linarith [Real.pi_gt_three])
  rw [← whole] at fitted
  obtain ⟨r, decomposed, modulus, -, two, -⟩ := decomposeUpToDiagonal_count (single_unitary .x (1 / 2)) fitted
  exact ⟨r, decomposed, modulus, two.mpr third⟩

theorem decomposeUpToDiagonal_three :
    (interaction 0.00003 (-0.00003) 0 : Mat4 ℝ).Unitary ∧
      ∃ r, decomposeUpToDiagonal (interaction (0.00003 : ℝ) (-0.00003) 0) = .ok r ∧ r.circuit.count "cx" = 3 :=
  ⟨interaction_unitary _ _ _, decomposeUpToDiagonal_small (by norm_num) (by norm_num)⟩

end Synthesis

end Entangle

end
