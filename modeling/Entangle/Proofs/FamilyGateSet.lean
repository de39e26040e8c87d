import Mathlib
import Entangle.Proofs.FamilyCircuit
import Entangle.Proofs.FamilyProbes

/-!
# The gates of a circuit over a family

Corrections are emitted in the gate set, and their adjoints are taken gate by gate. Every set is closed under
that but for the square root of `X`, whose adjoint belongs to none of them: over the three sets that have the
root, a circuit can have its adjoint too. Over the other nine, every gate on one qubit is of the set.
-/

namespace Entangle

open Circuit (Instruction Sequence)
open Gate (Operation Standard)

/-- The adjoint of a gate of a set is in that set, or is that of the square root of `X`. -/
theorem Euler.Basis.adjoint_mem {basis : Basis} {g : Standard} (member : g ∈ basis.gates) :
    g.adjoint ∈ basis.gates ∨ g.adjoint = .sxdg ∧ .sx ∈ basis.gates := by
  have all : ∀ basis ∈ Basis.all, ∀ g ∈ basis.gates,
      g.adjoint ∈ basis.gates ∨ g.adjoint = .sxdg ∧ .sx ∈ basis.gates := by decide
  exact all basis (by cases basis <;> decide) g member

namespace Family

open Weyl (Decomposition)

/-- What stands in a circuit over a family. -/
inductive Stands {α : Type} (basis : Euler.Basis) (gate : Operation α) : Instruction α → Prop
  /-- a gate of the set on one qubit -/
  | correction {g : Standard} {params : List α} {q : ℤ} (member : g ∈ basis.gates) :
      Stands basis gate ⟨.standard g, params, [q]⟩
  /-- the adjoint of the square root of `X`, where the set has the root -/
  | rootAdjoint {params : List α} {q : ℤ} (root : Standard.sx ∈ basis.gates) :
      Stands basis gate ⟨.standard .sxdg, params, [q]⟩
  /-- the family on both qubits -/
  | interaction {params : List α} : Stands basis gate ⟨gate, params, [0, 1]⟩

section Kinds

variable {α : Type} [Scalar α] {basis : Euler.Basis} {gate : Operation α} {i j : Instruction α} {q : ℤ}

omit [Scalar α] in
/-- A gate with one angle has itself as its adjoint. -/
theorem adjoint_of_angles (angles : gate.angles = .ok 1) : gate.adjoint = gate := by
  cases gate with
  | standard g =>
    have one : g.angles = 1 := by exact_mod_cast Except.ok.inj angles
    exact congrArg _ (Standard.adjoint_of_angles one).symm
  | undefined number => rfl
  | family f => rfl
  | custom c => rfl

/-- The adjoint of what stands in a circuit can stand there. -/
theorem Stands.inverts (angles : gate.angles = .ok 1) (stands : Stands basis gate i) (inverts : i.Inverts j) :
    Stands basis gate j := by
  obtain ⟨op, params, wires⟩ := j
  obtain ⟨same, inverse⟩ := inverts
  dsimp only at same inverse
  subst same
  obtain rfl := Operation.inverse_eq_ok inverse
  cases stands with
  | correction member =>
    rename_i g _ _
    rcases Euler.Basis.adjoint_mem member with kept | ⟨adjoint, root⟩
    · exact .correction kept
    · change Stands basis gate ⟨.standard g.adjoint, _, _⟩
      rw [adjoint]
      exact .rootAdjoint root
  | rootAdjoint root => exact .correction root
  | interaction =>
    rw [adjoint_of_angles angles]
    exact .interaction

end Kinds

namespace Decomposer

section Circuits

variable {α : Type} [Scalar α] {d : Decomposer α} {gate : Operation α} {o : Options} {basis : Euler.Basis} {s t : Sequence α}
  {u : Mat4 α} {target : Decomposition α} {q : ℤ}

theorem stands_appendBoth {part : Sequence α} (each : s.Over (Stands basis gate)) (both : part.Over (Euler.Emitted basis.gates q)) :
    (appendBoth s part).Over (Stands basis gate) := by
  intro i member
  rcases List.mem_append.mp member with old | new
  · exact each i old
  · obtain ⟨⟨op, params, wires⟩, inside, copied⟩ := List.mem_flatMap.mp new
    obtain ⟨g, listed, rfl, -⟩ := both _ inside
    simp only [List.mem_cons, List.not_mem_nil, or_false] at copied
    rcases copied with rfl | rfl
    · exact .correction listed
    · exact .correction listed

variable (angles : d.gate.angles = .ok 1)

include angles

omit angles

end Circuits

/-! ## Rotations about the third axis -/

noncomputable section

open Matrix hiding single
open Complex
open Circuit.Sequence (placed placed_mul tensor_eq_placed)
open Euler (Angles)
open Weyl (single)

/-- A unitary whose polar angle is small is near a diagonal one. -/
theorem near_diagonal {v : Mat2 ℝ} (unitary : v.Unitary) {δ : ℝ} (flat : |(Angles.zyz v).theta| ≤ δ) (q : ℤ) :
    ∃ w : OneQubit, w 0 1 = 0 ∧ w 1 0 = 0 ∧ ‖w 0 0‖ = 1 ∧ ‖w 1 1‖ = 1 ∧ Near (δ / 2) (placed q v.toMatrix) (placed q w) := by
  have close := Euler.near_product q (Angles.zyz v) .z .y 0
  rw [Euler.flat_product, Euler.zyz_product unitary, zero_sub, abs_neg] at close
  refine ⟨_, ?_, ?_, ?_, ?_, (close.mono (by linarith)).symm⟩
  all_goals rw [Weyl.Axis.rotation_z_eq]
  · simp
  · simp
  · simp [Complex.norm_exp]
  · simp [Complex.norm_exp]

/-- Corrections near diagonal ones cannot turn an interaction about the first axis to the third. -/
theorem exists_polar {own : Decomposition ℝ} (factored : own.Factored) (a : own.a = 1 / 2) (b : own.b = 0) (c : own.c = 0)
    (corner : own.reconstruct.toMatrix 0 3 = 0) :
    ∃ v ∈ [own.k2r, own.k2l, own.k1r, own.k1l], 1e-12 ≤ |(Angles.zyz v).theta| := by
  by_contra flat
  simp only [List.mem_cons, List.not_mem_nil, or_false, exists_eq_or_imp, exists_eq_left, not_or, not_le] at flat
  obtain ⟨flat2r, flat2l, flat1r, flat1l⟩ := flat
  obtain ⟨w1l, w1l01, w1l10, w1l00, w1l11, near1l⟩ := near_diagonal factored.outerLeft flat1l.le 1
  obtain ⟨w1r, w1r01, w1r10, w1r00, w1r11, near1r⟩ := near_diagonal factored.outerRight flat1r.le 0
  obtain ⟨w2l, w2l01, w2l10, w2l00, w2l11, near2l⟩ := near_diagonal factored.innerLeft flat2l.le 1
  obtain ⟨w2r, w2r01, w2r10, w2r00, w2r11, near2r⟩ := near_diagonal factored.innerRight flat2r.le 0
  have middle := Near.refl (Weyl.interaction_unitary own.a own.b own.c)
  have chain := (((near1l.mul near1r).mul middle).mul (near2l.mul near2r)).exp_smul own.phase
  rw [← tensor_eq_placed, ← tensor_eq_placed, ← tensor_eq_placed, ← tensor_eq_placed, Weyl.toMatrix_interaction] at chain
  have entry := chain.entry 0 3
  have same : (exp (own.phase * I) • (tensor own.k1l.toMatrix own.k1r.toMatrix * Weyl.coupling (Weyl.angles own.a own.b own.c) *
      tensor own.k2l.toMatrix own.k2r.toMatrix)) 0 3 = 0 := by
    rw [← corner, Decomposition.reconstruct, Weyl.toMatrix_form, Weyl.dressed]
  have large : ‖(exp (own.phase * I) • (tensor w1l w1r * Weyl.coupling (Weyl.angles own.a own.b own.c) * tensor w2l w2r)) 0 3‖ =
      Real.sin (1 / 2) := by
    have value : (tensor w1l w1r * Weyl.coupling (Weyl.angles own.a own.b own.c) * tensor w2l w2r) 0 3 =
        w1l 0 0 * w1r 0 0 * (I * sin (1 / 2 : ℝ)) * (w2l 1 1 * w2r 1 1) := by
      obtain ⟨h0, h1, h2, h3⟩ := high_values
      obtain ⟨l0, l1, l2, l3⟩ := low_values
      rw [Weyl.coupling_eq_cross, Weyl.cross, a, b, c]
      simp [Matrix.mul_apply, Fin.sum_univ_four, tensor_apply, h0, h1, h2, h3, l0, l1, l2, l3, w1l01, w1r01, w2l01,
        w2r01, Weyl.angles]
    have positive : 0 ≤ Real.sin (1 / 2) := Real.sin_nonneg_of_nonneg_of_le_pi (by norm_num) (by linarith [Real.pi_gt_three])
    rw [Matrix.smul_apply, norm_smul, Complex.norm_exp_ofReal_mul_I, one_mul, value, norm_mul, norm_mul, norm_mul, norm_mul,
      norm_mul, Complex.norm_I, w1l00, w1r00, w2l11, w2r11, ← Complex.ofReal_sin, Complex.norm_real,
      Real.norm_of_nonneg positive]
    ring
  rw [same, zero_sub, norm_neg, large] at entry
  have sine := Real.sin_gt_sub_cube (x := 1 / 2) (by norm_num)
  norm_num at entry sine
  linarith

end

end Decomposer

end Family

end Entangle
