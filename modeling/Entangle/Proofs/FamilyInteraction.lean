import Mathlib
import Entangle.Proofs.FamilyCircuit
import Entangle.Proofs.FamilyProbes
import Entangle.Proofs.ThreeGatePulse

/-!
# Interactions over a gate family

Between the adjoints of its own corrections the family is the interaction about the first axis. Frame changes on
both qubits take it to the other axes, and where the third angle has the other sign the adjoint of the circuit
stands in. Each block denotes its interaction, phase included, within the tolerances of the corrections in it.
-/

noncomputable section

namespace Entangle

open Matrix Complex
open Weyl (Axis Decomposition)

/-! ## Both qubits -/

namespace Circuit.Sequence

open Family.Decomposer (appendBoth)

variable {s part : Sequence ℝ} {ε δ : ℝ} {v w : OneQubit} {z : TwoQubit}

/-- The exchange of the qubits. -/
def exchange : TwoQubit := !![1, 0, 0, 0; 0, 0, 1, 0; 0, 1, 0, 0; 0, 0, 0, 1]

theorem exchange_mem_unitary : exchange ∈ unitaryGroup (Fin 4) ℂ := by
  rw [mem_unitaryGroup_iff, exchange, ← Matrix.ext_iff]
  simp [Matrix.mul_apply, Fin.sum_univ_four, Fin.forall_fin_succ, Matrix.one_apply]

theorem placed_exchange (v : OneQubit) : exchange * placed 0 v * star exchange = placed 1 v := by
  rw [exchange, placed, placed, ← Matrix.ext_iff]
  simp [Matrix.mul_apply, Matrix.vecMul, dotProduct, Fin.sum_univ_four, Fin.forall_fin_succ, Matrix.one_apply]

/-- What is near on one qubit is as near on the other, and twice as far on both. -/
theorem near_tensor (near : Near ε (placed 0 v) (placed 0 w)) : Near (2 * ε) (tensor v v) (tensor w w) := by
  have other := ((Near.refl exchange_mem_unitary).mul near).mul (.refl (Unitary.star_mem exchange_mem_unitary))
  rw [placed_exchange, placed_exchange] at other
  rw [tensor_eq_placed, tensor_eq_placed]
  exact (other.mul near).mono (by linarith)

/-- Each gate on both qubits in turn, one after another, is the product on both qubits. -/
theorem exists_multiplies_both {is : List (Instruction ℝ)} (each : ∀ i ∈ is, ∃ m, i.Local 0 m) :
    ∃ p : OneQubit, Multiplies is (placed 0 p) ∧
      Multiplies (is.flatMap fun i => [{ i with qubits := [0] }, { i with qubits := [1] }]) (tensor p p) := by
  induction is with
  | nil =>
    have still : Multiplies [] 1 := .nil
    exact ⟨1, by rwa [placed_one], by rwa [tensor_one_one]⟩
  | cons i rest ih =>
    rw [List.forall_mem_cons] at each
    obtain ⟨⟨m, single⟩, others⟩ := each
    obtain ⟨p, multiplies, both⟩ := ih others
    have first : Instruction.Local { i with qubits := [0] } 0 m := ⟨single.gate, rfl, .inl rfl⟩
    have second : Instruction.Local { i with qubits := [1] } 1 m := ⟨single.gate, rfl, .inr rfl⟩
    refine ⟨p * m.toMatrix, ?_, ?_⟩
    · rw [← placed_mul]
      exact (Multiplies.single single.applies).append multiplies
    · rw [← tensor_mul_tensor, tensor_eq_placed m.toMatrix]
      exact ((Multiplies.single first.applies).append (Multiplies.single second.applies)).append both

/-- A sequence for one qubit, appended on both, doubles its tolerance; its phase counts for both. -/
theorem Within.appendBoth (within : s.Within ε z) (written : part.Within δ (placed 0 v))
    (locals : part.Over fun i => ∃ m, i.Local 0 m) : (appendBoth s part).Within (ε + 2 * δ) (tensor v v * z) := by
  obtain ⟨x, ⟨n, multiplies, rfl⟩, near⟩ := within
  obtain ⟨y, ⟨m, multiplies', rfl⟩, near'⟩ := written
  obtain ⟨p, alone, both⟩ := exists_multiplies_both locals
  obtain rfl := multiplies'.unique alone
  rw [← placed_smul] at near'
  have product := (near_tensor near').mul near
  rw [add_comm] at product
  refine ⟨_, ⟨tensor p p * n, multiplies.append both, ?_⟩, product⟩
  have phases : exp ((Family.Decomposer.appendBoth s part).phase * I) =
      exp (part.phase * I) * exp (part.phase * I) * exp (s.phase * I) := by
    rw [← Complex.exp_add, ← Complex.exp_add]
    congr 1
    change ((s.phase + 2 * part.phase : ℝ) : ℂ) * I = _
    push_cast
    ring
  rw [phases, tensor_smul_left, tensor_smul_right, smul_smul, Matrix.smul_mul, Matrix.mul_smul, smul_smul]

end Circuit.Sequence

/-! ## Frame changes -/

namespace Gate

/-- The phase gate takes the first axis to the second. -/
theorem sMatrix_mul_halfTurn :
    (sMatrix : Mat2 ℝ).toMatrix * Axis.x.halfTurn = Axis.y.halfTurn * (sMatrix : Mat2 ℝ).toMatrix := by
  rw [sMatrix, Mat2.toMatrix_of]
  ext i j
  fin_cases i <;> fin_cases j <;> simp [Axis.halfTurn, Cx.toComplex_mk]

theorem sMatrix_unitary : (sMatrix : Mat2 ℝ).Unitary := by
  rw [Square.Unitary, mem_unitaryGroup_iff, sMatrix, Mat2.toMatrix_of]
  ext i j
  fin_cases i <;> fin_cases j <;> simp [Cx.toComplex_mk, Matrix.mul_apply]

theorem toMatrix_sdgMatrix : (sdgMatrix : Mat2 ℝ).toMatrix = (sMatrix : Mat2 ℝ).toMatrixᴴ :=
  toMatrix_adjoint (by simp) (by simp) (by simp) (by simp [Cx.toComplex_mk])

/-- The Hadamard gate takes the first axis to the third. -/
theorem hMatrix_mul_halfTurn :
    (hMatrix : Mat2 ℝ).toMatrix * Axis.x.halfTurn = Axis.z.halfTurn * (hMatrix : Mat2 ℝ).toMatrix := by
  rw [hMatrix, Mat2.toMatrix_of]
  ext i j
  fin_cases i <;> fin_cases j <;> simp [Axis.halfTurn, mul_comm]

end Gate

namespace Weyl

theorem tensor_mul_couple {w : OneQubit} {j k : Axis} (frame : w * j.halfTurn = k.halfTurn * w) (t : ℝ) :
    tensor w w * j.couple t = k.couple t * tensor w w := by
  have pairs : tensor w w * j.pair = k.pair * tensor w w := by
    rw [Axis.pair, Axis.pair, tensor_mul_tensor, tensor_mul_tensor, frame]
  rw [Axis.couple, Axis.couple, Matrix.mul_sub, Matrix.sub_mul, Matrix.mul_smul, Matrix.mul_smul, Matrix.smul_mul,
    Matrix.smul_mul, pairs, Matrix.mul_one, Matrix.one_mul]

/-- The interaction by three angles is that about one axis after the other. -/
theorem couple_mul_couple_mul_couple (a b c : ℝ) :
    Axis.z.couple c * (Axis.y.couple b * Axis.x.couple a) = coupling (angles a b c) := by
  rw [← coupling_single, ← coupling_single, ← coupling_single, coupling_mul, coupling_mul]
  congr 1
  funext k
  cases k <;> simp [angles]

end Weyl

/-! ## Blocks -/

namespace Family.Decomposer

open Circuit (Instruction Sequence)
open Circuit.Sequence (Within placed tensor_eq_placed)
open Gate (Operation)

variable {gate : Operation ℝ} {o : Options} {d : Decomposer ℝ} {s : Sequence ℝ} {angle atol c ε : ℝ} {z : TwoQubit}
  {target : Decomposition ℝ}

/-- At an angle the family is the interaction by that angle up to its own corrections, exactly, and its adjoint has
the adjoint matrix. -/
structure Realized (d : Decomposer ℝ) (angle : ℝ) (g : Mat4 ℝ) (own : Decomposition ℝ) : Prop where
  stored : d.gate.matrix4 [d.scale * angle] = .ok g
  unitary : g.Unitary
  decomposed : Decomposition.ofUnitary g .default = .ok own
  first : own.a = -angle / 2
  second : own.b = 0
  third : own.c = 0
  exact : own.reconstruct = g
  adjoint : ∃ op params, d.gate.inverse [d.scale * angle] = .ok (op, params) ∧ op.qubits = .ok 2 ∧
    op.matrix4 params = .ok g.dagger

def Realizes (d : Decomposer ℝ) (angle : ℝ) : Prop := ∃ g own, d.Realized angle g own

/-- A frame change is written within the tolerance of a correction, by gates on one qubit. -/
theorem frame_within {m : Mat2 ℝ} {t : Sequence ℝ} (unitary : m.Unitary) (written : Euler.decompose m d.euler .default = .ok t) :
    t.Within 15e-13 (placed 0 m.toMatrix) ∧ t.Over fun i => ∃ m, i.Local 0 m := by
  obtain ⟨t', written', within, locals⟩ := d.exists_oneQubit m (.inl rfl)
  obtain rfl := Except.ok.inj (written.symm.trans written')
  rw [d.euler.product_eq unitary] at within
  exact ⟨within, locals⟩

/-- Between frame changes on both qubits an interaction is one about another axis. -/
theorem framed_within {before middle after : Sequence ℝ} {m m' : Mat2 ℝ} {k : Axis} {t : ℝ} (unitary : m.Unitary)
    (adjoint : m'.toMatrix = m.toMatrixᴴ) (frame : m.toMatrix * Axis.x.halfTurn = k.halfTurn * m.toMatrix)
    (first : Euler.decompose m' d.euler .default = .ok before) (second : middle.Within 6e-12 (Axis.x.couple t))
    (last : Euler.decompose m d.euler .default = .ok after) (within : s.Within ε z) :
    (appendBoth ((appendBoth s before).extend middle) after).Within (ε + 12e-12) (k.couple t * z) := by
  have unitary' : m'.Unitary := by
    rw [Square.Unitary, adjoint]
    exact Unitary.star_mem unitary
  obtain ⟨opened, locals⟩ := frame_within unitary' first
  obtain ⟨closed, locals'⟩ := frame_within unitary last
  have inverse : m.toMatrix * m.toMatrixᴴ = 1 := mem_unitaryGroup_iff.mp unitary
  have whole := ((within.appendBoth opened locals).extend second).appendBoth closed locals'
  have intended : tensor m.toMatrix m.toMatrix * (Axis.x.couple t * (tensor m'.toMatrix m'.toMatrix * z)) = k.couple t * z := by
    rw [← Matrix.mul_assoc, Weyl.tensor_mul_couple frame, Matrix.mul_assoc, ← Matrix.mul_assoc (tensor _ _), tensor_mul_tensor,
      adjoint, inverse, tensor_one_one, Matrix.one_mul]
  rw [intended] at whole
  exact whole.mono (by norm_num; linarith)

/-- The adjoint of a unitary is written on either qubit, by gates with an adjoint. -/
theorem exists_wireInverse {v : Mat2 ℝ} (unitary : v.Unitary) {q : ℤ} (local' : q = 0 ∨ q = 1) :
    ∃ t, d.oneQubitInverse v q = .ok t ∧ t.Within 15e-13 (placed q v.toMatrixᴴ) ∧ t.Over Instruction.Reversible := by
  obtain ⟨t, written, within, locals⟩ := d.exists_oneQubitInverse v local'
  rw [d.euler.product_eq unitary] at within
  exact ⟨t, written, within, locals.mono fun i single => single.elim fun m single => single.reversible⟩

/-- Without its own factors and its phase, a matrix with an angle about the first axis alone is that interaction. -/
theorem undressed_eq {own : Decomposition ℝ} (factored : own.Factored) (b : own.b = 0) (c : own.c = 0) :
    placed 1 own.k1l.toMatrixᴴ * (placed 0 own.k1r.toMatrixᴴ * (own.reconstruct.toMatrix * (placed 1 own.k2l.toMatrixᴴ *
      (placed 0 own.k2r.toMatrixᴴ * exp ((-own.phase : ℝ) * I) • 1)))) = Axis.x.couple own.a := by
  have still (k : Axis) : k.couple 0 = 1 := by simp [Axis.couple]
  have denotes : own.reconstruct.toMatrix = exp (own.phase * I) • (tensor own.k1l.toMatrix own.k1r.toMatrix *
      Axis.x.couple own.a * tensor own.k2l.toMatrix own.k2r.toMatrix) := by
    rw [Decomposition.reconstruct, Weyl.toMatrix_form, Weyl.dressed, ← Weyl.couple_mul_couple_mul_couple, b, c, still, still,
      Matrix.one_mul, Matrix.one_mul]
  have outer : tensor own.k1l.toMatrixᴴ own.k1r.toMatrixᴴ * tensor own.k1l.toMatrix own.k1r.toMatrix = 1 := by
    rw [← tensor_conjTranspose]
    exact mem_unitaryGroup_iff'.mp (tensor_mem_unitary factored.outerLeft factored.outerRight)
  have inner : tensor own.k2l.toMatrix own.k2r.toMatrix * tensor own.k2l.toMatrixᴴ own.k2r.toMatrixᴴ = 1 := by
    rw [← tensor_conjTranspose]
    exact mem_unitaryGroup_iff.mp (tensor_mem_unitary factored.innerLeft factored.innerRight)
  have phase : exp ((-own.phase : ℝ) * I) * exp (own.phase * I) = 1 := by
    rw [← Complex.exp_add, Complex.ofReal_neg, neg_mul, neg_add_cancel, Complex.exp_zero]
  calc
    _ = exp ((-own.phase : ℝ) * I) • (tensor own.k1l.toMatrixᴴ own.k1r.toMatrixᴴ * own.reconstruct.toMatrix *
        tensor own.k2l.toMatrixᴴ own.k2r.toMatrixᴴ) := by
      rw [tensor_eq_placed, tensor_eq_placed]
      simp only [Matrix.mul_smul, Matrix.mul_one, Matrix.mul_assoc]
    _ = (exp ((-own.phase : ℝ) * I) * exp (own.phase * I)) •
        ((tensor own.k1l.toMatrixᴴ own.k1r.toMatrixᴴ * tensor own.k1l.toMatrix own.k1r.toMatrix) * Axis.x.couple own.a *
          (tensor own.k2l.toMatrix own.k2r.toMatrix * tensor own.k2l.toMatrixᴴ own.k2r.toMatrixᴴ)) := by
      rw [denotes, mul_smul]
      simp only [Matrix.mul_smul, Matrix.smul_mul, Matrix.mul_assoc]
    _ = _ := by rw [phase, outer, inner, one_smul, Matrix.one_mul, Matrix.mul_one]

/-- The family between the adjoints of its own corrections is the interaction about the first axis. -/
theorem exists_toInteraction (arity : d.gate.qubits = .ok 2) (realizes : d.Realizes angle) :
    ∃ s, d.toInteraction angle = .ok s ∧ s.Within 6e-12 (Axis.x.couple (-angle / 2)) ∧ s.Over Instruction.Reversible := by
  obtain ⟨g, own, stored, unitary, decomposed, a, b, c, exact, op, params, inverted, arity', stored'⟩ := realizes
  have factored : own.Factored := Weyl.ofUnitary_factored decomposed (by rw [exact]; exact unitary)
  obtain ⟨innerRight, first, within1, each1⟩ := d.exists_wireInverse factored.innerRight (.inl rfl)
  obtain ⟨innerLeft, second, within2, each2⟩ := d.exists_wireInverse factored.innerLeft (.inr rfl)
  obtain ⟨outerRight, third, within3, each3⟩ := d.exists_wireInverse factored.outerRight (.inl rfl)
  obtain ⟨outerLeft, fourth, within4, each4⟩ := d.exists_wireInverse factored.outerLeft (.inr rfl)
  have applies : Instruction.Applies ⟨d.gate, [d.scale * angle], [0, 1]⟩ g.toMatrix := fun index =>
    ⟨g, Sequence.twoQubitMatrix_two arity stored index, rfl⟩
  have reversible : Instruction.Reversible ⟨d.gate, [d.scale * angle], [0, 1]⟩ :=
    ⟨⟨op, params, [0, 1]⟩, g.toMatrix, ⟨rfl, inverted⟩, applies, fun index =>
      ⟨g.dagger, Sequence.twoQubitMatrix_two arity' stored' index, Square.toMatrix_dagger g⟩⟩
  have intended := undressed_eq factored b c
  rw [exact, a] at intended
  refine ⟨_, toInteraction_eq_ok.mpr ⟨g, own, innerRight, innerLeft, outerRight, outerLeft, stored, decomposed, first, second,
    third, fourth, rfl⟩, ?_, ?_⟩
  · have whole := (((((Within.empty (-own.phase)).extend within1).extend within2).push unitary applies).extend within3).extend
      within4
    rw [intended] at whole
    exact whole.mono (by norm_num)
  · exact ((((Sequence.Over.empty _).extend each1).extend each2).push reversible |>.extend each3).extend each4

/-- The circuit of the third angle is that interaction, whatever its sign. -/
theorem exists_thirdInteraction (arity : d.gate.qubits = .ok 2) (realizes : d.Realizes (-2 * |c|)) :
    ∃ s, d.thirdInteraction c = .ok s ∧ s.Within 6e-12 (Axis.x.couple c) := by
  obtain ⟨s, turned, within, reversible⟩ := exists_toInteraction arity realizes
  have half : -(-2 * |c|) / 2 = |c| := by ring
  rw [half] at within
  rcases le_or_gt 0 c with nonneg | negative
  · rw [abs_of_nonneg nonneg] at turned within
    have test : -2 * c ≤ 0 := by linarith
    refine ⟨s, ?_, within⟩
    rw [thirdInteraction, Exact.zero_eq]
    exact (if_pos test).trans turned
  · rw [abs_of_neg negative] at turned within
    obtain ⟨t, inverted, within'⟩ := within.inverse reversible
    have test : ¬ -2 * c ≤ 0 := by linarith
    have sign : -(-2 * c) = -2 * -c := by ring
    rw [← sign] at turned
    refine ⟨t, ?_, ?_⟩
    · rw [thirdInteraction, Exact.zero_eq]
      exact (if_neg test).trans (bind_eq_ok.mpr ⟨s, turned, inverted⟩)
    · rwa [← Weyl.coupling_single, Weyl.coupling_conjTranspose, ← Pi.single_neg, neg_neg, Weyl.coupling_single] at within'

/-- The second angle follows about its axis, or is left out within the tolerance. -/
theorem exists_appendSecond (built : Built gate o d) (small : atol ≤ 1e-12)
    (realizes : atol < |target.b| → d.Realizes (-2 * target.b)) (within : s.Within ε z) :
    ∃ t, d.appendSecond s target atol = .ok t ∧ t.Within (ε + 12e-12) (Axis.y.couple target.b * z) := by
  unfold appendSecond
  rw [Exact.abs_eq]
  split
  next large =>
    obtain ⟨yy, turned, within'⟩ := exists_toInteraction (built.sameGate ▸ built.qubits) (realizes large)
    have half : -(-2 * target.b) / 2 = target.b := by ring
    rw [half] at within'
    refine ⟨_, bind_eq_ok.mpr ⟨yy, turned, rfl⟩, ?_⟩
    exact framed_within Gate.sMatrix_unitary Gate.toMatrix_sdgMatrix Gate.sMatrix_mul_halfTurn (built.sameEuler ▸ built.frameSdg)
      within'.1 (built.sameEuler ▸ built.frameS) within
  next dropped =>
    refine ⟨s, rfl, (within.absorb (Circuit.Sequence.near_couple .y target.b)).mono ?_⟩
    norm_num at small ⊢
    linarith

/-- So does the third. -/
theorem exists_appendThird (built : Built gate o d) (small : atol ≤ 1e-12)
    (realizes : atol < |target.c| → d.Realizes (-2 * |target.c|)) (within : s.Within ε z) :
    ∃ t, d.appendThird s target atol = .ok t ∧ t.Within (ε + 12e-12) (Axis.z.couple target.c * z) := by
  unfold appendThird
  rw [Exact.abs_eq]
  split
  next large =>
    obtain ⟨zz, turned, within'⟩ := exists_thirdInteraction (built.sameGate ▸ built.qubits) (realizes large)
    refine ⟨_, bind_eq_ok.mpr ⟨zz, turned, rfl⟩, ?_⟩
    have adjoint : (Gate.hMatrix : Mat2 ℝ).toMatrix = (Gate.hMatrix : Mat2 ℝ).toMatrixᴴ := Circuit.Sequence.hadamard_adjoint.symm
    exact framed_within Circuit.Sequence.hadamard_mem_unitary adjoint Gate.hMatrix_mul_halfTurn (built.sameEuler ▸ built.frameH)
      within' (built.sameEuler ▸ built.frameH) within
  next dropped =>
    refine ⟨s, rfl, (within.absorb (Circuit.Sequence.near_couple .z target.c)).mono ?_⟩
    norm_num at small ⊢
    linarith

end Family.Decomposer

end Entangle

end
