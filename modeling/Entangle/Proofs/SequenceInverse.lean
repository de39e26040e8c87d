import Mathlib
import Entangle.Proofs.Approximation
import Entangle.Proofs.Emission
import Entangle.Proofs.EmittedGates

/-!
# The adjoint of a sequence

The adjoint of a sequence has the adjoint of each instruction, in reverse order. A standard gate has a fixed
gate as its adjoint, whatever its angles. Where every instruction has an adjoint with the adjoint matrix, the
adjoint sequence denotes the adjoint unitary, within the same tolerance, and has such an adjoint itself.
-/

namespace Entangle

open Circuit (Instruction Sequence)
open Gate (Operation Standard)

/-! ## Instructions -/

section Structure

variable {α : Type} [Scalar α]

/-- The gate of the adjoint of a standard gate. -/
def Gate.Standard.adjoint : Standard → Standard
  | .s => .sdg
  | .sdg => .s
  | .t => .tdg
  | .tdg => .t
  | .sx => .sxdg
  | .sxdg => .sx
  | .u2 => .u3
  | g => g

theorem Gate.Standard.adjoint_of_angles {g : Standard} (one : g.angles = 1) : g = g.adjoint := by
  revert one
  cases g <;> decide

theorem Gate.Standard.inverse_eq_some {g g' : Standard} {params params' : List α}
    (inverted : g.inverse? params = some (g', params')) : g' = g.adjoint := by
  unfold inverse? at inverted
  split at inverted
  case h_20 =>
    split at inverted
    · rename_i one
      obtain ⟨rfl, -⟩ := Prod.mk.inj (Option.some.inj inverted)
      exact adjoint_of_angles one
    · cases inverted
  case h_21 => cases inverted
  all_goals
    obtain ⟨rfl, -⟩ := Prod.mk.inj (Option.some.inj inverted)
    rfl

/-- The operation of the adjoint: a gate of the caller's keeps its own. -/
def Gate.Operation.adjoint : Operation α → Operation α
  | .standard g => .standard g.adjoint
  | op => op

theorem Gate.Operation.inverse_eq_ok {op op' : Operation α} {params params' : List α}
    (inverted : op.inverse params = .ok (op', params')) : op' = op.adjoint := by
  cases op with
  | standard g =>
    rw [inverse] at inverted
    split at inverted
    · cases inverted
    split at inverted
    next g' params'' found =>
      obtain ⟨rfl, -⟩ := Prod.mk.inj (Except.ok.inj inverted)
      exact congrArg _ (Standard.inverse_eq_some found)
    next => cases inverted
  | undefined number => cases inverted
  | family f =>
    unfold inverse at inverted
    dsimp only at inverted
    split at inverted
    · split at inverted
      · exact (Prod.mk.inj (Except.ok.inj inverted)).1.symm
      · exact (Prod.mk.inj (Except.ok.inj inverted)).1.symm
    · cases inverted
  | custom c =>
    rw [inverse] at inverted
    cases found : c.inverseAngles params with
    | error fault =>
      rw [found] at inverted
      cases inverted
    | ok angles =>
      rw [found] at inverted
      exact (Prod.mk.inj (Except.ok.inj inverted)).1.symm

/-- An instruction and its adjoint, on the same qubits. -/
structure Circuit.Instruction.Inverts (i j : Instruction α) : Prop where
  qubits : j.qubits = i.qubits
  inverse : i.op.inverse i.params = .ok (j.op, j.params)

namespace Circuit.Sequence

theorem inverseInstructions_eq_ok {is js : List (Instruction α)} {index : ℕ} :
    inverseInstructions is index = .ok js ↔ List.Forall₂ Instruction.Inverts is js := by
  induction is generalizing index js with
  | nil =>
    rw [inverseInstructions, List.forall₂_nil_left_iff]
    exact ⟨fun same => (Except.ok.inj same).symm, fun same => congrArg _ same.symm⟩
  | cons i before ih =>
    rw [inverseInstructions]
    constructor
    · intro inverted
      obtain ⟨⟨op, params⟩, one, rest⟩ := bind_eq_ok.mp inverted
      obtain ⟨others, found, result⟩ := bind_eq_ok.mp rest
      obtain rfl := Except.ok.inj result
      exact .cons ⟨rfl, mapError_eq_ok.mp one⟩ (ih.mp found)
    · intro inverted
      cases inverted with
      | cons one rest =>
        rename_i j others
        refine bind_eq_ok.mpr ⟨(j.op, j.params), mapError_eq_ok.mpr one.inverse, ?_⟩
        refine bind_eq_ok.mpr ⟨others, ih.mpr rest, ?_⟩
        rw [← one.qubits]
        rfl

/-- The adjoint has the adjoint of each instruction, the last one first, and the negated phase. -/
theorem inverse_eq_ok {s t : Sequence α} :
    s.inverse = .ok t ↔ List.Forall₂ Instruction.Inverts s.instructions.reverse t.instructions ∧ t.phase = -s.phase := by
  constructor
  · intro inverted
    obtain ⟨js, found, result⟩ := bind_eq_ok.mp inverted
    obtain rfl := Except.ok.inj result
    exact ⟨inverseInstructions_eq_ok.mp found, rfl⟩
  · rintro ⟨found, phase⟩
    refine bind_eq_ok.mpr ⟨t.instructions, inverseInstructions_eq_ok.mpr found, ?_⟩
    rw [← phase]
    rfl

end Circuit.Sequence

theorem Circuit.Instruction.Inverts.kept {is js : List (Instruction α)} {kind kind' : Instruction α → Prop}
    (pairs : List.Forall₂ Inverts is js) (old : ∀ i ∈ is, kind i) (kept : ∀ i j, kind i → i.Inverts j → kind' j) :
    ∀ j ∈ js, kind' j := by
  induction pairs with
  | nil => simp
  | cons inverts rest ih =>
    rw [List.forall_mem_cons] at old ⊢
    exact ⟨kept _ _ old.1 inverts, ih old.2⟩

theorem Circuit.Sequence.exists_inverts {s t : Sequence α} (inverted : s.inverse = .ok t) {i : Instruction α}
    (member : i ∈ s.instructions) : ∃ j ∈ t.instructions, i.Inverts j := by
  have pairs := (inverse_eq_ok.mp inverted).1
  rw [← List.mem_reverse] at member
  obtain ⟨k, inside, rfl⟩ := List.mem_iff_getElem.mp member
  have inside' : k < t.instructions.length := pairs.length_eq ▸ inside
  exact ⟨_, List.getElem_mem inside', pairs.get inside inside'⟩

/-- What the adjoint of an instruction keeps, the adjoint of a sequence keeps. -/
theorem Circuit.Sequence.Over.inverse {s t : Sequence α} {kind kind' : Instruction α → Prop} (each : s.Over kind)
    (inverted : s.inverse = .ok t) (kept : ∀ i j, kind i → i.Inverts j → kind' j) : t.Over kind' :=
  Instruction.Inverts.kept (Sequence.inverse_eq_ok.mp inverted).1 (fun i member => each i (List.mem_reverse.mp member)) kept

end Structure

noncomputable section

open Matrix Complex
open Weyl (Axis)
open scoped Matrix.Norms.L2Operator

/-! ## Adjoint gates -/

namespace Gate

theorem toMatrix_adjoint {a b c d a' b' c' d' : Cx ℝ} (first : a'.toComplex = star a.toComplex)
    (second : b'.toComplex = star c.toComplex) (third : c'.toComplex = star b.toComplex)
    (fourth : d'.toComplex = star d.toComplex) : (Mat2.of a' b' c' d').toMatrix = (Mat2.of a b c d).toMatrixᴴ := by
  rw [Mat2.toMatrix_of, Mat2.toMatrix_of, first, second, third, fourth]
  ext i j
  fin_cases i <;> fin_cases j <;> rfl

theorem sxdgMatrix_eq : (sxdgMatrix : Mat2 ℝ).toMatrix = (sxMatrix : Mat2 ℝ).toMatrixᴴ := by
  have half : (starRingEnd ℂ) (0.5 : ℂ) = 0.5 := by
    have real : (0.5 : ℂ) = ((1 / 2 : ℝ) : ℂ) := by norm_num
    rw [real, Complex.conj_ofReal]
  refine toMatrix_adjoint ?_ ?_ ?_ ?_ <;> simp [Cx.toComplex_mk, half]

theorem phaseMatrix_adjoint (t : ℝ) : (phaseMatrix (-t)).toMatrix = (phaseMatrix t).toMatrixᴴ := by
  refine toMatrix_adjoint (by simp) (by simp) (by simp) ?_
  rw [Cx.toComplex_cis, Cx.toComplex_cis, Complex.star_def, ← Complex.exp_conj]
  simp

theorem u3Matrix_adjoint (theta phi lambda : ℝ) :
    (u3Matrix (-theta) (-lambda) (-phi)).toMatrix = (u3Matrix theta phi lambda).toMatrixᴴ := by
  rw [toMatrix_u3Matrix, toMatrix_u3Matrix, Matrix.conjTranspose_smul, Matrix.conjTranspose_mul, Matrix.conjTranspose_mul,
    Axis.rotation_conjTranspose, Axis.rotation_conjTranspose, Axis.rotation_conjTranspose, Matrix.mul_assoc]
  have phase : exp (((-lambda + -phi) / 2 : ℝ) * I) = star (exp (((phi + lambda) / 2 : ℝ) * I)) := by
    rw [Complex.star_def, ← Complex.exp_conj, map_mul, Complex.conj_ofReal, Complex.conj_I]
    congr 1
    push_cast
    ring
  rw [phase]

theorem rMatrix_adjoint (theta phi : ℝ) : (rMatrix (-theta) phi).toMatrix = (rMatrix theta phi).toMatrixᴴ := by
  rw [toMatrix_rMatrix, toMatrix_rMatrix, Matrix.conjTranspose_mul, Matrix.conjTranspose_mul, Axis.rotation_conjTranspose,
    Axis.rotation_conjTranspose, Axis.rotation_conjTranspose, neg_neg, Matrix.mul_assoc]

/-- The adjoint of a standard gate on one qubit has the adjoint matrix. -/
theorem Standard.matrix_adjoint {g : Standard} {params : List ℝ} {m : Mat2 ℝ} (known : g.matrix? params = some (.one m)) :
    ∃ params' m', (Operation.standard g).inverse params = .ok (.standard g.adjoint, params') ∧
      g.adjoint.matrix? params' = some (.one m') ∧ m'.toMatrix = m.toMatrixᴴ := by
  unfold matrix? at known
  split at known
  all_goals first
    | cases known; done
    | obtain rfl := GateMatrix.one.inj (Option.some.inj known)
  case h_1 => exact ⟨[], _, rfl, rfl, by simp⟩
  case h_2 => exact ⟨[], _, rfl, rfl, toMatrix_adjoint (by simp) (by simp) (by simp) (by simp)⟩
  case h_3 => exact ⟨[], _, rfl, rfl, toMatrix_adjoint (by simp) (by simp) (by simp) (by simp)⟩
  case h_4 => exact ⟨[], _, rfl, rfl, toMatrix_adjoint (by simp) (by simp [Cx.toComplex_mk]) (by simp [Cx.toComplex_mk]) (by simp)⟩
  case h_5 => exact ⟨[], _, rfl, rfl, toMatrix_adjoint (by simp) (by simp) (by simp) (by simp [Cx.toComplex_mk])⟩
  case h_6 | h_7 | h_8 | h_9 => exact ⟨[], _, rfl, rfl, toMatrix_adjoint (by simp) (by simp) (by simp) (by simp [Cx.toComplex_mk])⟩
  case h_10 => exact ⟨[], _, rfl, rfl, sxdgMatrix_eq⟩
  case h_11 => exact ⟨[], _, rfl, rfl, by rw [sxdgMatrix_eq, Matrix.conjTranspose_conjTranspose]⟩
  case h_12 a => exact ⟨[-a], _, rfl, rfl, by simp [Axis.rotation_conjTranspose]⟩
  case h_13 a => exact ⟨[-a], _, rfl, rfl, by simp [Axis.rotation_conjTranspose]⟩
  case h_14 a => exact ⟨[-a], _, rfl, rfl, by simp [Axis.rotation_conjTranspose]⟩
  case h_15 a => exact ⟨[-a], _, rfl, rfl, phaseMatrix_adjoint a⟩
  case h_16 a => exact ⟨[-a], _, rfl, rfl, phaseMatrix_adjoint a⟩
  case h_17 a b => exact ⟨[-Scalar.halfPi, -b, -a], _, rfl, rfl, u3Matrix_adjoint _ a b⟩
  case h_18 a b c => exact ⟨[-a, -c, -b], _, rfl, rfl, u3Matrix_adjoint a b c⟩
  case h_19 a b c => exact ⟨[-a, -c, -b], _, rfl, rfl, u3Matrix_adjoint a b c⟩
  case h_20 a b => exact ⟨[-a, b], _, rfl, rfl, rMatrix_adjoint a b⟩

/-- A standard gate on one qubit has a matrix of that size. -/
theorem Standard.matrix_of_qubits {g : Standard} {params : List ℝ} {stored : GateMatrix ℝ} (one : g.qubits = 1)
    (known : g.matrix? params = some stored) : ∃ m, stored = .one m := by
  unfold matrix? at known
  split at known
  all_goals first
    | cases known; done
    | obtain rfl := Option.some.inj known
  all_goals first
    | exact ⟨_, rfl⟩
    | cases one

end Gate

/-! ## Sequences -/

namespace Circuit

open Sequence (Denotes Multiplies Within placed product twoQubitMatrix)

/-- A standard gate on qubit 0 or 1. -/
structure Instruction.Local (i : Instruction ℝ) (q : ℤ) (m : Mat2 ℝ) : Prop where
  gate : ∃ g : Standard, i.op = .standard g ∧ g.qubits = 1 ∧ g.matrix? i.params = some (.one m)
  qubits : i.qubits = [q]
  wire : q = 0 ∨ q = 1

/-- An instruction multiplies by a matrix, wherever it stands. -/
def Instruction.Applies (i : Instruction ℝ) (m : TwoQubit) : Prop :=
  ∀ index, ∃ v, twoQubitMatrix index i = .ok v ∧ v.toMatrix = m

/-- An instruction has an adjoint that multiplies by the adjoint matrix. -/
def Instruction.Reversible (i : Instruction ℝ) : Prop :=
  ∃ (j : Instruction ℝ) (m : TwoQubit), i.Inverts j ∧ i.Applies m ∧ j.Applies mᴴ

namespace Instruction

variable {i j : Instruction ℝ} {q : ℤ} {m : Mat2 ℝ}

theorem Local.applies (single : i.Local q m) : i.Applies (placed q m.toMatrix) := by
  obtain ⟨op, params, qubits⟩ := i
  obtain ⟨⟨g, rfl, arity, known⟩, rfl, wire⟩ := single
  exact Sequence.twoQubitMatrix_one known arity wire

/-- The adjoint of a gate on one qubit is one on that qubit, with the adjoint matrix. -/
theorem Local.exists_inverse (single : i.Local q m) :
    ∃ j m', i.Inverts j ∧ j.Local q m' ∧ m'.toMatrix = m.toMatrixᴴ := by
  obtain ⟨g, op, arity, known⟩ := single.gate
  obtain ⟨params, m', inverse, stored, adjoint⟩ := Standard.matrix_adjoint known
  have one : g.adjoint.qubits = 1 := by
    revert arity
    cases g <;> decide
  exact ⟨⟨.standard g.adjoint, params, i.qubits⟩, m', ⟨rfl, op ▸ inverse⟩, ⟨⟨_, rfl, one, stored⟩, single.qubits, single.wire⟩,
    adjoint⟩

theorem Inverts.unique {j' : Instruction ℝ} (first : i.Inverts j) (second : i.Inverts j') : j = j' := by
  obtain ⟨op, params, qubits⟩ := j
  obtain ⟨op', params', qubits'⟩ := j'
  obtain ⟨same, inverse⟩ := first
  obtain ⟨same', inverse'⟩ := second
  obtain ⟨rfl, rfl⟩ := Prod.mk.inj (Except.ok.inj (inverse.symm.trans inverse'))
  rw [mk.injEq]
  exact ⟨rfl, rfl, same.trans same'.symm⟩

theorem Local.reversible (single : i.Local q m) : i.Reversible := by
  obtain ⟨j, m', inverts, single', adjoint⟩ := single.exists_inverse
  refine ⟨j, _, inverts, single.applies, ?_⟩
  rw [Sequence.placed_conjTranspose, ← adjoint]
  exact single'.applies

theorem Local.inverts (single : i.Local q m) (inverts : i.Inverts j) : ∃ m', j.Local q m' := by
  obtain ⟨j', m', inverts', single', -⟩ := single.exists_inverse
  rw [inverts.unique inverts']
  exact ⟨m', single'⟩

end Instruction

namespace Sequence

variable {s t : Sequence ℝ} {is : List (Instruction ℝ)} {m n w : TwoQubit} {ε : ℝ} {q : ℤ} {index : ℕ}

theorem Multiplies.unique (first : Multiplies is m) (second : Multiplies is n) : m = n := by
  obtain ⟨v, computed, value⟩ := first 0 Square.identity
  obtain ⟨v', computed', value'⟩ := second 0 Square.identity
  obtain rfl := Except.ok.inj (computed.symm.trans computed')
  rw [Square.toMatrix_identity, Matrix.mul_one] at value value'
  exact value.symm.trans value'

/-- The adjoint instructions in reverse order multiply by the adjoint matrix. -/
theorem exists_inverse (reversible : ∀ i ∈ is, i.Reversible) :
    ∃ m js, Multiplies is m ∧ List.Forall₂ Instruction.Inverts is.reverse js ∧ Multiplies js mᴴ := by
  induction is with
  | nil =>
    have still : Multiplies [] 1 := .nil
    exact ⟨1, [], still, .nil, by rwa [Matrix.conjTranspose_one]⟩
  | cons i rest ih =>
    rw [List.forall_mem_cons] at reversible
    obtain ⟨⟨j, m, inverts, forward, backward⟩, others⟩ := reversible
    obtain ⟨n, js, multiplies, pairs, multiplies'⟩ := ih others
    refine ⟨n * m, js ++ [j], (Multiplies.single forward).append multiplies, ?_, ?_⟩
    · rw [List.reverse_cons]
      exact List.rel_append pairs (.cons inverts .nil)
    · rw [Matrix.conjTranspose_mul]
      exact multiplies'.append (.single backward)

/-- The adjoint of a sequence of reversible instructions denotes the adjoint. -/
theorem Denotes.inverse (each : s.Over Instruction.Reversible) (denotes : s.Denotes w) :
    ∃ t, s.inverse = .ok t ∧ t.Denotes wᴴ := by
  obtain ⟨m, multiplies, rfl⟩ := denotes
  obtain ⟨n, js, multiplies', pairs, backward⟩ := exists_inverse each
  obtain rfl := multiplies.unique multiplies'
  refine ⟨⟨js, -s.phase⟩, inverse_eq_ok.mpr ⟨pairs, rfl⟩, mᴴ, backward, ?_⟩
  rw [Matrix.conjTranspose_smul, Complex.star_def, ← Complex.exp_conj, map_mul, Complex.conj_ofReal, Complex.conj_I,
    mul_neg, ← neg_mul, ← Complex.ofReal_neg]

theorem Within.inverse (each : s.Over Instruction.Reversible) (within : s.Within ε w) :
    ∃ t, s.inverse = .ok t ∧ t.Within ε wᴴ := by
  obtain ⟨v, denotes, near⟩ := within
  obtain ⟨t, inverted, denotes'⟩ := denotes.inverse each
  exact ⟨t, inverted, vᴴ, denotes', near.adjoint⟩

/-! ## Emitted sequences -/

/-- A standard gate on one qubit that has a matrix is local. -/
theorem local_of_emitted {gates : List Standard} {i : Instruction ℝ} {v : Mat4 ℝ} (emitted : Euler.Emitted gates q i)
    (computed : twoQubitMatrix index i = .ok v) : ∃ m, i.Local q m := by
  obtain ⟨op, params, qubits⟩ := i
  obtain ⟨g, -, rfl, rfl⟩ := emitted
  obtain ⟨arity, known, rest⟩ := bind_eq_ok.mp computed
  obtain rfl := Except.ok.inj known
  dsimp only at rest
  split at rest
  · cases rest
  rename_i one
  have arity : g.qubits = 1 := by
    simp only [List.length_cons, List.length_nil] at one
    omega
  split at rest
  · cases rest
  rename_i inside
  have wire : q = 0 ∨ q = 1 := by
    have bounds := List.find?_eq_none.mp inside q List.mem_cons_self
    simp only [Bool.or_eq_true, decide_eq_true_eq, not_or, not_lt] at bounds
    omega
  obtain ⟨m, evaluated, -⟩ := bind_eq_ok.mp rest
  obtain ⟨dense, stored, -⟩ := bind_eq_ok.mp (mapError_eq_ok.mp evaluated)
  rw [Operation.matrix] at stored
  split at stored
  next found =>
    obtain ⟨m, rfl⟩ := Standard.matrix_of_qubits arity found
    exact ⟨m, ⟨g, rfl, arity, found⟩, rfl, wire⟩
  next => cases stored

theorem Denotes.locals {gates : List Standard} (each : s.Over (Euler.Emitted gates q)) (denotes : s.Denotes w) :
    s.Over fun i => ∃ m, i.Local q m := by
  intro i member
  obtain ⟨m, multiplies, -⟩ := denotes
  obtain ⟨v, computed, -⟩ := multiplies 0 Square.identity
  obtain ⟨index, v, evaluated⟩ := exists_matrix_of_product computed member
  exact local_of_emitted (each i member) evaluated

end Sequence

end Circuit

end

end Entangle
