import Mathlib
import Entangle.Proofs.StandardGates

/-!
# The adjoint of a circuit of standard gates

Read from its end, a circuit is reversed up to the first instruction that has no adjoint, and the fault names the
place of that instruction. Among the standard gates on one or both qubits, in either order, only `iswap` has none.
Without it a circuit has an adjoint of the same length, whose unitary is the adjoint of its own.
-/

noncomputable section

namespace Entangle

open Matrix Complex
open Gate (Operation Standard)

namespace Circuit

open Sequence (Multiplies twoQubitMatrix)

/-! ## Where the adjoint fails -/

section Faults

variable {α : Type} [Scalar α] {fault : Fault α}

/-- An instruction with an adjoint. -/
def Instruction.Invertible (i : Instruction α) : Prop := ∃ result, i.op.inverse i.params = .ok result

/-- The run stops at the first instruction without an adjoint, and counts those that are left. -/
theorem Sequence.inverseInstructions_eq_error {is : List (Instruction α)} :
    inverseInstructions is is.length = .error fault ↔ ∃ before i after inner, is = before ++ i :: after ∧
      (∀ j ∈ before, j.Invertible) ∧ i.op.inverse i.params = .error inner ∧
        fault = .within (.inverseOf after.length) inner := by
  induction is with
  | nil =>
    constructor
    · intro failed
      cases failed
    · rintro ⟨before, i, after, inner, split, -⟩
      exact absurd split.symm (List.append_ne_nil_of_right_ne_nil _ (List.cons_ne_nil _ _))
  | cons i rest ih =>
    rw [inverseInstructions, List.length_cons, Nat.add_sub_cancel]
    constructor
    · intro failed
      rcases bind_eq_error.mp failed with here | ⟨⟨op, params⟩, one, later⟩
      · obtain ⟨inner, refused, rfl⟩ := mapError_eq_error.mp here
        exact ⟨[], i, rest, inner, rfl, by simp, refused, rfl⟩
      · rcases bind_eq_error.mp later with there | ⟨others, -, impossible⟩
        · obtain ⟨before, j, after, inner, rfl, each, refused, place⟩ := ih.mp there
          refine ⟨i :: before, j, after, inner, rfl, ?_, refused, place⟩
          rw [List.forall_mem_cons]
          exact ⟨⟨_, mapError_eq_ok.mp one⟩, each⟩
        · cases impossible
    · rintro ⟨before, j, after, inner, split, each, refused, rfl⟩
      apply bind_eq_error.mpr
      cases before with
      | nil =>
        obtain ⟨rfl, rfl⟩ := List.cons.inj split
        exact .inl (mapError_eq_error.mpr ⟨inner, refused, rfl⟩)
      | cons first before =>
        obtain ⟨rfl, rfl⟩ := List.cons.inj split
        rw [List.forall_mem_cons] at each
        obtain ⟨⟨result, one⟩, others⟩ := each
        refine .inr ⟨result, mapError_eq_ok.mpr one, bind_eq_error.mpr (.inl ?_)⟩
        exact ih.mpr ⟨before, j, after, inner, rfl, others, refused, rfl⟩

/-- The adjoint fails at the last instruction without one, and the fault names its place. -/
theorem Sequence.inverse_eq_error {s : Sequence α} :
    s.inverse = .error fault ↔ ∃ before i after inner, s.instructions = before ++ i :: after ∧
      (∀ j ∈ after, j.Invertible) ∧ i.op.inverse i.params = .error inner ∧
        fault = .within (.inverseOf before.length) inner := by
  have run : s.inverse = .error fault ↔
      inverseInstructions s.instructions.reverse s.instructions.reverse.length = .error fault := by
    rw [List.length_reverse]
    constructor
    · intro failed
      rcases bind_eq_error.mp failed with there | ⟨others, -, impossible⟩
      · exact there
      · cases impossible
    · intro failed
      exact bind_eq_error.mpr (.inl failed)
  rw [run, inverseInstructions_eq_error]
  constructor
  · rintro ⟨after, i, before, inner, split, each, refused, place⟩
    refine ⟨before.reverse, i, after.reverse, inner, ?_, ?_, refused, ?_⟩
    · rw [← List.reverse_reverse s.instructions, split]
      simp
    · intro j member
      exact each j (List.mem_reverse.mp member)
    · rwa [List.length_reverse]
  · rintro ⟨before, i, after, inner, split, each, refused, place⟩
    refine ⟨after.reverse, i, before.reverse, inner, ?_, ?_, refused, ?_⟩
    · rw [split]
      simp
    · intro j member
      exact each j (List.mem_reverse.mp member)
    · rwa [List.length_reverse]

end Faults

/-! ## Gates on both qubits -/

/-- A two-qubit matrix with its first factor on qubit `q`. -/
def oriented (q : ℤ) (m : Mat4 ℝ) : Mat4 ℝ := if q = 1 then m.swapQubits else m

theorem toMatrix_swapQubits (m : Mat4 ℝ) :
    m.swapQubits.toMatrix = m.toMatrix.submatrix Mat4.exchange Mat4.exchange := by
  ext i j
  simp [Mat4.swapQubits]

theorem oriented_adjoint {m m' : Mat4 ℝ} (q : ℤ) (adjoint : m'.toMatrix = m.toMatrixᴴ) :
    (oriented q m').toMatrix = (oriented q m).toMatrixᴴ := by
  unfold oriented
  split
  · rw [toMatrix_swapQubits, toMatrix_swapQubits, adjoint, Matrix.conjTranspose_submatrix]
  · exact adjoint

theorem oriented_unitary {m : Mat4 ℝ} (q : ℤ) (unitary : m.Unitary) : (oriented q m).Unitary := by
  have involutive : Function.Involutive Mat4.exchange := by
    intro k
    revert k
    decide
  unfold oriented
  split
  · rw [Square.Unitary, mem_unitaryGroup_iff, star_eq_conjTranspose, toMatrix_swapQubits, Matrix.conjTranspose_submatrix,
      ← Function.Involutive.coe_toPerm involutive, Matrix.submatrix_mul_equiv, ← star_eq_conjTranspose,
      mem_unitaryGroup_iff.mp unitary, Matrix.submatrix_one_equiv]
  · exact unitary

/-- A standard gate on both qubits, in either order. -/
structure Instruction.Across (i : Instruction ℝ) (q : ℤ) (m : Mat4 ℝ) : Prop where
  gate : ∃ g : Standard, i.op = .standard g ∧ g.qubits = 2 ∧ g.matrix? i.params = some (.two m)
  qubits : i.qubits = [q, 1 - q]
  wire : q = 0 ∨ q = 1

namespace Instruction

variable {i : Instruction ℝ} {q : ℤ} {m : Mat4 ℝ}

theorem Across.applies (across : i.Across q m) : i.Applies (oriented q m).toMatrix := by
  obtain ⟨op, params, qubits⟩ := i
  obtain ⟨⟨g, rfl, arity, known⟩, rfl, wire⟩ := across
  have stored := Operation.matrix4_standard known
  have two : (Operation.standard g : Operation ℝ).qubits = .ok 2 := by rw [Operation.qubits, arity, Nat.cast_ofNat]
  intro index
  refine ⟨oriented q m, ?_, rfl⟩
  rcases wire with rfl | rfl
  · exact Sequence.twoQubitMatrix_two two stored index
  · exact Sequence.twoQubitMatrix_swapped two stored index

/-- The adjoint of a gate on both qubits is one in the same order, with the adjoint matrix. -/
theorem Across.reversible (across : i.Across q m) (invertible : i.op ≠ .standard .iswap) : i.Reversible := by
  obtain ⟨g, op, arity, known⟩ := across.gate
  have other : g ≠ .iswap := by
    rintro rfl
    exact invertible op
  obtain ⟨params, m', inverse, stored, adjoint⟩ := Standard.matrix_adjoint_two known other
  have two : g.adjoint.qubits = 2 := by
    revert arity
    cases g <;> decide
  have across' : Across ⟨.standard g.adjoint, params, i.qubits⟩ q m' := ⟨⟨_, rfl, two, stored⟩, across.qubits, across.wire⟩
  refine ⟨⟨.standard g.adjoint, params, i.qubits⟩, _, ⟨rfl, op ▸ inverse⟩, across.applies, ?_⟩
  rw [← oriented_adjoint q adjoint]
  exact across'.applies

/-! ## Circuits of standard gates -/

/-- A standard gate with as many angles as it takes, on as many of the two qubits as it acts on. -/
structure Valid (i : Instruction ℝ) : Prop where
  gate : ∃ g : Standard, i.op = .standard g ∧ i.params.length = g.angles ∧ i.qubits.length = g.qubits
  inside : ∀ q ∈ i.qubits, q = 0 ∨ q = 1
  distinct : i.qubits.Nodup

/-- It acts on one qubit or on both. -/
theorem Valid.local_or_across (valid : i.Valid) : (∃ q m, i.Local q m) ∨ ∃ q m, i.Across q m := by
  obtain ⟨g, op, count, wires⟩ := valid.gate
  rcases Standard.exists_matrix count with ⟨one, m, known⟩ | ⟨two, m, known⟩
  · obtain ⟨q, single⟩ := List.length_eq_one_iff.mp (wires.trans one)
    have wire := valid.inside q (by rw [single]; exact List.mem_cons_self)
    exact .inl ⟨q, m, ⟨g, op, one, known⟩, single, wire⟩
  · obtain ⟨q, r, both⟩ := List.length_eq_two.mp (wires.trans two)
    have inside := valid.inside
    have distinct := valid.distinct
    rw [both] at inside distinct
    have first := inside q List.mem_cons_self
    have second := inside r (List.mem_cons_of_mem _ List.mem_cons_self)
    have apart : q ≠ r := by
      rintro rfl
      simp at distinct
    have other : r = 1 - q := by omega
    exact .inr ⟨q, m, ⟨g, op, two, known⟩, by rw [both, other], first⟩

theorem Valid.reversible (valid : i.Valid) (invertible : i.op ≠ .standard .iswap) : i.Reversible := by
  rcases valid.local_or_across with ⟨q, m, single⟩ | ⟨q, m, across⟩
  · exact single.reversible
  · exact across.reversible invertible

theorem Valid.exists_unitary (valid : i.Valid) : ∃ w ∈ unitaryGroup (Fin 4) ℂ, i.Applies w := by
  rcases valid.local_or_across with ⟨q, m, single⟩ | ⟨q, m, across⟩
  · obtain ⟨g, -, -, known⟩ := single.gate
    have unitary : m.Unitary := Standard.matrix_unitary known
    exact ⟨_, Sequence.placed_mem_unitary q unitary, single.applies⟩
  · obtain ⟨g, -, -, known⟩ := across.gate
    have unitary : m.Unitary := Standard.matrix_unitary known
    exact ⟨_, oriented_unitary q unitary, across.applies⟩

theorem Valid.inverse_of_iswap (valid : i.Valid) (swap : i.op = .standard .iswap) :
    i.op.inverse i.params = .error (Cause.within (.subject "iswap") .noInverse) := by
  obtain ⟨g, op, count, -⟩ := valid.gate
  obtain rfl := Operation.standard.inj (op.symm.trans swap)
  rw [swap, List.length_eq_zero_iff.mp count, Operation.inverse_iswap]

/-- Only `iswap` has no adjoint. -/
theorem Valid.inverse_eq_error {fault : Fault ℝ} (valid : i.Valid) :
    i.op.inverse i.params = .error fault ↔
      i.op = .standard .iswap ∧ fault = Cause.within (.subject "iswap") .noInverse := by
  constructor
  · intro refused
    by_cases swap : i.op = .standard .iswap
    · rw [valid.inverse_of_iswap swap] at refused
      exact ⟨swap, (Except.error.inj refused).symm⟩
    · obtain ⟨j, -, inverts, -⟩ := valid.reversible swap
      cases inverts.inverse.symm.trans refused
  · rintro ⟨swap, rfl⟩
    exact valid.inverse_of_iswap swap

end Instruction

namespace Sequence

variable {s : Sequence ℝ}

/-- Unitary instructions multiply to a unitary. -/
theorem exists_multiplies_unitary {is : List (Instruction ℝ)}
    (each : ∀ i ∈ is, ∃ w ∈ unitaryGroup (Fin 4) ℂ, i.Applies w) : ∃ w ∈ unitaryGroup (Fin 4) ℂ, Multiplies is w := by
  induction is with
  | nil => exact ⟨1, one_mem _, .nil⟩
  | cons i rest ih =>
    rw [List.forall_mem_cons] at each
    obtain ⟨⟨v, first, applies⟩, others⟩ := each
    obtain ⟨w, second, multiplies⟩ := ih others
    exact ⟨w * v, mul_mem second first, (Multiplies.single applies).append multiplies⟩

/-- A circuit of standard gates denotes a unitary. -/
theorem exists_denotes_unitary (valid : s.Over Instruction.Valid) : ∃ w ∈ unitaryGroup (Fin 4) ℂ, s.Denotes w := by
  obtain ⟨w, unitary, multiplies⟩ := exists_multiplies_unitary fun i member => (valid i member).exists_unitary
  exact ⟨_, exp_smul_mem_unitary s.phase unitary, w, multiplies, rfl⟩

/-- A circuit with an `iswap` has no adjoint. -/
theorem inverse_fails_of_iswap (valid : s.Over Instruction.Valid) {i : Instruction ℝ} (member : i ∈ s.instructions)
    (swap : i.op = .standard .iswap) : ∃ fault, s.inverse = .error fault := by
  cases reversed : s.inverse with
  | error fault => exact ⟨fault, rfl⟩
  | ok t =>
    obtain ⟨j, -, inverts⟩ := exists_inverts reversed member
    cases inverts.inverse.symm.trans ((valid i member).inverse_of_iswap swap)

/-- The places of the `iswap` gates. -/
def iswapPlaces (s : Sequence ℝ) : Set ℕ := {k | ∃ i, s.instructions[k]? = some i ∧ i.op = .standard .iswap}

/-- The fault of a circuit of standard gates names the last `iswap`. -/
theorem place_of_inverse_fault (valid : s.Over Instruction.Valid) {fault : Fault ℝ} (failed : s.inverse = .error fault) :
    ∃ k, IsGreatest s.iswapPlaces k ∧ fault = .within (.inverseOf k) (Cause.within (.subject "iswap") .noInverse) := by
  obtain ⟨before, i, after, inner, split, each, refused, rfl⟩ := inverse_eq_error.mp failed
  have member : i ∈ s.instructions := by rw [split]; simp
  obtain ⟨swap, rfl⟩ := (valid i member).inverse_eq_error.mp refused
  refine ⟨before.length, ⟨⟨i, by rw [split]; simp, swap⟩, ?_⟩, rfl⟩
  rintro k ⟨j, place, swap'⟩
  by_contra beyond
  have later : j ∈ after := by
    have past : before.length + 1 ≤ k := by omega
    obtain ⟨rest, rfl⟩ := Nat.exists_eq_add_of_le past
    rw [split, List.getElem?_append_right (by omega)] at place
    have index : before.length + 1 + rest - before.length = rest + 1 := by omega
    rw [index, List.getElem?_cons_succ] at place
    exact List.mem_of_getElem? place
  obtain ⟨result, one⟩ := each j later
  have refused' := (valid j (by rw [split]; simp [later])).inverse_eq_error.mpr ⟨swap', rfl⟩
  cases one.symm.trans refused'

/-- Without one, the adjoint has the same length and the adjoint unitary. -/
theorem exists_adjoint (valid : s.Over Instruction.Valid) (none : ∀ i ∈ s.instructions, i.op ≠ .standard .iswap) :
    ∃ t u v, s.inverse = .ok t ∧ t.length = s.length ∧ s.unitary = .ok u ∧ t.unitary = .ok v ∧ v = u.dagger ∧
      v * u = Square.identity := by
  obtain ⟨w, unitary, denotes⟩ := exists_denotes_unitary valid
  obtain ⟨t, reversed, denotes'⟩ := denotes.inverse fun i member => (valid i member).reversible (none i member)
  obtain ⟨u, computed, rfl⟩ := denotes.unitary
  obtain ⟨v, computed', adjoint⟩ := denotes'.unitary
  refine ⟨t, u, v, reversed, ?_, computed, computed', ?_, ?_⟩
  · rw [length, length, ← (inverse_eq_ok.mp reversed).1.length_eq, List.length_reverse]
  · apply Square.toMatrix_injective
    rw [adjoint, Square.toMatrix_dagger]
  · apply Square.toMatrix_injective
    rw [Mat4.toMatrix_mul, adjoint, Square.toMatrix_identity]
    exact mem_unitaryGroup_iff'.mp unitary

/-- A circuit of standard gates has no adjoint exactly if it has an `iswap`, and the fault names the place of the last
one. Any other circuit has an adjoint of the same length, with the adjoint unitary. -/
theorem inverse_of_standard_gates (valid : s.Over Instruction.Valid) :
    ((∃ fault, s.inverse = .error fault) ↔ ∃ i ∈ s.instructions, i.op = .standard .iswap) ∧
      (∀ fault, s.inverse = .error fault →
        ∃ k, IsGreatest s.iswapPlaces k ∧ fault = .within (.inverseOf k) (Cause.within (.subject "iswap") .noInverse)) ∧
      ((∀ i ∈ s.instructions, i.op ≠ .standard .iswap) →
        ∃ t u v, s.inverse = .ok t ∧ t.length = s.length ∧ s.unitary = .ok u ∧ t.unitary = .ok v ∧ v = u.dagger ∧
          v * u = Square.identity) := by
  refine ⟨⟨?_, ?_⟩, fun fault failed => place_of_inverse_fault valid failed, exists_adjoint valid⟩
  · rintro ⟨fault, failed⟩
    obtain ⟨k, ⟨⟨i, place, swap⟩, -⟩, -⟩ := place_of_inverse_fault valid failed
    exact ⟨i, List.mem_of_getElem? place, swap⟩
  · rintro ⟨i, member, swap⟩
    exact inverse_fails_of_iswap valid member swap

/-- Three gates whose adjoints are other gates or have other angles, on either qubit and on both in reverse order. -/
def mixedCircuit : Sequence ℝ :=
  ⟨[⟨.standard .u2, [1, 2], [0]⟩, ⟨.standard .rzx, [3], [1, 0]⟩, ⟨.standard .sx, [], [1]⟩], 1 / 2⟩

/-- Two `iswap` gates, with another gate between them and one after them. -/
def iswapCircuit : Sequence ℝ :=
  ⟨[⟨.standard .iswap, [], [0, 1]⟩, ⟨.standard .t, [], [0]⟩, ⟨.standard .iswap, [], [1, 0]⟩, ⟨.standard .h, [], [1]⟩], 0⟩

theorem mixedCircuit_valid : mixedCircuit.Over Instruction.Valid := by
  intro i member
  simp only [mixedCircuit, List.mem_cons, List.not_mem_nil, or_false] at member
  rcases member with rfl | rfl | rfl
  · exact ⟨⟨.u2, rfl, rfl, rfl⟩, by simp, by simp⟩
  · exact ⟨⟨.rzx, rfl, rfl, rfl⟩, by simp, by simp⟩
  · exact ⟨⟨.sx, rfl, rfl, rfl⟩, by simp, by simp⟩

theorem iswapCircuit_valid : iswapCircuit.Over Instruction.Valid := by
  intro i member
  simp only [iswapCircuit, List.mem_cons, List.not_mem_nil, or_false] at member
  rcases member with rfl | rfl | rfl | rfl
  · exact ⟨⟨.iswap, rfl, rfl, rfl⟩, by simp, by simp⟩
  · exact ⟨⟨.t, rfl, rfl, rfl⟩, by simp, by simp⟩
  · exact ⟨⟨.iswap, rfl, rfl, rfl⟩, by simp, by simp⟩
  · exact ⟨⟨.h, rfl, rfl, rfl⟩, by simp, by simp⟩

theorem inverse_of_standard_gates_mixed :
    (∃ t u v, mixedCircuit.inverse = .ok t ∧ t.length = 3 ∧ mixedCircuit.unitary = .ok u ∧ t.unitary = .ok v ∧
      v = u.dagger ∧ v * u = Square.identity) ∧
      iswapCircuit.inverse = .error (.within (.inverseOf 2) (Cause.within (.subject "iswap") .noInverse)) := by
  obtain ⟨-, -, reversed⟩ := inverse_of_standard_gates mixedCircuit_valid
  obtain ⟨fails, named, -⟩ := inverse_of_standard_gates iswapCircuit_valid
  have without : ∀ i ∈ mixedCircuit.instructions, i.op ≠ .standard .iswap := by simp [mixedCircuit]
  refine ⟨reversed without, ?_⟩
  obtain ⟨fault, failed⟩ := fails.mpr ⟨_, List.mem_cons_self, rfl⟩
  obtain ⟨k, ⟨⟨i, place, swap⟩, greatest⟩, rfl⟩ := named fault failed
  have lower : 2 ≤ k := greatest ⟨_, rfl, rfl⟩
  have inside : k < 4 := (List.getElem?_eq_some_iff.mp place).1
  have last : k ≠ 3 := by
    rintro rfl
    obtain rfl := Option.some.inj place
    cases swap
  obtain rfl : k = 2 := by omega
  exact failed

end Sequence

end Circuit

end Entangle

end
