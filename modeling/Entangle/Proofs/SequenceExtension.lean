import Mathlib
import Entangle.Proofs.AdjointCircuit

/-!
# One sequence after another

The unitary of a sequence is computed one instruction after the other, and a fault names the place of its instruction.
A sequence that follows another is computed in the same way at later places, whatever has been multiplied before, so
that its unitary multiplies that of the first from the left. The whole fails where the first of the two fails that does,
at the place that the instruction has in the whole. The faults are the same over every arithmetic.
-/

namespace Entangle

open Circuit (Instruction Sequence)
open Gate (Operation)

/-! ## Places of faults -/

namespace Fault

variable {α : Type}

/-- The place of the instruction that a fault names. -/
def place? : Fault α → Option Nat
  | within (.instruction index _) _ => some index
  | within (.instructionQubit index _ _) _ => some index
  | _ => none

/-- The fault of the same instruction in a sequence that has more instructions before it. -/
def later (count : Nat) : Fault α → Fault α
  | within (.instruction index gate) fault => within (.instruction (index + count) gate) fault
  | within (.instructionQubit index gate qubit) fault => within (.instructionQubit (index + count) gate qubit) fault
  | fault => fault

@[simp]
theorem place?_later (count : Nat) (fault : Fault α) : (fault.later count).place? = fault.place?.map (· + count) := by
  cases fault with
  | within place inner => cases place <;> rfl
  | _ => rfl

end Fault

section Faults

variable {α : Type}

/-- Only a gate without a definition has no number of qubits. -/
theorem Gate.Operation.qubits_eq_error {op : Operation α} {fault : Fault α} :
    op.qubits = .error fault ↔ ∃ number, op = .undefined number ∧ fault = .undefinedGate number := by
  constructor
  · intro failed
    cases op with
    | undefined number => exact ⟨number, rfl, (Except.error.inj failed).symm⟩
    | standard | family | custom => cases failed
  · rintro ⟨number, rfl, rfl⟩
    rfl

theorem Circuit.Instruction.arity_of_standard {i : Instruction α} (standard : ∃ g, i.op = .standard g) :
    ∃ arity, i.op.qubits = .ok arity := by
  obtain ⟨g, op⟩ := standard
  exact ⟨g.qubits, by rw [op, Operation.qubits]⟩

namespace Circuit.Sequence

variable [Scalar α]

/-- At a later place an instruction has the same matrix, or the same fault there. -/
theorem twoQubitMatrix_later (index count : ℕ) (i : Instruction α) :
    twoQubitMatrix (index + count) i = (twoQubitMatrix index i).mapError (Fault.later count) := by
  unfold twoQubitMatrix
  cases arity : i.op.qubits with
  | error fault =>
    obtain ⟨number, -, rfl⟩ := Operation.qubits_eq_error.mp arity
    rfl
  | ok arity =>
    simp only [bind, Except.bind]
    split
    · rfl
    split
    · rfl
    split
    · cases i.op.matrix2 i.params <;> rfl
    · split
      · rfl
      · cases i.op.matrix4 i.params <;> rfl
    · rfl

/-- At later places instructions multiply by the same matrices, up to the same fault. -/
theorem product_later (is : List (Instruction α)) (index count : ℕ) (u : Mat4 α) :
    product twoQubitMatrix is (index + count) u = (product twoQubitMatrix is index u).mapError (Fault.later count) := by
  induction is generalizing index u with
  | nil => rfl
  | cons i rest ih =>
    have place : index + count + 1 = index + 1 + count := by omega
    rw [product, product, twoQubitMatrix_later, place]
    cases twoQubitMatrix index i with
    | error fault => rfl
    | ok g => exact ih (index + 1) (g * u)

omit [Scalar α] in
theorem place_of_within {β γ : Type} {index : ℕ} {gate : String} {outcome : Outcome α β} {next : β → γ} {fault : Fault α}
    (failed : (do return next (← outcome.within (.instruction index gate))) = .error fault) : fault.place? = some index := by
  rcases bind_eq_error.mp failed with failed | ⟨b, -, impossible⟩
  · obtain ⟨inner, -, rfl⟩ := mapError_eq_error.mp failed
    rfl
  · cases impossible

/-- The fault of an instruction whose gate has a number of qubits names its place. -/
theorem place_of_matrix_fault {index : ℕ} {i : Instruction α} {fault : Fault α} (known : ∃ arity, i.op.qubits = .ok arity)
    (failed : twoQubitMatrix index i = .error fault) : fault.place? = some index := by
  obtain ⟨arity, known⟩ := known
  rcases bind_eq_error.mp failed with unknown | ⟨arity', -, failed⟩
  · cases known.symm.trans unknown
  split at failed
  · cases failed
    rfl
  split at failed
  · cases failed
    rfl
  split at failed
  · exact place_of_within failed
  · split at failed
    · cases failed
      rfl
    · exact place_of_within failed
  · cases failed
    rfl

/-- The fault of a product names the place of one of its instructions. -/
theorem place_of_product_fault {is : List (Instruction α)} (each : ∀ i ∈ is, ∃ arity, i.op.qubits = .ok arity) {index : ℕ}
    {u : Mat4 α} {fault : Fault α} (failed : product twoQubitMatrix is index u = .error fault) :
    ∃ k < is.length, fault.place? = some (index + k) := by
  induction is generalizing index u with
  | nil => cases failed
  | cons i rest ih =>
    rw [List.forall_mem_cons] at each
    rcases bind_eq_error.mp failed with here | ⟨g, -, there⟩
    · exact ⟨0, Nat.zero_lt_succ _, place_of_matrix_fault each.1 here⟩
    · obtain ⟨k, inside, place⟩ := ih each.2 there
      refine ⟨k + 1, Nat.succ_lt_succ inside, ?_⟩
      rw [place, Nat.add_right_comm, Nat.add_assoc]

/-- The unitary fails where the product does. -/
theorem unitary_eq_error {s : Sequence α} {fault : Fault α} :
    s.unitary = .error fault ↔ product twoQubitMatrix s.instructions 0 Square.identity = .error fault := by
  rw [unitary, bind_eq_error]
  constructor
  · rintro (failed | ⟨v, -, impossible⟩)
    · exact failed
    · cases impossible
  · exact .inl

/-- The fault of a sequence names the place of one of its instructions. -/
theorem place_of_unitary_fault {s : Sequence α} (each : s.Over fun i => ∃ arity, i.op.qubits = .ok arity)
    {fault : Fault α} (failed : s.unitary = .error fault) : ∃ k < s.length, fault.place? = some k := by
  obtain ⟨k, inside, place⟩ := place_of_product_fault each (unitary_eq_error.mp failed)
  rw [Nat.zero_add] at place
  exact ⟨k, inside, place⟩

end Circuit.Sequence

end Faults

/-! ## Sequences over exact arithmetic -/

theorem Mat4.mul_assoc (a b c : Mat4 ℝ) : a * b * c = a * (b * c) := by
  apply Square.toMatrix_injective
  simp [Matrix.mul_assoc]

theorem Mat4.identity_mul (a : Mat4 ℝ) : Square.identity * a = a := by
  apply Square.toMatrix_injective
  rw [toMatrix_mul, Square.toMatrix_identity, Matrix.one_mul]

/-- Phases and matrices multiply each on their own. -/
theorem Mat4.scale_mul_scale (a b : Mat4 ℝ) (x y : ℝ) :
    a.scale (Cx.cis x) * b.scale (Cx.cis y) = (a * b).scale (Cx.cis (y + x)) := by
  apply Square.toMatrix_injective
  rw [toMatrix_mul, Square.toMatrix_scale, Square.toMatrix_scale, Square.toMatrix_scale, toMatrix_mul, Cx.cis_add,
    Cx.toComplex_mul, Matrix.smul_mul, Matrix.mul_smul, smul_smul, mul_comm]

namespace Circuit.Sequence

/-- What has been multiplied before stays on the right. -/
theorem product_mul (is : List (Instruction ℝ)) (index : ℕ) (v u : Mat4 ℝ) :
    product twoQubitMatrix is index (v * u) = (product twoQubitMatrix is index v).map (· * u) := by
  induction is generalizing index v with
  | nil => rfl
  | cons i rest ih =>
    rw [product, product]
    cases twoQubitMatrix index i with
    | error fault => rfl
    | ok g =>
      change product twoQubitMatrix rest (index + 1) (g * (v * u)) = _
      rw [← Mat4.mul_assoc]
      exact ih (index + 1) (g * v)

/-- After another sequence the same product multiplies what that one has multiplied, or has the same fault at its
later place. -/
theorem product_after (is : List (Instruction ℝ)) (count : ℕ) (u : Mat4 ℝ) :
    product twoQubitMatrix is count u =
      ((product twoQubitMatrix is 0 Square.identity).map (· * u)).mapError (Fault.later count) := by
  have shifted := product_later is 0 count u
  have split := product_mul is 0 Square.identity u
  rw [Nat.zero_add] at shifted
  rw [Mat4.identity_mul] at split
  rw [shifted, split]

variable {s t : Sequence ℝ}

theorem unitary_extend_of_fault {fault : Fault ℝ} (failed : s.unitary = .error fault) (t : Sequence ℝ) :
    (s.extend t).unitary = .error fault := by
  rw [unitary_eq_error] at failed ⊢
  rw [extend, product_append, failed]
  rfl

theorem unitary_extend_of_later_fault {u : Mat4 ℝ} {fault : Fault ℝ} (computed : s.unitary = .ok u)
    (failed : t.unitary = .error fault) : (s.extend t).unitary = .error (fault.later s.length) := by
  obtain ⟨v, first, -⟩ := bind_eq_ok.mp computed
  rw [unitary_eq_error] at failed ⊢
  rw [extend, product_append, first]
  change product twoQubitMatrix t.instructions (0 + s.length) v = _
  rw [Nat.zero_add, product_after, failed]
  rfl

theorem unitary_extend_of_ok {u v : Mat4 ℝ} (first : s.unitary = .ok u) (second : t.unitary = .ok v) :
    (s.extend t).unitary = .ok (v * u) := by
  obtain ⟨m, multiplied, result⟩ := bind_eq_ok.mp first
  obtain ⟨n, multiplied', result'⟩ := bind_eq_ok.mp second
  obtain rfl := Except.ok.inj result
  obtain rfl := Except.ok.inj result'
  refine bind_eq_ok.mpr ⟨n * m, ?_, ?_⟩
  · rw [extend, product_append, multiplied]
    change product twoQubitMatrix t.instructions (0 + s.length) m = _
    rw [Nat.zero_add, product_after, multiplied']
    rfl
  · rw [Mat4.scale_mul_scale]
    rfl

/-- A sequence after another has a unitary exactly if both have, and it is the product of the two. Otherwise it has the
fault of the first, or else that of the second, which names the place of its instruction in the whole. -/
theorem unitary_extend (s : Sequence ℝ) {t : Sequence ℝ} (standard : t.Over fun i => ∃ g, i.op = .standard g) :
    ((∃ w, (s.extend t).unitary = .ok w) ↔ (∃ u, s.unitary = .ok u) ∧ ∃ v, t.unitary = .ok v) ∧
      (∀ u v, s.unitary = .ok u → t.unitary = .ok v → (s.extend t).unitary = .ok (v * u)) ∧
      (∀ fault, s.unitary = .error fault → (s.extend t).unitary = .error fault) ∧
      ∀ u fault, s.unitary = .ok u → t.unitary = .error fault →
        (s.extend t).unitary = .error (fault.later s.length) ∧
          ∃ k < t.length, fault.place? = some k ∧ (fault.later s.length).place? = some (k + s.length) := by
  refine ⟨⟨?_, ?_⟩, fun u v => unitary_extend_of_ok, fun fault failed => unitary_extend_of_fault failed t, ?_⟩
  · rintro ⟨w, computed⟩
    cases first : s.unitary with
    | error fault => cases (unitary_extend_of_fault first t).symm.trans computed
    | ok u =>
      cases second : t.unitary with
      | error fault => cases (unitary_extend_of_later_fault first second).symm.trans computed
      | ok v => exact ⟨⟨u, rfl⟩, v, rfl⟩
  · rintro ⟨⟨u, first⟩, v, second⟩
    exact ⟨v * u, unitary_extend_of_ok first second⟩
  · intro u fault first second
    refine ⟨unitary_extend_of_later_fault first second, ?_⟩
    obtain ⟨k, inside, place⟩ := place_of_unitary_fault (standard.mono fun i => Instruction.arity_of_standard) second
    exact ⟨k, inside, place, by rw [Fault.place?_later, place, Option.map_some]⟩

/-- A swap of the qubits in reverse order, and a rotation without its angle. -/
def angleless : Sequence ℝ := ⟨[⟨.standard .swap, [], [1, 0]⟩, ⟨.standard .rx, [], [0]⟩], 1⟩

/-- After three instructions, the missing angle is that of the fifth. -/
theorem unitary_extend_angleless :
    angleless.unitary = .error (.within (.instruction 1 "rx") (Operation.angleCount "rx" 0 1)) ∧
      (mixedCircuit.extend angleless).unitary =
        .error (.within (.instruction 4 "rx") (Operation.angleCount "rx" 0 1)) := by
  have failed : angleless.unitary = .error (.within (.instruction 1 "rx") (Operation.angleCount "rx" 0 1)) := rfl
  have standard : angleless.Over fun i => ∃ g, i.op = .standard g := by
    simp [Over, angleless]
  obtain ⟨w, -, denotes⟩ := exists_denotes_unitary mixedCircuit_valid
  obtain ⟨u, computed, -⟩ := denotes.unitary
  obtain ⟨-, -, -, later⟩ := unitary_extend mixedCircuit standard
  exact ⟨failed, (later u _ computed failed).1⟩

end Circuit.Sequence

end Entangle
