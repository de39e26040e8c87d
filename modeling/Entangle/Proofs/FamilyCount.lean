import Mathlib
import Entangle.Proofs.CircuitShape
import Entangle.Proofs.FamilyGateSet
import Entangle.Proofs.FamilySynthesis

/-!
# The number of applications of a family

A circuit over a family applies it once for the first angle, whatever the angle is, and once more for each of the other
two that exceeds the tolerance. The announced number counts all three angles against the tolerance. In the chamber no
angle is larger than the one before it, so that the first exceeds the tolerance where any does, and the numbers agree
but for a unitary that is announced without any application.
-/

namespace Entangle.Family.Decomposer

open Circuit (Instruction Sequence)
open Gate (Operation Standard)
open Weyl (Decomposition)

/-! ## The applications in a circuit -/

section Circuits

variable {α : Type} [Scalar α] {d : Decomposer α} {gate : Operation α} {o : Options} {s t part : Sequence α} {u : Mat4 α}
  {target : Decomposition α} {n m : ℕ} {q : ℤ} {angle atol c : α}

/-- A circuit over the family, with a number of instructions on two qubits. -/
structure Applies (d : Decomposer α) (s : Sequence α) (n : ℕ) : Prop where
  stands : s.Over (Stands d.euler d.gate)
  count : s.instructions.countP (fun i => i.qubits.length = 2) = n

/-- An instruction and its inverse stand on as many qubits. -/
theorem countP_inverts {is js : List (Instruction α)} (pairs : List.Forall₂ Instruction.Inverts is js) :
    js.countP (fun i => i.qubits.length = 2) = is.countP (fun i => i.qubits.length = 2) := by
  induction pairs with
  | nil => rfl
  | cons inverts rest ih => rw [List.countP_cons, List.countP_cons, ih, inverts.qubits]

omit [Scalar α] in
/-- The copies of an instruction on each of the qubits stand on one qubit. -/
theorem countP_copies (is : List (Instruction α)) :
    (is.flatMap fun i => [{ i with qubits := [0] }, { i with qubits := [1] }]).countP (fun i => i.qubits.length = 2) = 0 := by
  induction is with
  | nil => rfl
  | cons i rest ih => rw [List.flatMap_cons, List.countP_append, ih]; rfl

namespace Applies

omit [Scalar α] in
theorem empty (phase : α) : d.Applies (Sequence.empty phase) 0 := ⟨.empty phase, rfl⟩

theorem extend (first : d.Applies s n) (second : d.Applies t m) : d.Applies (s.extend t) (n + m) := by
  refine ⟨first.stands.extend second.stands, ?_⟩
  rw [Sequence.extend, List.countP_append, first.count, second.count]

omit [Scalar α] in
/-- The family on both qubits is one application more. -/
theorem apply (applies : d.Applies s n) (params : List α) : d.Applies (s.append d.gate params [0, 1]) (n + 1) := by
  refine ⟨applies.stands.push .interaction, ?_⟩
  rw [Sequence.append, Sequence.push, List.countP_append, applies.count]
  rfl

/-- The adjoint has as many applications, since every instruction stays on its qubits. -/
theorem inverse (angles : d.gate.angles = .ok 1) (applies : d.Applies s n) (inverted : s.inverse = .ok t) :
    d.Applies t n := by
  refine ⟨applies.stands.inverse inverted fun i j stands inverts => stands.inverts angles inverts, ?_⟩
  rw [countP_inverts (Sequence.inverse_eq_ok.mp inverted).1, List.countP_reverse, applies.count]

/-- Frame changes on both qubits have none. -/
theorem appendBoth {basis : Euler.Basis} (applies : d.Applies s n) (sameEuler : d.euler = basis)
    (frame : part.Over (Euler.Emitted basis.gates q)) : d.Applies (appendBoth s part) n := by
  subst sameEuler
  refine ⟨stands_appendBoth applies.stands frame, ?_⟩
  rw [Decomposer.appendBoth, List.countP_append, applies.count, countP_copies]
  rfl

end Applies

variable (angles : d.gate.angles = .ok 1)

include angles

omit angles

/-- Whether an angle gets an application of its own. -/
def extra (atol x : α) : ℕ := if atol < Scalar.abs x then 1 else 0

end Circuits

/-! ## The announced number -/

noncomputable section

variable {gate : Operation ℝ} {o : Options} {d : Decomposer ℝ} {s : Sequence ℝ} {u : Mat4 ℝ} {target : Decomposition ℝ}
  {atol : ℝ} {n : ℕ}

theorem gateCount_eq_ok : d.gateCount u atol = .ok n ↔
    ∃ target, Decomposition.ofUnitary u .default = .ok target ∧
      extra atol target.a + extra atol target.b + extra atol target.c = n := by
  have counted (target : Decomposition ℝ) : [target.a, target.b, target.c].countP (fun x => decide (atol < Scalar.abs x)) =
      extra atol target.a + extra atol target.b + extra atol target.c := by
    simp only [List.countP_cons, List.countP_nil, decide_eq_true_eq, zero_add, extra]
    omega
  simp only [gateCount, Outcome.step_eq_ok, bind_eq_ok, counted]
  exact exists_congr fun target => and_congr_right fun _ => ⟨Except.ok.inj, congrArg _⟩

end

end Entangle.Family.Decomposer
