import Entangle.Gate.Operation

/-!
# Gate sequences

An ordered list of instructions and a global phase. The unitary of a sequence is the phase times the
product of its gates, the last one leftmost.
-/

namespace Entangle.Circuit

open Gate (Operation)

structure Instruction (α : Type) where
  op : Operation α
  params : List α
  qubits : List Int

def Instruction.name {α : Type} (instruction : Instruction α) : String := instruction.op.name

structure Sequence (α : Type) where
  instructions : List (Instruction α)
  phase : α

namespace Sequence

variable {α : Type}

def empty (phase : α) : Sequence α := ⟨[], phase⟩

def push (s : Sequence α) (instruction : Instruction α) : Sequence α :=
  { s with instructions := s.instructions ++ [instruction] }

def append (s : Sequence α) (op : Operation α) (params : List α) (qubits : List Int) : Sequence α :=
  s.push ⟨op, params, qubits⟩

/-- Every instruction on one given qubit. -/
def onQubit (s : Sequence α) (qubit : Int) : Sequence α :=
  { s with instructions := s.instructions.map fun i => { i with qubits := [qubit] } }

def length (s : Sequence α) : Nat := s.instructions.length

/-- How many instructions have a given name. -/
def count (s : Sequence α) (name : String) : Nat := s.instructions.countP fun i => i.name == name

/-- The names that occur, with their counts, in the order of first occurrence. -/
def counts (s : Sequence α) : List (String × Nat) :=
  (s.instructions.map Instruction.name).eraseDups.map fun name => (name, s.count name)

/-- The sequence with a function applied to the phase and to all angles. -/
def mapNumbers (f : α → α) (s : Sequence α) : Sequence α :=
  ⟨s.instructions.map fun i => { i with params := i.params.map f }, f s.phase⟩

variable [Scalar α]

/-- The phase with an angle added. -/
def addPhase (s : Sequence α) (angle : α) : Sequence α := { s with phase := s.phase + angle }

/-- The phase with an angle taken away. -/
def subPhase (s : Sequence α) (angle : α) : Sequence α := { s with phase := s.phase - angle }

/-- One sequence after another; the phases add. -/
def extend (s t : Sequence α) : Sequence α :=
  ⟨s.instructions ++ t.instructions, s.phase + t.phase⟩

/-- The adjoint of each of the first `count` instructions, the last one first. -/
def inverseInstructions : List (Instruction α) → Nat → Outcome α (List (Instruction α))
  | [], _ => .ok []
  | i :: before, index => do
      let (op, params) ← Outcome.within (.inverseOf (index - 1)) (i.op.inverse i.params)
      let rest ← inverseInstructions before (index - 1)
      return ⟨op, params, i.qubits⟩ :: rest

/-- The adjoint: the adjoint instructions in reverse order, with the phase negated. -/
def inverse (s : Sequence α) : Outcome α (Sequence α) := do
  return ⟨← inverseInstructions s.instructions.reverse s.instructions.length, -s.phase⟩

/-- The matrix of an instruction on one qubit, whichever it is. -/
def oneQubitMatrix (index : Nat) (i : Instruction α) : Outcome α (Mat2 α) := do
  let place := .instruction index i.name
  if (← i.op.qubits) ≠ 1 ∨ i.qubits.length ≠ 1 then .error (Cause.within place .arity)
  else Outcome.within place (i.op.matrix2 i.params)

/-- The matrix of an instruction on qubits 0 and 1. -/
def twoQubitMatrix (index : Nat) (i : Instruction α) : Outcome α (Mat4 α) := do
  let place := .instruction index i.name
  let arity ← i.op.qubits
  if i.qubits.length ≠ arity then .error (Cause.within place .arity)
  else
    match i.qubits.find? fun q => q < 0 || 1 < q with
    | some q => .error (Cause.within (.instructionQubit index i.name q) .qubitIndex)
    | none =>
        match i.qubits with
        | [q] => do
            let m ← Outcome.within place (i.op.matrix2 i.params)
            return if q = 0 then .kron Square.identity m else .kron m Square.identity
        | [q, r] =>
            if q = r then .error (.within place (Cause.within .repeatedQubit .qubitIndex))
            else do
              let m ← Outcome.within place (i.op.matrix4 i.params)
              return if q = 1 then m.swapQubits else m
        | _ => .error (Cause.within place .arity)

/-- The product of the matrices of instructions, applied after `u`. -/
def product {β : Type} [Mul β] (matrix : Nat → Instruction α → Outcome α β) :
    List (Instruction α) → Nat → β → Outcome α β
  | [], _, u => .ok u
  | i :: rest, index, u => do
      let g ← matrix index i
      product matrix rest (index + 1) (g * u)

def unitary1 (s : Sequence α) : Outcome α (Mat2 α) := do
  return (← product oneQubitMatrix s.instructions 0 Square.identity).scale (Cx.cis s.phase)

def unitary (s : Sequence α) : Outcome α (Mat4 α) := do
  return (← product twoQubitMatrix s.instructions 0 Square.identity).scale (Cx.cis s.phase)

end Sequence

end Entangle.Circuit
