import Entangle.Circuit.Sequence
import Entangle.Gate.Param

/-!
# Circuits as text

OpenQASM 2.0 over one register that reaches the highest qubit. The global phase is a comment, since the
format has no statement for it.
-/

namespace Entangle.Circuit.Sequence

/-- The first reason why an instruction cannot be written. -/
def checkWritable {α : Type} (index : Nat) (i : Instruction α) : Outcome α Unit := do
  let arity ← i.op.qubits
  if i.qubits.length ≠ arity then .error (Cause.within (.instruction index i.name) .arity)
  else
    match i.qubits.find? (· < 0) with
    | some q => .error (Cause.within (.instructionQubit index i.name q) .qubitIndex)
    | none => .ok ()

def checkAllWritable {α : Type} : Nat → List (Instruction α) → Outcome α Unit
  | _, [] => .ok ()
  | index, i :: rest => do
      checkWritable index i
      checkAllWritable (index + 1) rest

/-- The register width: at least one, and past every qubit whose successor is a machine integer. -/
def width {α : Type} (s : Sequence α) : Int :=
  (s.instructions.flatMap Instruction.qubits).foldl (fun w q => max w (word (q + 1))) 1

/-- One instruction, with its angles as a given function writes them. -/
def instructionText {α : Type} (write : α → String) (i : Instruction α) : String :=
  let params := if i.params.isEmpty then "" else
    "(" ++ ",".intercalate (i.params.map write) ++ ")"
  i.name ++ params ++ " " ++ ",".intercalate (i.qubits.map fun q => s!"q[{q}]") ++ ";\n"

/-- The text with the phase and all angles as a given function writes them. -/
def qasmWith {α : Type} (write : α → String) (s : Sequence α) : Outcome α String := do
  checkAllWritable 0 s.instructions
  return "OPENQASM 2.0;\n" ++ "include \"qelib1.inc\";\n" ++
    "// global phase: " ++ write s.phase ++ "\n" ++ s!"qreg q[{s.width}];\n" ++
    String.join (s.instructions.map (instructionText write))

def qasm (s : Sequence Float) : Outcome Float String := s.qasmWith Gate.formatParam

end Entangle.Circuit.Sequence
