import Entangle.Command.Failure
import Entangle.Gate.Call
import Entangle.Matrix.Unitarity
import Entangle.Matrix.Written

/-!
# Targets

The unitary that a run is about: the matrix in a file, if the argument names one, and otherwise that of
a two-qubit gate.
-/

namespace Entangle.Command

/-- The texts of the files that can be read, by name. -/
abbrev Files := String → Option String

namespace Target

/-- How far the product of a matrix from a file with its adjoint may be from the identity: entries are
usually written with a limited number of digits. -/
def unitaryAtol : Float := 1e-6

/-- A written gate on two qubits. -/
def parseCall (text : String) : Except Failure Gate.Call := do
  let call ← lift (Gate.Call.parse text)
  if call.gate.qubits = 2 then return call
  else .error (.qubitCount call.gate.name call.gate.qubits)

/-- The matrix written in the file of a given name. -/
def ofFile (name text : String) : Except Failure (Mat4 Float) := do
  let m ← during name (lift (Dense.parse text))
  during name (lift (Dense.requireUnitary (some m) unitaryAtol))
  lift m.toMat4

def ofCall (text : String) : Except Failure (Mat4 Float) := do
  let call ← parseCall text
  lift (Gate.Operation.matrix4 (.standard call.gate) call.params)

def load (files : Files) (argument : String) : Except Failure (Mat4 Float) :=
  match files argument with
  | some text => ofFile argument text
  | none => ofCall argument

end Target

end Entangle.Command
