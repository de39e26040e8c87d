import Entangle.Euler.Emission
import Entangle.Weyl.Decomposition

/-!
# Synthesis over a gate family

A family `G(θ)` of two-qubit gates that is locally equivalent to the interaction `exp(-iθ/2·XX)` up to a
scale of its angle. One application realises each angle of a canonical form: the first as it is, the
second and third between frame changes on both qubits.
-/

namespace Entangle.Family

open Circuit (Sequence)
open Gate (Operation rxxMatrix sMatrix sdgMatrix hMatrix)
open Weyl (Decomposition)

variable {α : Type} [Scalar α]

structure Options where
  euler : Euler.Basis

namespace Options

def default : Options := ⟨.zxz⟩

def withEuler (b : Euler.Basis) : Options := ⟨b⟩

def withEulerNumber (number : UInt8) : Outcome α Options :=
  match Euler.Basis.ofNumber? number with
  | some b => .ok ⟨b⟩
  | none => .error (.rejected .familyBasis)

end Options

structure Decomposer (α : Type) where
  gate : Operation α
  euler : Euler.Basis
  /-- `G(scale · θ)` is locally equivalent to the interaction by `θ` -/
  scale : α
  s : Sequence α
  sdg : Sequence α
  h : Sequence α

/-- The largest disagreement between probes. -/
def scaleAtol : α := 1e-12

/-- The fault of a probe, seen from its angle. -/
def atProbe {β : Type} (theta : α) (outcome : Outcome α β) : Outcome α β :=
  outcome.mapError (Fault.familyProbe theta)

/-- The scale of a gate at one angle. -/
def probeScale (gate : Operation α) (theta : α) : Outcome α α := do
  let u ← gate.matrix4 [theta]
  let exact ← atProbe theta (Decomposition.ofUnitary u .default)
  let rxx ← Decomposition.ofUnitary (rxxMatrix theta)
    (Weyl.Options.default.withoutFidelity.withClass .controlled)
  let fitted ← atProbe theta (Decomposition.ofUnitary u (Weyl.Options.default.withClass .controlled))
  let scale := rxx.a / fitted.a
  if scaleAtol < Scalar.abs (2 * exact.a - theta / scale) then
    .error (.familyMismatch theta gate.name)
  else return scale

/-- The gate acts on two qubits and takes one angle. -/
def hasSignature (gate : Operation α) : Outcome α Bool := do
  if (← gate.qubits) ≠ 2 then return false else return (← gate.angles) = 1

namespace Decomposer

def ofGate (gate : Operation α) (o : Options) : Outcome α (Decomposer α) :=
  Outcome.step "New" do
    if !(← hasSignature gate) then .error (.familySignature gate.name)
    else
      let first ← probeScale gate 0.2
      let second ← probeScale gate 0.3
      let third ← probeScale gate Scalar.halfPi
      let differs (x : α) : Bool := decide (scaleAtol < Scalar.abs (x - first))
      if differs second || differs third then .error (.familyScales [first, second, third])
      else
        let frame (m : Mat2 α) : Outcome α (Sequence α) := Euler.decompose m o.euler .default
        return ⟨gate, o.euler, first, ← frame sMatrix, ← frame sdgMatrix, ← frame hMatrix⟩

/-- How many angles of the canonical form exceed a tolerance. -/
def gateCount (_ : Decomposer α) (u : Mat4 α) (atol : α) : Outcome α Nat :=
  Outcome.step "NumBasisGates" do
    let target ← Decomposition.ofUnitary u .default
    return [target.a, target.b, target.c].countP fun x => decide (atol < Scalar.abs x)

/-- The sequence of a one-qubit unitary. -/
def oneQubit (d : Decomposer α) (u : Mat2 α) (qubit : Int) : Outcome α (Sequence α) :=
  Euler.decompose u d.euler { Euler.Options.default with qubit := qubit }

/-- The sequence of the adjoint of a one-qubit unitary. -/
def oneQubitInverse (d : Decomposer α) (u : Mat2 α) (qubit : Int) : Outcome α (Sequence α) := do
  (← d.oneQubit u qubit).inverse

/-- A circuit for the interaction by a non-positive angle: one application between the adjoints of
its own one-qubit factors. -/
def toInteraction (d : Decomposer α) (angle : α) : Outcome α (Sequence α) := do
  let params := [d.scale * angle]
  let own ← Decomposition.ofUnitary (← d.gate.matrix4 params) .default
  let innerRight ← d.oneQubitInverse own.k2r 0
  let innerLeft ← d.oneQubitInverse own.k2l 1
  let s := ((Sequence.empty (-own.phase)).extend innerRight).extend innerLeft
  let s := s.append d.gate params [0, 1]
  let outerRight ← d.oneQubitInverse own.k1r 0
  let outerLeft ← d.oneQubitInverse own.k1l 1
  return (s.extend outerRight).extend outerLeft

/-- A one-qubit sequence on both qubits, gate by gate; its phase counts twice. -/
def appendBoth (s part : Sequence α) : Sequence α :=
  let both := part.instructions.flatMap fun i =>
    [{ i with qubits := [0] }, { i with qubits := [1] }]
  ⟨s.instructions ++ both, s.phase + 2 * part.phase⟩

/-- The circuit of the third angle: for a positive one, the adjoint of the circuit of its negation
would need a positive angle of the gate, so the roles are exchanged. -/
def thirdInteraction (d : Decomposer α) (c : α) : Outcome α (Sequence α) := do
  let gamma := -2 * c
  if gamma ≤ 0 then d.toInteraction gamma else (← d.toInteraction (-gamma)).inverse

def appendInteraction (d : Decomposer α) (s : Sequence α) (target : Decomposition α) (atol : α) :
    Outcome α (Sequence α) := do
  let s := s.extend (← d.toInteraction (-2 * target.a))
  let s ←
    if atol < Scalar.abs target.b then do
      let yy ← d.toInteraction (-2 * target.b)
      pure (appendBoth ((appendBoth s d.sdg).extend yy) d.s)
    else pure s
  if atol < Scalar.abs target.c then do
    let zz ← d.thirdInteraction target.c
    return appendBoth ((appendBoth s d.h).extend zz) d.h
  else return s

/-- The tolerance below which an angle needs no application. -/
def defaultAtol : α := 1e-12

/-- A tolerance that a synthesis may set. -/
def checkAtol (atol : α) : Outcome α α :=
  if Scalar.isTolerance atol then .ok atol else .error (.rejected .familyTolerance)

def synthesize (d : Decomposer α) (u : Mat4 α) (atol : α) : Outcome α (Sequence α) :=
  Outcome.step "Synthesize" do
    let target ← Decomposition.ofUnitary u .default
    let s := (Sequence.empty target.phase).extend (← d.oneQubit target.k2r 0)
    let s := s.extend (← d.oneQubit target.k2l 1)
    let s ← d.appendInteraction s target atol
    let s := s.extend (← d.oneQubit target.k1r 0)
    return s.extend (← d.oneQubit target.k1l 1)

end Decomposer

end Entangle.Family
