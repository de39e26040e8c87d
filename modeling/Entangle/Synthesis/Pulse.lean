import Entangle.Euler.Emission
import Entangle.Synthesis.Decomposer

/-!
# Pulse-efficient circuits

Circuits for hardware with the controlled-not, the square root of `X` and free rotations about `Z`.
Corrections on the control are written as `ZXZ` rotations and those on the target as `XZX`, so that the
outer rotations pass through the entangling gates and only single gates stay between them. With
three entangling gates, Hadamard gates on both qubits reverse the direction of the controlled-not, and
a rotation of the target becomes one about `Z`.
-/

namespace Entangle.Synthesis

open Circuit (Sequence)
open Gate (Standard rxMatrix rzMatrix hMatrix)
open Weyl (Decomposition)

variable {α : Type} [Scalar α]

/-- An attempt gives a result, does not apply (no fault), or fails. -/
abbrev Attempt (α β : Type) := Except (Option (Fault α)) β

def Attempt.ofOutcome {β : Type} (outcome : Outcome α β) : Attempt α β := outcome.mapError some

/-- The angles of a correction in the order in which its rotations apply. -/
structure Triple (α : Type) where
  first : α
  middle : α
  last : α

def Triple.ofAngles (a : Euler.Angles α) : Triple α := ⟨a.lambda, a.theta, a.phi⟩

/-- The angles of a layer: `ZXZ` on qubit 0 and `XZX` on qubit 1. -/
structure Split (α : Type) where
  right : Triple α
  left : Triple α

/-- The angles of all layers, and the phase with theirs added. -/
def splitLayers : List (Layer α) → α → Outcome α (List (Split α) × α)
  | [], phase => .ok ([], phase)
  | layer :: rest, phase => do
      let r ← Euler.Angles.ofUnitary layer.right .zxz
      let l ← Euler.Angles.ofUnitary layer.left .xzx
      let (splits, total) ← splitLayers rest (phase + r.phase + l.phase)
      return (⟨.ofAngles r, .ofAngles l⟩ :: splits, total)

/-- A one-qubit unitary at the end of the sequence, over the gate set of the decomposer. -/
def Decomposer.appendOneQubit (d : Decomposer α) (s : Sequence α) (u : Mat2 α) (qubit : Int) :
    Outcome α (Sequence α) := do
  return s.extend (← Euler.decompose u d.options.euler { Euler.Options.default with qubit := qubit })

/-- One-qubit unitaries on both qubits. -/
def Decomposer.appendLayer (d : Decomposer α) (s : Sequence α) (layer : Layer α) :
    Outcome α (Sequence α) := do
  d.appendOneQubit (← d.appendOneQubit s layer.right 0) layer.left 1

def emit (s : Sequence α) (g : Standard) (params : List α) (qubits : List Int) : Sequence α :=
  s.append (.standard g) params qubits

def Decomposer.twoGatePulse (d : Decomposer α) (layers : List (Layer α)) (target : Decomposition α) :
    Attempt α (Sequence α) := .ofOutcome do
  let (splits, phase) ← splitLayers layers 0
  match splits with
  | [a, b, c] => do
      let s := Sequence.empty (target.phase - 2 * d.basis.phase + phase)
      let s ← d.appendLayer s
        ⟨rzMatrix (a.right.last + b.right.first + Scalar.halfPi) * rxMatrix a.right.middle *
            rzMatrix a.right.first,
          rxMatrix (a.left.last + b.left.first) * rzMatrix a.left.middle * rxMatrix a.left.first⟩
      let s := emit s .cx [] [0, 1]
      let s := emit s .sx [] [0]
      let s := emit s .rz [b.right.middle - Scalar.pi] [0]
      let s := emit s .sx [] [0]
      let s := emit s .rz [b.left.middle] [1]
      let s := emit (s.addPhase Scalar.halfPi) .cx [] [0, 1]
      d.appendLayer s
        ⟨rzMatrix c.right.last * rxMatrix c.right.middle *
            rzMatrix (b.right.last + c.right.first + Scalar.halfPi),
          rxMatrix c.left.last * rzMatrix c.left.middle * rxMatrix (b.left.last + c.left.first)⟩
  | _ => return Sequence.empty phase

/-- The tolerance for angles with a gate of their own. -/
def pulseAtol : α := 1e-10

def isNearAngle (x y : α) : Bool := decide (Scalar.abs (x - y) ≤ pulseAtol)

/-- A rotation about `X`: the square root of `X` for a right angle, and otherwise, where that is
allowed, a sequence over the gate set. -/
def Decomposer.rootOrRotation (d : Decomposer α) (s : Sequence α) (theta : α) (qubit : Int) :
    Attempt α (Sequence α) :=
  if isNearAngle theta Scalar.halfPi then
    .ok ((emit s .sx [] [qubit]).subPhase Scalar.quarterPi)
  else if d.options.pulse = .required then .error none
  else .ofOutcome (d.appendOneQubit s (rxMatrix theta) qubit)

/-- The rotation about `X` on qubit 0 between the first two entangling gates. -/
structure Join (α : Type) where
  angle : α
  /-- the rotation is there -/
  isTurn : Bool
  /-- the angle is a multiple of a half turn, which moves to the first layer -/
  isFold : Bool
  /-- the multiple is odd, and what it passes is negated -/
  isOdd : Bool

def Join.ofAngle (angle : α) : Join α :=
  let isTurn := !isNearAngle angle 0
  let isFold := isTurn && isNearAngle (Scalar.sin angle) 0
  ⟨angle, isTurn, isFold, isFold && isNearAngle (Scalar.cos angle) (-1)⟩

/-- The circuit with three entangling gates, before it is compared with the target. -/
def Decomposer.threeGateSequence (d : Decomposer α) (a b c e : Split α) (phase : α) :
    Attempt α (Sequence α) := do
  let join := Join.ofAngle (b.right.last + c.right.first)
  let outer := a.right.last + b.right.first
  let outer := if join.isFold then outer - join.angle else outer
  let s := Sequence.empty phase
  let s ← Attempt.ofOutcome <| d.appendLayer s
    ⟨hMatrix * rzMatrix outer * rxMatrix a.right.middle * rzMatrix a.right.first,
      hMatrix * rxMatrix (a.left.last + b.left.first) * rzMatrix a.left.middle *
        rxMatrix a.left.first⟩
  let s := emit s .cx [] [1, 0]
  let s :=
    if join.isOdd then (emit s .rz [-b.right.middle] [0]).addPhase Scalar.pi
    else emit s .rz [b.right.middle] [0]
  let s ← if join.isTurn && !join.isFold then d.rootOrRotation s join.angle 0 else .ok s
  let s ← d.rootOrRotation s b.left.middle 1
  let s := emit s .rz [b.left.last + c.left.first] [1]
  let s := emit s .cx [] [1, 0]
  let s := emit s .rz [c.right.middle] [0]
  let s ← d.rootOrRotation s c.left.middle 1
  let s := emit s .cx [] [1, 0]
  Attempt.ofOutcome <| d.appendLayer s
    ⟨rzMatrix e.right.last * rxMatrix e.right.middle * rzMatrix (c.right.last + e.right.first) * hMatrix,
      rxMatrix e.left.last * rzMatrix e.left.middle * rxMatrix (c.left.last + e.left.first) * hMatrix⟩

/-- The circuit with three entangling gates, if it reproduces the target. -/
def Decomposer.threeGatePulse (d : Decomposer α) (layers : List (Layer α)) (target : Decomposition α) :
    Attempt α (Sequence α) := do
  let (splits, phase) ← Attempt.ofOutcome (splitLayers layers 0)
  match splits with
  | [a, b, c, e] => do
      let s ← d.threeGateSequence a b c e (target.phase - 3 * d.basis.phase + phase)
      let u ← Attempt.ofOutcome s.unitary
      if u.isClose target.reconstruct 1e-9 then return s else .error none
  | _ => .error none

/-- The fault of a pulse form that is required and does not apply. -/
def unsupported (place : Place α) : Fault α := Cause.within place .unsupportedPulse

/-- The pulse form for a count of entangling gates. None and one have no such form. -/
def Decomposer.pulse (d : Decomposer α) (n : Fin 4) (layers : List (Layer α))
    (target : Decomposition α) : Attempt α (Sequence α) :=
  let refuse (place : Place α) : Attempt α (Sequence α) :=
    .error (if d.options.pulse = .required then some (unsupported place) else none)
  if n = 0 ∨ n = 1 then .error none
  else if d.options.euler ≠ .zsx ∧ d.options.euler ≠ .zsxx then
    refuse (.pulseBasis d.options.euler.name)
  else if !d.gate.isStandard .cx then refuse (.pulseGate d.gate.name)
  else
    match if n = 2 then d.twoGatePulse layers target else d.threeGatePulse layers target with
    | .error none => refuse .pulseSearch
    | result => result

end Entangle.Synthesis
