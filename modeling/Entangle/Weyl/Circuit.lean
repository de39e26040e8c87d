import Entangle.Euler.Emission
import Entangle.Weyl.Decomposition

/-!
# Circuits of canonical decompositions

A decomposition as a sequence: the inner factors, the interaction, the outer factors. The interaction
is a swap for the swap class, a swap and a rotation for its mirror, and one rotation an angle
otherwise.
-/

namespace Entangle.Weyl

open Circuit (Sequence)

variable {α : Type} [Scalar α]

structure CircuitOptions (α : Type) where
  basis : Option Euler.Basis
  simplify : Bool
  atol : α

namespace CircuitOptions

def default : CircuitOptions α := ⟨none, false, 1e-12⟩

def withBasis (o : CircuitOptions α) (b : Euler.Basis) : CircuitOptions α := { o with basis := some b }

def withBasisNumber (o : CircuitOptions α) (number : UInt8) : Outcome α (CircuitOptions α) :=
  match Euler.Basis.ofNumber? number with
  | some b => .ok (o.withBasis b)
  | none => .error (.rejected .circuitBasis)

def withSimplify (o : CircuitOptions α) (simplify : Bool) : CircuitOptions α :=
  { o with simplify := simplify }

def withAtol (o : CircuitOptions α) (atol : α) : Outcome α (CircuitOptions α) :=
  if Scalar.isTolerance atol then .ok { o with atol := atol }
  else .error (.rejected .circuitTolerance)

end CircuitOptions

namespace Decomposition

/-- A one-qubit factor as a sequence over the gate set of the circuit. -/
def factor (d : Decomposition α) (o : CircuitOptions α) (u : Mat2 α) (qubit : Int) :
    Outcome α (Sequence α) :=
  Outcome.step "Circuit"
    (Euler.decompose u (o.basis.getD d.fitted.basis) ⟨qubit, o.simplify, o.atol⟩)

/-- A rotation of the interaction, unless simplification leaves it out. -/
def interactionTerm (o : CircuitOptions α) (g : Gate.Standard) (angle : α) (s : Sequence α) :
    Sequence α :=
  if !o.simplify || decide (o.atol < Scalar.abs angle) then
    s.append (.standard g) [-2 * angle] [0, 1]
  else s

def appendInteraction (d : Decomposition α) (o : CircuitOptions α) (s : Sequence α) : Sequence α :=
  match d.fitted with
  | .swap => (s.append (.standard .swap) [] [0, 1]).addPhase Scalar.quarterPi
  | .mirrorControlled =>
      ((s.append (.standard .swap) [] [0, 1]).append (.standard .rzz)
        [(Scalar.quarterPi - d.c) * 2] [0, 1]).addPhase Scalar.quarterPi
  | _ => interactionTerm o .rzz d.c (interactionTerm o .ryy d.b (interactionTerm o .rxx d.a s))

def circuit (d : Decomposition α) (o : CircuitOptions α) : Outcome α (Sequence α) := do
  let innerRight ← d.factor o d.k2r 0
  let innerLeft ← d.factor o d.k2l 1
  let middle := d.appendInteraction o (((Sequence.empty d.phase).extend innerRight).extend innerLeft)
  let outerRight ← d.factor o d.k1r 0
  let outerLeft ← d.factor o d.k1l 1
  return (middle.extend outerRight).extend outerLeft

end Decomposition

end Entangle.Weyl
