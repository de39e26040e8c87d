import Entangle.Synthesis.Synthesize

/-!
# Synthesis up to a diagonal

A unitary as a diagonal times a circuit. A diagonal before the circuit can bring the third interaction
angle to zero, which saves an entangling gate.
-/

namespace Entangle.Synthesis

open Circuit (Sequence)

variable {α : Type} [Scalar α]

/-- A diagonal unitary and a circuit whose product is a given unitary. -/
structure UpToDiagonal (α : Type) where
  diagonal : Mat4 α
  circuit : Sequence α

/-- The diagonal that makes the trace of the magic square real. -/
def realTraceTransform (m : Mat4 α) : Mat4 α :=
  let a1 := -m 1 3 * m 2 0 + m 1 2 * m 2 1 + m 1 1 * m 2 2 - m 1 0 * m 2 3
  let a2 := m 0 3 * m 3 0 - m 0 2 * m 3 1 - m 0 1 * m 3 2 + m 0 0 * m 3 3
  let psi := Scalar.atan2 (a1.im + a2.im) (a1.re - a2.re) - 0
  let back (x : α) : Cx α := Cx.cis (-x)
  .diag (back 0) (back 0) (back psi) (back (-(0 + 0 + psi)))

def decomposeUpToDiagonal (u : Mat4 α) : Outcome α (UpToDiagonal α) :=
  Outcome.step "DecomposeUpToDiagonal" do
    let scale := ((Mat4.det u).rpow (-0.25)).conj
    let su := u.scale (1 / scale)
    let delta := realTraceTransform su
    let d ← Decomposer.ofGate (.standard .cx) [] (Options.default.withEuler .u)
    let s ← d.synthesize (delta * su) .default
    return ⟨delta.conj, s.addPhase scale.arg⟩

end Entangle.Synthesis
