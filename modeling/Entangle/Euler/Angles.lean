import Entangle.Matrix.Mat4
import Entangle.Euler.Basis

/-!
# Angles of one-qubit unitaries

Every convention reduces to `u = e^{iγ} · Rz(φ) · Ry(θ) · Rz(λ)` with `θ` in `[0, π]`, for the matrix
itself or for its image in a rotated frame.
-/

namespace Entangle.Euler

variable {α : Type} [Scalar α]

structure Angles (α : Type) where
  theta : α
  phi : α
  lambda : α
  phase : α

/-- The quarter turn about `Y`, which takes `Z` to `X`. -/
def quarterTurnY : Mat2 α :=
  .of ⟨Scalar.sqrtHalf, 0⟩ ⟨-Scalar.sqrtHalf, 0⟩ ⟨Scalar.sqrtHalf, 0⟩ ⟨Scalar.sqrtHalf, 0⟩

/-- The third of a turn that takes `Z` to `X` and `Y` to `Z`. -/
def cyclicTurn : Mat2 α := .of ⟨0.5, -0.5⟩ ⟨-0.5, -0.5⟩ ⟨0.5, -0.5⟩ ⟨0.5, 0.5⟩

namespace Angles

def zyz (u : Mat2 α) : Angles α :=
  let detArg := u.det.arg
  let theta := 2 * Scalar.atan2 (u 1 0).abs (u 0 0).abs
  let a11 := (u 1 1).arg
  let a10 := (u 1 0).arg
  ⟨theta, a11 + a10 - detArg, a11 - a10, detArg / 2⟩

def zxz (u : Mat2 α) : Angles α :=
  let a := zyz u
  { a with phi := a.phi + Scalar.halfPi, lambda := a.lambda - Scalar.halfPi }

def xyx (u : Mat2 α) : Angles α := zyz (quarterTurnY.dagger * u * quarterTurnY)

def xzx (u : Mat2 α) : Angles α := zyz (cyclicTurn.dagger * u * cyclicTurn)

/-- The angles in the convention of a gate set, for a finite matrix. -/
def inBasis (u : Mat2 α) : Basis → Angles α
  | .zyz | .rr => zyz u
  | .zxz => zxz u
  | .xyx => xyx u
  | .xzx => xzx u
  | .u3 | .u321 | .u =>
      let a := zyz u
      { a with phase := a.phase - (a.phi + a.lambda) / 2 }
  | .psx | .zsx | .zsxx | .u1x =>
      let a := zyz u
      { a with phase := a.phase - (a.theta + a.phi + a.lambda) / 2 }

def ofUnitary (u : Mat2 α) (basis : Basis) : Outcome α (Angles α) :=
  if u.isFinite then .ok (inBasis u basis) else .error (.plain .nonFiniteRotation)

/-- The angles in the convention of the gate set with a given number. -/
def ofUnitaryNumbered (u : Mat2 α) (number : UInt8) : Outcome α (Angles α) :=
  if u.isFinite then (Basis.ofNumber number).map (inBasis u)
  else .error (.plain .nonFiniteRotation)

end Angles

end Entangle.Euler
