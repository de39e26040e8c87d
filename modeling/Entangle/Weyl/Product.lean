import Entangle.Fault
import Entangle.Matrix.Mat4

/-!
# Products of one-qubit unitaries

Splitting a matrix of the form `e^{iφ} · (L ⊗ R)` into factors of determinant one and the phase.
-/

namespace Entangle.Weyl

variable {α : Type} [Scalar α]

structure Product (α : Type) where
  /-- the factor on qubit 1 -/
  left : Mat2 α
  /-- the factor on qubit 0 -/
  right : Mat2 α
  phase : α

namespace Product

/-- The block of the first column of blocks that is not near singular, with its determinant. -/
def rightBlock (u : Mat4 α) : Mat2 α × Cx α :=
  let top := Mat4.block u 0 0
  if top.det.abs < 0.1 then
    let bottom := Mat4.block u 2 0
    (bottom, bottom.det)
  else (top, top.det)

/-- The matrix divided by the square root of its determinant. -/
def normalize (m : Mat2 α) (det : Cx α) : Mat2 α := m.scale (1 / det.sqrt)

def decompose (u : Mat4 α) : Outcome α (Product α) :=
  Outcome.step "DecomposeProduct" <|
    let (block, detR) := rightBlock u
    if detR.abs < 0.1 then .error (Cause.within (.rightFactor detR.abs) .notProduct)
    else
      let right := normalize block detR
      let left := Mat4.strided (u * Mat4.kron Square.identity right.dagger) 0 0
      let detL := left.det
      if detL.abs < 0.9 then .error (Cause.within (.leftFactor detL.abs) .notProduct)
      else .ok ⟨normalize left detL, right, detL.arg / 2⟩

end Product

end Entangle.Weyl
