import Entangle.Matrix.Jacobi
import Entangle.Random.Normal

/-!
# Diagonalising complex symmetric matrices

A unitary symmetric matrix has commuting real and imaginary parts, so a rotation that diagonalises a
generic mixture of the two diagonalises both. The first mixture is fixed; further ones are drawn from
a fixed stream until the rotation reproduces the matrix.
-/

namespace Entangle.Weyl

variable {α : Type} [Scalar α]

/-- Weights of the real and imaginary part. -/
structure Mixture (α : Type) where
  re : α
  im : α

def firstMixture : Mixture α := ⟨1.2602066112249388, 0.22317849046722027⟩

def maxTrials : Nat := 100

def mixtureDraw : Random.Draw Random.Multiplicative (Float × Float) := do
  let re ← Random.Fine.normal
  let im ← Random.Fine.normal
  return (re, im)

/-- The mixtures after the first, as drawn from the stream of a fixed seed. -/
def laterDraws : List (Float × Float) :=
  Random.resultFrom (.ofSeed 2023) (Random.repeated mixtureDraw (maxTrials - 1))

def mixtures : List (Mixture α) :=
  firstMixture :: laterDraws.map fun (re, im) => ⟨Scalar.ofFloat re, Scalar.ofFloat im⟩

/-- A rotation and the diagonal that it gives. -/
structure Diagonalization (α : Type) where
  rotation : Real4 α
  values : Vector (Cx α) 4

namespace Diagonalization

/-- The symmetric matrix that has the given rotation and diagonal. -/
def matrix (d : Diagonalization α) : Mat4 α :=
  let p := Real4.complex d.rotation
  p * Square.diagonal 0 d.values.get * p.transpose

/-- The diagonal of a matrix in a rotated frame. -/
def ofRotation (m : Mat4 α) (rotation : Real4 α) : Diagonalization α :=
  let p := Real4.complex rotation
  let turned := p.transpose * m * p
  ⟨rotation, Vector.ofFn fun k => turned k k⟩

/-- The diagonalisation by one mixture, if it reproduces the matrix. -/
def ofMixture? (m : Mat4 α) (mixture : Mixture α) : Option (Diagonalization α) :=
  match Jacobi.eigen ((Mat4.real m).combine mixture.re (Mat4.imag m) mixture.im) .default with
  | .error _ => none
  | .ok eigen =>
      let d := ofRotation m eigen.vectors
      if d.matrix.isClose m 1e-13 then some d else none

end Diagonalization

def diagonalize (m : Mat4 α) : Outcome α (Diagonalization α) :=
  match mixtures.findSome? (Diagonalization.ofMixture? m) with
  | some d => .ok d
  | none => Outcome.step "New" (.error (Cause.within (.trials maxTrials) .degenerateEigenproblem))

end Entangle.Weyl
