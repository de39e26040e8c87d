import Entangle.Scalar.Binary64
import Entangle.Matrix.Orthonormal
import Entangle.Random.Normal

/-!
# Random unitaries

Unitaries drawn uniformly: a point of the unit sphere in four dimensions with a phase for one qubit,
and the orthonormalised columns of a Gaussian matrix for two.
-/

namespace Entangle.Random

variable {σ : Type} [Source σ]

/-- The one-qubit unitary of a point of the sphere, before its phase. -/
def ofSphere {α : Type} [Scalar α] (x0 x1 x2 x3 : α) : Mat2 α :=
  let length := Scalar.sqrt (0 + x0 * x0 + x1 * x1 + x2 * x2 + x3 * x3)
  let a : Cx α := ⟨x0 / length, x1 / length⟩
  let b : Cx α := ⟨x2 / length, x3 / length⟩
  .of a (-b.conj) b a.conj

def unitary2 : Draw σ (Mat2 Float) := do
  let x0 ← Coarse.normal
  let x1 ← Coarse.normal
  let x2 ← Coarse.normal
  let x3 ← Coarse.normal
  let turn ← Coarse.unit
  return (ofSphere x0 x1 x2 x3).scale (Cx.cis (Scalar.tau * turn))

def gaussianEntry : Draw σ (Cx Float) := do
  let re ← Coarse.normal
  let im ← Coarse.normal
  return (⟨re, im⟩ : Cx Float) / Cx.ofReal (Scalar.sqrt 2)

/-- The matrix with sixteen entries, row by row. -/
def ofEntries {α : Type} [Scalar α] (entries : List (Cx α)) : Mat4 α :=
  let stored := entries.toArray
  Square.ofFn fun i j => stored.getD (i * 4 + j) 0

/-- The two-qubit unitary of sixteen entries. -/
def orthonormal4 {α : Type} [Scalar α] (entries : List (Cx α)) : Mat4 α :=
  Orthonormal.orthonormalize (ofEntries entries)

def unitary4 : Draw σ (Mat4 Float) := return orthonormal4 (← repeated gaussianEntry 16)

/-- The stream that is used where none is given. -/
def defaultStream : Permuted := .ofSeeds 1 1

end Entangle.Random
