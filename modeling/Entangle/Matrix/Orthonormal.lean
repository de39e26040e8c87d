import Entangle.Matrix.Mat4

/-!
# Orthonormal columns

The unitary factor of a matrix with independent columns: each column in turn is projected twice
against those before it and brought to length one.
-/

namespace Entangle.Orthonormal

variable {α : Type} [Scalar α]

abbrev Column (α : Type) := Vector (Cx α) 4

def column (m : Mat4 α) (j : Fin 4) : Column α := Vector.ofFn fun i => m i j

def inner (u v : Column α) : Cx α :=
  (List.finRange 4).foldl (fun sum i => sum + (u.get i).conj * v.get i) 0

/-- The column less its component along another. -/
def project (v u : Column α) : Column α :=
  let along := inner u v
  Vector.ofFn fun i => v.get i - along * u.get i

def projectAll (done : List (Column α)) (v : Column α) : Column α := done.foldl project v

def norm (v : Column α) : α :=
  Scalar.sqrt ((List.finRange 4).foldl
    (fun sum i => sum + ((v.get i).re * (v.get i).re + (v.get i).im * (v.get i).im)) 0)

def normalize (v : Column α) : Column α :=
  let length := norm v
  v.map (· / Cx.ofReal length)

/-- The columns done so far with one more. -/
def extend (done : List (Column α)) (v : Column α) : List (Column α) :=
  done ++ [normalize (projectAll done (projectAll done v))]

def columns (m : Mat4 α) : List (Column α) :=
  ((List.finRange 4).map (column m)).foldl extend []

def orthonormalize (m : Mat4 α) : Mat4 α :=
  let done := (columns m).toArray
  Square.ofFn fun i j => (done.getD j (Vector.replicate 4 0)).get i

end Entangle.Orthonormal
