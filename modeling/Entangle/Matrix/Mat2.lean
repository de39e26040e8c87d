import Entangle.Cx
import Entangle.Square

/-!
# One-qubit matrices

Complex matrices of two rows, and the operations that complex matrices of every size share.
-/

namespace Entangle

namespace Square

variable {n : Nat} {α : Type} [Scalar α]

def conj (m : Square n (Cx α)) : Square n (Cx α) := m.map Cx.conj

def dagger (m : Square n (Cx α)) : Square n (Cx α) := ofFn fun i j => (m j i).conj

def scale (m : Square n (Cx α)) (s : Cx α) : Square n (Cx α) := m.map (s * ·)

def identity : Square n (Cx α) := diagonal 0 fun _ => 1

/-- Entrywise agreement, real and imaginary parts compared apart. -/
def isClose (a b : Square n (Cx α)) (atol : α) : Bool := all₂ (fun z w => z.isClose w atol) a b

def isFinite (m : Square n (Cx α)) : Bool := m.all Cx.isFinite

@[simp]
theorem get_conj (m : Square n (Cx α)) (i j : Fin n) : m.conj i j = (m i j).conj := by
  simp [conj]

@[simp]
theorem get_dagger (m : Square n (Cx α)) (i j : Fin n) : m.dagger i j = (m j i).conj := by
  simp [dagger]

@[simp]
theorem get_scale (m : Square n (Cx α)) (s : Cx α) (i j : Fin n) : m.scale s i j = s * m i j := by
  simp [scale]

@[simp]
theorem get_identity (i j : Fin n) :
    (identity : Square n (Cx α)) i j = if i = j then 1 else 0 := by
  simp [identity]

end Square

abbrev Mat2 (α : Type) := Square 2 (Cx α)

namespace Mat2

variable {α : Type} [Scalar α]

/-- The matrix with the rows `a b` and `c d`. -/
def of (a b c d : Cx α) : Mat2 α := ⟨#v[#v[a, b], #v[c, d]]⟩

instance : Mul (Mat2 α) := ⟨fun a b => Square.ofFn fun i j => a i 0 * b 0 j + a i 1 * b 1 j⟩

theorem get_mul (a b : Mat2 α) (i j : Fin 2) : (a * b) i j = a i 0 * b 0 j + a i 1 * b 1 j :=
  Square.get_ofFn _ i j

def det (m : Mat2 α) : Cx α := m 0 0 * m 1 1 - m 0 1 * m 1 0

def trace (m : Mat2 α) : Cx α := m 0 0 + m 1 1

def isUnitary (m : Mat2 α) (atol : α) : Bool := (m * m.dagger).isClose Square.identity atol

end Mat2

end Entangle
