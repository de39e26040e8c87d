import Entangle.Matrix.Dense

/-!
# Checks on matrices

Conditions that a matrix from outside has to meet before it is used: it is there, it is square, and
its product with its adjoint is the identity within a tolerance.
-/

namespace Entangle.Dense

variable {α : Type} [Scalar α]

def requirePresent (m : Option (Dense α)) : Outcome α (Dense α) :=
  Outcome.step "ValidateNotNil" (present m)

def requireSquare (m : Option (Dense α)) : Outcome α (Dense α) := do
  let m ← requirePresent m
  if m.rows = m.cols then return m else Outcome.step "ValidateSquare" (.error m.shapeFault)

/-- The entry of the product of a matrix of `n` rows with its adjoint, less that of the identity. -/
def defect (m : Dense α) (n i j : Nat) : Cx α :=
  let sum := (List.range n).foldl
    (fun acc k => acc + m.stored (i * n + k) * (m.stored (j * n + k)).conj) 0
  if i = j then sum - 1 else sum

/-- The larger part of a defect, if it is a number. -/
def deviation? (z : Cx α) : Option α :=
  let dev := Scalar.larger (Scalar.abs z.re) (Scalar.abs z.im)
  if Scalar.isNaN dev then none else some dev

/-- The largest deviation of all entries, unless one of them is no number. -/
def worstDeviation? (m : Dense α) (n : Nat) : Option α :=
  let places := (List.range n).flatMap fun i => (List.range n).map fun j => (i, j)
  places.foldlM (fun worst (i, j) => (deviation? (m.defect n i j)).map (Scalar.larger worst)) 0

def requireUnitary (m : Option (Dense α)) (atol : α) : Outcome α Unit := do
  let m ← requireSquare m
  Outcome.step "ValidateUnitary" <|
    if m.rows ≠ 2 ∧ m.rows ≠ 4 then
      .error (Cause.within (.shapeWanted m.rows m.cols) .dimensionMismatch)
    else if !Scalar.isTolerance atol then .error (.plain .nonFiniteEntry)
    else
      match m.worstDeviation? m.rows.toNat with
      | none => .error (.plain .nonFiniteEntry)
      | some worst =>
          if atol < worst then .error (Cause.within (.deviation worst atol) .notUnitary) else .ok ()

/-- A matrix of two or four rows passes the check if no deviation is above the tolerance or no number. -/
theorem requireUnitary_iff_worst {m : Dense α} {n : Nat} {atol : α} (size : n = 2 ∨ n = 4) (rows : m.rows = n)
    (cols : m.cols = n) (tolerance : Scalar.isTolerance atol = true) :
    requireUnitary (some m) atol = .ok () ↔ ∃ worst, m.worstDeviation? n = some worst ∧ ¬ atol < worst := by
  have square : requireSquare (some m) = .ok m := by
    change (if m.rows = m.cols then _ else _) = _
    rw [rows, cols, if_pos rfl]
    rfl
  have admitted : ¬ ((n : Int) ≠ 2 ∧ (n : Int) ≠ 4) := by omega
  rw [requireUnitary, square]
  change Outcome.step "ValidateUnitary" _ = _ ↔ _
  rw [Outcome.step_eq_ok, rows, if_neg admitted, tolerance, Int.toNat_natCast]
  cases m.worstDeviation? n <;> simp

end Entangle.Dense
