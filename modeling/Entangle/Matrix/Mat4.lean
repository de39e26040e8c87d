import Entangle.Matrix.Mat2

/-!
# Two-qubit matrices

Complex and real matrices of four rows. Qubit 0 is the least significant bit of an index: in a
Kronecker product the second factor acts on qubit 0. The determinant eliminates column by column with
the largest entry as pivot and stops at a column without one.
-/

namespace Entangle

abbrev Mat4 (α : Type) := Square 4 (Cx α)

abbrev Real4 (α : Type) := Square 4 α

namespace Mat4

variable {α : Type} [Scalar α]

/-- The matrix with the given sixteen entries, row by row. -/
def of (r0 r1 r2 r3 : Vector (Cx α) 4) : Mat4 α := ⟨#v[r0, r1, r2, r3]⟩

instance : Mul (Mat4 α) := ⟨fun a b => Square.ofFn fun i j =>
  0 + a i 0 * b 0 j + a i 1 * b 1 j + a i 2 * b 2 j + a i 3 * b 3 j⟩

theorem get_mul (a b : Mat4 α) (i j : Fin 4) :
    (a * b) i j = 0 + a i 0 * b 0 j + a i 1 * b 1 j + a i 2 * b 2 j + a i 3 * b 3 j :=
  Square.get_ofFn _ i j

def diag (d0 d1 d2 d3 : Cx α) : Mat4 α := Square.diagonal 0 #v[d0, d1, d2, d3].get

def trace (m : Mat4 α) : Cx α := m 0 0 + m 1 1 + m 2 2 + m 3 3

def real (m : Mat4 α) : Real4 α := m.map Cx.re

def imag (m : Mat4 α) : Real4 α := m.map Cx.im

def isUnitary (m : Mat4 α) (atol : α) : Bool := (m * m.dagger).isClose Square.identity atol

/-- The bit of qubit 1 in an index. -/
def high (i : Fin 4) : Fin 2 := ⟨i / 2, by omega⟩

/-- The bit of qubit 0 in an index. -/
def low (i : Fin 4) : Fin 2 := ⟨i % 2, by omega⟩

/-- The Kronecker product, with the first factor on qubit 1. -/
def kron (a b : Mat2 α) : Mat4 α :=
  Square.ofFn fun i j => a (high i) (high j) * b (low i) (low j)

@[simp]
theorem get_kron (a b : Mat2 α) (i j : Fin 4) :
    kron a b i j = a (high i) (high j) * b (low i) (low j) :=
  Square.get_ofFn _ i j

/-- The index with its two bits exchanged. -/
def exchange : Fin 4 → Fin 4
  | 0 => 0
  | 1 => 2
  | 2 => 1
  | 3 => 3

def swapQubits (m : Mat4 α) : Mat4 α := Square.ofFn fun i j => m (exchange i) (exchange j)

/-- The submatrix at two neighbouring rows and columns. -/
def block (m : Mat4 α) (r c : Fin 3) : Mat2 α :=
  .of (m r.castSucc c.castSucc) (m r.castSucc c.succ) (m r.succ c.castSucc) (m r.succ c.succ)

/-- The submatrix at two rows and two columns that lie two apart. -/
def strided (m : Mat4 α) (r c : Fin 2) : Mat2 α :=
  let near (i : Fin 2) : Fin 4 := ⟨i, by omega⟩
  let far (i : Fin 2) : Fin 4 := ⟨i + 2, by omega⟩
  .of (m (near r) (near c)) (m (near r) (far c)) (m (far r) (near c)) (m (far r) (far c))

/-- An index below `n`, if the number is one. -/
def index? (n : Nat) (i : Int) : Option (Fin n) :=
  if h : 0 ≤ i ∧ i < n then some ⟨i.toNat, by omega⟩ else none

def block? (m : Mat4 α) (r c : Int) : Option (Mat2 α) :=
  return m.block (← index? 3 r) (← index? 3 c)

def strided? (m : Mat4 α) (r c : Int) : Option (Mat2 α) :=
  return m.strided (← index? 2 r) (← index? 2 c)

/-- Every entry off the diagonal is within the tolerance of zero. -/
def isZeroOffDiagonal (m : Mat4 α) (atol : α) : Bool :=
  (List.finRange 4).all fun i => (List.finRange 4).all fun j =>
    i == j || (m i j).isClose 0 atol

/-- The row at or below the diagonal with the largest entry of a column, the first of equals, and the
size of that entry. -/
def pivot (w : Mat4 α) (col : Fin 4) : Fin 4 × α :=
  ((List.finRange 4).filter (col < ·)).foldl
    (fun best i => let size := (w i col).abs; if best.2 < size then (i, size) else best)
    (col, (w col col).abs)

def swapRows (w : Mat4 α) (p q : Fin 4) : Mat4 α :=
  Square.ofFn fun i j => if i = p then w q j else if i = q then w p j else w i j

/-- Clears a column below the diagonal by multiples of the pivot row. -/
def eliminate (w : Mat4 α) (col : Fin 4) : Mat4 α :=
  let factors : Vector (Cx α) 4 := Vector.ofFn fun i => if col < i then w i col / w col col else 0
  Square.ofFn fun i k => if col < i ∧ col ≤ k then w i k - factors[i] * w col k else w i k

/-- The determinant of the part of `w` from the given columns on, times `acc`. -/
def detFrom : List (Fin 4) → Mat4 α → Cx α → Cx α
  | [], _, acc => acc
  | col :: rest, w, acc =>
      let (p, size) := pivot w col
      if size == 0 then 0
      else if p = col then detFrom rest (eliminate w col) (acc * w col col)
      else
        let swapped := swapRows w p col
        detFrom rest (eliminate swapped col) (-acc * swapped col col)

def det (m : Mat4 α) : Cx α := detFrom [0, 1, 2, 3] m 1

end Mat4

namespace Real4

variable {α : Type} [Scalar α]

instance : Mul (Real4 α) := ⟨fun a b => Square.ofFn fun i j =>
  0 + a i 0 * b 0 j + a i 1 * b 1 j + a i 2 * b 2 j + a i 3 * b 3 j⟩

/-- The same matrix with zero imaginary parts. -/
def complex (m : Real4 α) : Mat4 α := m.map Cx.ofReal

def det (m : Real4 α) : α := (Mat4.det m.complex).re

/-- The linear combination `s · a + t · b`. -/
def combine (a : Real4 α) (s : α) (b : Real4 α) (t : α) : Real4 α :=
  Square.zipWith (fun x y => s * x + t * y) a b

end Real4

end Entangle
