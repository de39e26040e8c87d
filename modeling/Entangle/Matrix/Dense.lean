import Entangle.Word
import Entangle.Fault
import Entangle.Matrix.Mat4

/-!
# Matrices of any shape

Row-major storage for matrices that come from outside: files, gate families, callers. Dimensions and
positions are machine integers, so the length of the storage is the product of the dimensions reduced
to 64 bits. An entry is written only if it is finite.
-/

namespace Entangle

structure Dense (α : Type) where
  rows : Int
  cols : Int
  data : Array (Cx α)

namespace Dense

variable {α : Type} [Scalar α]

/-- The most entries that storage can be asked for: `2^44`. -/
def capacity : Int := 0x100000000000

def zero (rows cols : Int) : Outcome α (Dense α) :=
  if rows ≤ 0 ∨ cols ≤ 0 then .error (.plain .invalidDimensions)
  else
    let size := word (rows * cols)
    if size < 0 ∨ capacity < size then .error .storage
    else .ok ⟨rows, cols, Array.replicate size.toNat 0⟩

def inRange (m : Dense α) (i j : Int) : Bool := 0 ≤ i && i < m.rows && 0 ≤ j && j < m.cols

/-- The place of an entry in the storage. -/
def offset (m : Dense α) (i j : Int) : Int := word (i * m.cols + j)

def read (m : Dense α) (i j : Int) : Outcome α (Cx α) :=
  if m.inRange i j then
    let k := m.offset i j
    if k < 0 then .error .storage
    else
      match m.data[k.toNat]? with
      | some z => .ok z
      | none => .error .storage
  else .error (Cause.within (.entry "At" i j) .indexOutOfRange)

def write (m : Dense α) (i j : Int) (z : Cx α) : Outcome α (Dense α) :=
  if !m.inRange i j then .error (Cause.within (.entry "Set" i j) .indexOutOfRange)
  else if !z.isFinite then .error (Cause.within (.entry "Set" i j) .nonFiniteEntry)
  else
    let k := m.offset i j
    if 0 ≤ k ∧ k < m.data.size then .ok { m with data := m.data.setIfInBounds k.toNat z }
    else .error .storage

/-- A matrix with storage of its own. -/
def copy (m : Dense α) : Dense α := { m with data := #[] ++ m.data }

/-- Writes the entries of row `i`, from column `j` on. -/
def writeRow (i : Nat) : Nat → List (Cx α) → Dense α → Outcome α (Dense α)
  | _, [], m => .ok m
  | j, z :: rest, m => do writeRow i (j + 1) rest (← m.write i j z)

/-- Writes all rows, from row `i` on, each of which must have `cols` entries. -/
def writeRows (cols : Nat) : Nat → List (List (Cx α)) → Dense α → Outcome α (Dense α)
  | _, [], m => .ok m
  | i, row :: rest, m =>
      if row.length ≠ cols then
        .error (Cause.within (.raggedRow i row.length cols) .dimensionMismatch)
      else do writeRows cols (i + 1) rest (← writeRow i 0 row m)

/-- The matrix with given rows: at least one row, all of one positive length, all entries finite. -/
def ofRows (rows : List (List (Cx α))) : Outcome α (Dense α) :=
  Outcome.step "NewDenseFromRows" <|
    match rows with
    | [] => .error (.plain .invalidDimensions)
    | first :: _ => do writeRows first.length 0 rows (← zero rows.length first.length)

def ofMat2 (m : Mat2 α) : Dense α := ⟨2, 2, m.toRows.flatten.toArray⟩

def ofMat4 (m : Mat4 α) : Dense α := ⟨4, 4, m.toRows.flatten.toArray⟩

def shapeFault (m : Dense α) : Fault α := Cause.within (.shape m.rows m.cols) .dimensionMismatch

/-- The entry at a place of the storage that the shape is known to cover. -/
def stored (m : Dense α) (k : Nat) : Cx α := m.data.getD k 0

def toMat2 (m : Dense α) : Outcome α (Mat2 α) :=
  if m.rows = 2 ∧ m.cols = 2 then .ok (Square.ofFn fun i j => m.stored (i * 2 + j))
  else Outcome.step "ToMat2" (.error m.shapeFault)

def toMat4 (m : Dense α) : Outcome α (Mat4 α) :=
  if m.rows = 4 ∧ m.cols = 4 then .ok (Square.ofFn fun i j => m.stored (i * 4 + j))
  else Outcome.step "ToMat4" (.error m.shapeFault)

theorem toMat2_eq_ok {m : Dense α} {u : Mat2 α} : m.toMat2 = .ok u ↔
    (m.rows = 2 ∧ m.cols = 2) ∧ u = Square.ofFn fun i j => m.stored (i * 2 + j) := by
  unfold toMat2
  split <;> rename_i shape
  · simp [shape, eq_comm]
  · simp [shape, Outcome.step_eq_ok]

theorem toMat4_eq_ok {m : Dense α} {u : Mat4 α} : m.toMat4 = .ok u ↔
    (m.rows = 4 ∧ m.cols = 4) ∧ u = Square.ofFn fun i j => m.stored (i * 4 + j) := by
  unfold toMat4
  split <;> rename_i shape
  · simp [shape, eq_comm]
  · simp [shape, Outcome.step_eq_ok]

/-- A matrix that may be absent, where one is needed. -/
def present (m : Option (Dense α)) : Outcome α (Dense α) :=
  match m with
  | some m => .ok m
  | none => .error (.plain .absentMatrix)

/-- The results of a computation at `start`, `start + 1`, …, up to the first fault. -/
def collect {β : Type} (f : Nat → Outcome α β) : (count start : Nat) → Outcome α (List β)
  | 0, _ => .ok []
  | count + 1, start => do
      let x ← f start
      let rest ← collect f count (start + 1)
      return x :: rest

def toRows (m : Dense α) : Outcome α (List (List (Cx α))) :=
  collect (fun i => collect (fun j => m.read i j) m.cols.toNat 0) m.rows.toNat 0

end Dense

end Entangle
