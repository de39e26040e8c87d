import Mathlib
import Entangle.Circuit.Sequence
import Entangle.Proofs.Rotations

/-!
# What a sequence denotes

A sequence over gates with a matrix denotes one matrix, phase included: each instruction multiplies
from the left, whatever stands before it and at whatever place it stands. Appending, extending and
changing the phase act on what is denoted, so that a sequence is read step by step as it is built.
-/

noncomputable section

namespace Entangle

open Matrix Complex

/-! ## Row-major storage -/

namespace Square

variable {β : Type} {n : ℕ}

theorem getElem?_flatten {rows : List (List β)} (even : ∀ row ∈ rows, row.length = n) (i : ℕ) {j : ℕ}
    (inside : j < n) : rows.flatten[i * n + j]? = rows[i]?.bind fun row => row[j]? := by
  induction rows generalizing i with
  | nil => simp
  | cons row rest ih =>
    have size : row.length = n := even row (by simp)
    rw [List.flatten_cons]
    cases i with
    | zero =>
      rw [List.getElem?_append_left (by omega)]
      simp
    | succ i =>
      have place : (i + 1) * n + j = row.length + (i * n + j) := by
        rw [size]
        ring
      rw [place, List.getElem?_append_right (by omega), Nat.add_sub_cancel_left,
        ih fun other member => even other (by simp [member])]
      simp

/-- Every entry is in its place. -/
theorem getD_flatten (m : Square n β) (i j : Fin n) (fallback : β) :
    m.toRows.flatten.toArray.getD (i * n + j) fallback = m i j := by
  have even : ∀ row ∈ m.toRows, row.length = n := by
    intro row member
    obtain ⟨stored, -, rfl⟩ := List.mem_map.mp member
    simp
  have row : m.toRows[(i : ℕ)]? = some m.rows[i].toList := by simp [toRows]
  have found := getElem?_flatten even i j.isLt
  rw [row] at found
  rw [Array.getD_eq_getD_getElem?]
  simp [found, get]

end Square

section Storage

variable {α : Type} [Scalar α]

theorem Dense.toMat2_ofMat2 (m : Mat2 α) : (ofMat2 m).toMat2 = .ok m := by
  refine congrArg Except.ok (Square.ext fun i j => ?_)
  rw [Square.get_ofFn]
  exact m.getD_flatten i j 0

theorem Dense.toMat4_ofMat4 (m : Mat4 α) : (ofMat4 m).toMat4 = .ok m := by
  refine congrArg Except.ok (Square.ext fun i j => ?_)
  rw [Square.get_ofFn]
  exact m.getD_flatten i j 0

namespace Gate.Operation

variable {g : Standard} {params : List α}

theorem matrix2_standard {m : Mat2 α} (known : g.matrix? params = some (.one m)) :
    (standard g).matrix2 params = .ok m := by
  rw [matrix2, matrix, known]
  exact Dense.toMat2_ofMat2 m

theorem matrix4_standard {m : Mat4 α} (known : g.matrix? params = some (.two m)) :
    (standard g).matrix4 params = .ok m := by
  rw [matrix4, matrix, known]
  exact Dense.toMat4_ofMat4 m

end Gate.Operation

end Storage

/-! ## Instructions -/

namespace Circuit.Sequence

open Gate (Operation Standard)

section Placement

variable {α : Type} [Scalar α] {g : Standard} {op : Operation α} {params : List α}

/-- A one-qubit gate on either qubit. -/
theorem twoQubitMatrix_single {m : Mat2 α} {q : ℤ} (known : g.matrix? params = some (.one m)) (arity : g.qubits = 1)
    (wire : q = 0 ∨ q = 1) (index : ℕ) : twoQubitMatrix index ⟨.standard g, params, [q]⟩ =
      .ok (if q = 0 then .kron Square.identity m else .kron m Square.identity) := by
  have stored := Operation.matrix2_standard known
  rcases wire with rfl | rfl <;>
  · simp [twoQubitMatrix, Operation.qubits, arity, stored, bind, Except.bind, Outcome.within]
    rfl

/-- A two-qubit gate on the qubits in order. -/
theorem twoQubitMatrix_two {m : Mat4 α} (arity : op.qubits = .ok 2) (stored : op.matrix4 params = .ok m) (index : ℕ) :
    twoQubitMatrix index ⟨op, params, [0, 1]⟩ = .ok m := by
  simp [twoQubitMatrix, arity, stored, bind, Except.bind, Outcome.within]
  rfl

/-- A two-qubit gate on the qubits in reverse order. -/
theorem twoQubitMatrix_swapped {m : Mat4 α} (arity : op.qubits = .ok 2) (stored : op.matrix4 params = .ok m) (index : ℕ) :
    twoQubitMatrix index ⟨op, params, [1, 0]⟩ = .ok m.swapQubits := by
  simp [twoQubitMatrix, arity, stored, bind, Except.bind, Outcome.within]
  rfl

end Placement

/-- A one-qubit matrix on qubit 0 or 1. -/
def placed (q : ℤ) (v : OneQubit) : TwoQubit := if q = 0 then tensor 1 v else tensor v 1

theorem placed_mul (q : ℤ) (v w : OneQubit) : placed q v * placed q w = placed q (v * w) := by
  unfold placed
  split <;> rw [tensor_mul_tensor, Matrix.one_mul]

@[simp]
theorem placed_one (q : ℤ) : placed q 1 = 1 := by simp [placed]

theorem placed_smul (q : ℤ) (z : ℂ) (v : OneQubit) : placed q (z • v) = z • placed q v := by
  unfold placed
  split
  · rw [tensor_smul_right]
  · rw [tensor_smul_left]

theorem tensor_eq_placed (v w : OneQubit) : tensor v w = placed 1 v * placed 0 w := by
  simp [placed, tensor_mul_tensor]

theorem twoQubitMatrix_one {g : Standard} {params : List ℝ} {m : Mat2 ℝ} {q : ℤ}
    (known : g.matrix? params = some (.one m)) (arity : g.qubits = 1) (wire : q = 0 ∨ q = 1) (index : ℕ) :
    ∃ v, twoQubitMatrix index ⟨.standard g, params, [q]⟩ = .ok v ∧ v.toMatrix = placed q m.toMatrix := by
  refine ⟨_, twoQubitMatrix_single known arity wire index, ?_⟩
  unfold placed
  split <;> simp

/-- The controlled-not, with qubit 0 as its control. -/
def controlledNot : TwoQubit := (Gate.cxMatrix : Mat4 ℝ).toMatrix

theorem twoQubitMatrix_controlledNot (index : ℕ) :
    twoQubitMatrix index ⟨.standard .cx, [], [0, 1]⟩ = .ok (Gate.cxMatrix : Mat4 ℝ) :=
  twoQubitMatrix_two rfl (Operation.matrix4_standard rfl) index

/-! ## Sequences -/

theorem product_append (is js : List (Instruction ℝ)) (index : ℕ) (u : Mat4 ℝ) :
    product twoQubitMatrix (is ++ js) index u =
      (product twoQubitMatrix is index u).bind (product twoQubitMatrix js (index + is.length)) := by
  induction is generalizing index u with
  | nil => rfl
  | cons i rest ih =>
    rw [List.cons_append, product, product]
    cases twoQubitMatrix index i with
    | error fault => rfl
    | ok g =>
      have place : index + (i :: rest).length = index + 1 + rest.length := by
        rw [List.length_cons]
        omega
      rw [place]
      exact ih (index + 1) (g * u)

/-- A product has taken the matrix of each instruction. -/
theorem exists_matrix_of_product {β : Type} [Mul β] {matrix : ℕ → Instruction ℝ → Outcome ℝ β} {is : List (Instruction ℝ)}
    {index : ℕ} {u v : β} (computed : product matrix is index u = .ok v) {i : Instruction ℝ} (member : i ∈ is) :
    ∃ k m, matrix k i = .ok m := by
  induction is generalizing index u with
  | nil => cases member
  | cons first rest ih =>
    obtain ⟨g, known, later⟩ := bind_eq_ok.mp computed
    rcases List.mem_cons.mp member with rfl | member
    · exact ⟨index, g, known⟩
    · exact ih later member

/-- Instructions multiply by a matrix, wherever they stand. -/
def Multiplies (is : List (Instruction ℝ)) (m : TwoQubit) : Prop :=
  ∀ (index : ℕ) (u : Mat4 ℝ),
    ∃ v, product twoQubitMatrix is index u = .ok v ∧ v.toMatrix = m * u.toMatrix

theorem Multiplies.nil : Multiplies [] 1 := fun _ u => ⟨u, rfl, (Matrix.one_mul _).symm⟩

theorem Multiplies.append {is js : List (Instruction ℝ)} {m n : TwoQubit} (first : Multiplies is m)
    (second : Multiplies js n) : Multiplies (is ++ js) (n * m) := by
  intro index u
  obtain ⟨v, computed, value⟩ := first index u
  obtain ⟨w, computed', value'⟩ := second (index + is.length) v
  refine ⟨w, ?_, ?_⟩
  · rw [product_append, computed]
    exact computed'
  · rw [value', value, Matrix.mul_assoc]

theorem Multiplies.single {i : Instruction ℝ} {m : TwoQubit}
    (known : ∀ index, ∃ v, twoQubitMatrix index i = .ok v ∧ v.toMatrix = m) : Multiplies [i] m := by
  intro index u
  obtain ⟨v, computed, value⟩ := known index
  refine ⟨v * u, ?_, ?_⟩
  · rw [product, computed]
    rfl
  · rw [Mat4.toMatrix_mul, value]

/-- A sequence denotes a matrix, phase included. -/
def Denotes (s : Sequence ℝ) (w : TwoQubit) : Prop :=
  ∃ m, Multiplies s.instructions m ∧ w = exp (s.phase * I) • m

namespace Denotes

variable {s t : Sequence ℝ} {w w' : TwoQubit}

theorem empty (phase : ℝ) : Denotes (.empty phase) (exp (phase * I) • 1) :=
  ⟨1, .nil, rfl⟩

theorem extend (first : Denotes s w) (second : Denotes t w') : Denotes (s.extend t) (w' * w) := by
  obtain ⟨m, multiplies, rfl⟩ := first
  obtain ⟨n, multiplies', rfl⟩ := second
  refine ⟨n * m, multiplies.append multiplies', ?_⟩
  have phases : exp ((s.extend t).phase * I) = exp (t.phase * I) * exp (s.phase * I) := by
    rw [← Complex.exp_add, ← add_mul, ← Complex.ofReal_add, add_comm]
    rfl
  rw [phases, Matrix.smul_mul, Matrix.mul_smul, smul_smul]

theorem push {i : Instruction ℝ} {m : TwoQubit} (first : Denotes s w)
    (known : ∀ index, ∃ v, twoQubitMatrix index i = .ok v ∧ v.toMatrix = m) :
    Denotes (s.push i) (m * w) := by
  obtain ⟨n, multiplies, rfl⟩ := first
  exact ⟨m * n, multiplies.append (.single known), Matrix.mul_smul _ _ _⟩

theorem addPhase (first : Denotes s w) (angle : ℝ) :
    Denotes (s.addPhase angle) (exp (angle * I) • w) := by
  obtain ⟨m, multiplies, rfl⟩ := first
  refine ⟨m, multiplies, ?_⟩
  rw [smul_smul, ← Complex.exp_add, ← add_mul, ← Complex.ofReal_add, add_comm]
  rfl

theorem subPhase (first : Denotes s w) (angle : ℝ) :
    Denotes (s.subPhase angle) (exp (-angle * I) • w) := by
  have sum := first.addPhase (-angle)
  rw [Complex.ofReal_neg] at sum
  rw [Sequence.subPhase, sub_eq_add_neg]
  exact sum

/-- A sequence that denotes a matrix has it as its unitary. -/
theorem unitary (denotes : Denotes s w) : ∃ u, s.unitary = .ok u ∧ u.toMatrix = w := by
  obtain ⟨m, multiplies, rfl⟩ := denotes
  obtain ⟨v, computed, value⟩ := multiplies 0 Square.identity
  refine ⟨v.scale (Cx.cis s.phase), ?_, ?_⟩
  · rw [Sequence.unitary, computed]
    rfl
  · rw [Square.toMatrix_scale, value, Square.toMatrix_identity, Matrix.mul_one, Cx.toComplex_cis]

end Denotes

end Circuit.Sequence

end Entangle

end
