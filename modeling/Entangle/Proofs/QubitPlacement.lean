import Mathlib
import Entangle.Proofs.CircuitShape
import Entangle.Proofs.SequenceExtension

/-!
# Gates on their qubits

Gates on one qubit each, in whichever order they stand, act on the two qubits apart: each qubit carries the product of
its own gates. Exchanging the labels of the qubits exchanges the qubits of the unitary, whatever the gates are, and
what has no unitary keeps its fault. Both hold instruction by instruction and are carried through a sequence.
-/

namespace Entangle

open Circuit (Instruction Sequence)
open Gate (Operation Standard)

/-! ## Kronecker products and exchanged qubits -/

theorem Mat2.identity_mul (a : Mat2 ℝ) : Square.identity * a = a := by
  apply Square.toMatrix_injective
  rw [toMatrix_mul, Square.toMatrix_identity, Matrix.one_mul]

namespace Mat4

theorem kron_mul_kron (a b c d : Mat2 ℝ) : kron a b * kron c d = kron (a * c) (b * d) := by
  apply Square.toMatrix_injective
  rw [toMatrix_mul, toMatrix_kron, toMatrix_kron, toMatrix_kron, tensor_mul_tensor, Mat2.toMatrix_mul, Mat2.toMatrix_mul]

theorem kron_identity : kron (Square.identity : Mat2 ℝ) Square.identity = Square.identity := by
  apply Square.toMatrix_injective
  rw [toMatrix_kron, Square.toMatrix_identity, Square.toMatrix_identity, tensor_one_one]

/-- Exchanging the bits of an index twice changes nothing. -/
theorem exchange_involutive : Function.Involutive exchange := by
  intro k
  revert k
  decide

theorem high_exchange (k : Fin 4) : high (exchange k) = low k := by
  revert k
  decide

theorem low_exchange (k : Fin 4) : low (exchange k) = high k := by
  revert k
  decide

@[simp]
theorem get_swapQubits {α : Type} (m : Mat4 α) (i j : Fin 4) : m.swapQubits i j = m (exchange i) (exchange j) :=
  Square.get_ofFn _ i j

@[simp]
theorem swapQubits_swapQubits {α : Type} (m : Mat4 α) : m.swapQubits.swapQubits = m := by
  ext i j <;> simp [exchange_involutive _]

theorem swapQubits_kron (a b : Mat2 ℝ) : (kron a b).swapQubits = kron b a := by
  apply Square.toMatrix_injective
  ext i j
  simp [high_exchange, low_exchange, mul_comm]

theorem swapQubits_mul (a b : Mat4 ℝ) : (a * b).swapQubits = a.swapQubits * b.swapQubits := by
  apply Square.toMatrix_injective
  rw [Circuit.toMatrix_swapQubits, toMatrix_mul, toMatrix_mul, Circuit.toMatrix_swapQubits, Circuit.toMatrix_swapQubits,
    ← Function.Involutive.coe_toPerm exchange_involutive, Matrix.submatrix_mul_equiv]

theorem swapQubits_scale (a : Mat4 ℝ) (z : Cx ℝ) : swapQubits (a.scale z) = a.swapQubits.scale z := by
  ext i j <;> simp

theorem swapQubits_identity : swapQubits (Square.identity : Mat4 ℝ) = Square.identity := by
  rw [← kron_identity, swapQubits_kron]

/-- A one-qubit matrix on one of the two qubits. -/
def place {α : Type} [Scalar α] (q : ℤ) (m : Mat2 α) : Mat4 α :=
  if q = 0 then kron Square.identity m else kron m Square.identity

theorem place_zero_mul_kron (m a b : Mat2 ℝ) : place 0 m * kron a b = kron a (m * b) := by
  rw [place, if_pos rfl, kron_mul_kron, Mat2.identity_mul]

theorem place_one_mul_kron (m a b : Mat2 ℝ) : place 1 m * kron a b = kron (m * a) b := by
  rw [place, if_neg one_ne_zero, kron_mul_kron, Mat2.identity_mul]

end Mat4

namespace Circuit

/-! ## Exchanged labels -/

section Labels

variable {α : Type}

/-- The instruction on other qubits. -/
def Instruction.relabel (label : ℤ → ℤ) (i : Instruction α) : Instruction α := { i with qubits := i.qubits.map label }

/-- The same gates on other qubits. -/
def Sequence.relabel (label : ℤ → ℤ) (s : Sequence α) : Sequence α :=
  { s with instructions := s.instructions.map (Instruction.relabel label) }

end Labels

theorem outside_swap (q : ℤ) : (Equiv.swap (0 : ℤ) 1 q < 0 || 1 < Equiv.swap (0 : ℤ) 1 q) = (q < 0 || 1 < q) := by
  rcases eq_or_ne q 0 with rfl | zero
  · simp
  rcases eq_or_ne q 1 with rfl | one
  · simp
  rw [Equiv.swap_apply_of_ne_of_ne zero one]

/-- A qubit that is neither of the two keeps its label. -/
theorem find_swap (qubits : List ℤ) : ((qubits.map (Equiv.swap 0 1)).find? fun q => q < 0 || 1 < q) =
    qubits.find? fun q => q < 0 || 1 < q := by
  simp only [List.find?_map, Function.comp_def, outside_swap]
  cases bad : qubits.find? fun q => q < 0 || 1 < q with
  | none => rfl
  | some q =>
    have outside : q < 0 ∨ 1 < q := by simpa using List.find?_some bad
    rw [Option.map_some, Equiv.swap_apply_of_ne_of_ne (by omega) (by omega)]

theorem eq_zero_or_one_of_find {qubits : List ℤ} (inside : (qubits.find? fun q => q < 0 || 1 < q) = none) {q : ℤ}
    (member : q ∈ qubits) : q = 0 ∨ q = 1 := by
  have bounds := List.find?_eq_none.mp inside q member
  simp only [Bool.or_eq_true, decide_eq_true_eq, not_or, not_lt] at bounds
  omega

namespace Sequence

/-- On exchanged qubits an instruction has its matrix with the qubits exchanged, or the same fault. -/
theorem twoQubitMatrix_relabel (index : ℕ) (i : Instruction ℝ) :
    twoQubitMatrix index (i.relabel (Equiv.swap 0 1)) = (twoQubitMatrix index i).map Mat4.swapQubits := by
  obtain ⟨op, params, qubits⟩ := i
  unfold twoQubitMatrix Instruction.relabel Instruction.name
  dsimp only
  cases arity : op.qubits with
  | error fault => rfl
  | ok arity =>
    simp only [bind, Except.bind, List.length_map, find_swap]
    split
    · rfl
    cases bad : qubits.find? fun q => q < 0 || 1 < q with
    | some q => rfl
    | none =>
      match qubits with
      | [] => rfl
      | [q] =>
        simp only [List.map_cons, List.map_nil]
        cases op.matrix2 params with
        | error fault => rfl
        | ok m =>
          refine congrArg Except.ok ?_
          rcases eq_zero_or_one_of_find bad List.mem_cons_self with rfl | rfl <;> simp [Mat4.swapQubits_kron]
      | [q, r] =>
        simp only [List.map_cons, List.map_nil, (Equiv.swap (0 : ℤ) 1).injective.eq_iff]
        split
        · rfl
        cases op.matrix4 params with
        | error fault => rfl
        | ok m =>
          refine congrArg Except.ok ?_
          rcases eq_zero_or_one_of_find bad List.mem_cons_self with rfl | rfl <;> simp
      | _ :: _ :: _ :: _ => rfl

theorem product_relabel (is : List (Instruction ℝ)) (index : ℕ) (u : Mat4 ℝ) :
    product twoQubitMatrix (is.map (Instruction.relabel (Equiv.swap 0 1))) index u.swapQubits =
      (product twoQubitMatrix is index u).map Mat4.swapQubits := by
  induction is generalizing index u with
  | nil => rfl
  | cons i rest ih =>
    rw [List.map_cons, product, product, twoQubitMatrix_relabel]
    cases twoQubitMatrix index i with
    | error fault => rfl
    | ok g =>
      change product twoQubitMatrix (rest.map (Instruction.relabel (Equiv.swap 0 1))) (index + 1)
        (g.swapQubits * u.swapQubits) = _
      rw [← Mat4.swapQubits_mul]
      exact ih (index + 1) (g * u)

/-- A sequence on exchanged qubits has the unitary with exchanged qubits, or the same fault. -/
theorem unitary_relabel (s : Sequence ℝ) :
    (s.relabel (Equiv.swap 0 1)).unitary = s.unitary.map Mat4.swapQubits := by
  have exchanged := product_relabel s.instructions 0 Square.identity
  rw [Mat4.swapQubits_identity] at exchanged
  unfold unitary relabel
  dsimp only
  rw [exchanged]
  cases product twoQubitMatrix s.instructions 0 Square.identity with
  | error fault => rfl
  | ok v => exact congrArg Except.ok (Mat4.swapQubits_scale v _).symm

end Sequence

/-! ## Gates on one qubit each -/

/-- A standard gate on one qubit, the given one. -/
structure Instruction.OnWire {α : Type} (i : Instruction α) (q : ℤ) : Prop where
  gate : ∃ g : Standard, i.op = .standard g ∧ g.qubits = 1
  qubits : i.qubits = [q]

/-- A standard gate with as many angles as it takes. -/
def Instruction.Complete {α : Type} (i : Instruction α) : Prop :=
  ∃ g : Standard, i.op = .standard g ∧ i.params.length = g.angles

/-- The instructions on one qubit, without the phase. -/
def Sequence.onWire (s : Sequence ℝ) (q : ℤ) : Sequence ℝ := ⟨s.instructions.filter fun i => i.qubits = [q], 0⟩

namespace Instruction

variable {α : Type} {i : Instruction α} {q : ℤ}

theorem OnWire.sound (single : i.OnWire q) (wire : q = 0 ∨ q = 1) (complete : i.Complete) : i.Sound := by
  obtain ⟨g, op, count⟩ := complete
  obtain ⟨⟨g', op', one⟩, qubits⟩ := single
  obtain rfl := Operation.standard.inj (op.symm.trans op')
  rcases wire with rfl | rfl
  · exact ⟨g, op, count, .inl ⟨one, .inl qubits⟩⟩
  · exact ⟨g, op, count, .inl ⟨one, .inr qubits⟩⟩

theorem OnWire.complete [Scalar α] (single : i.OnWire q) {m : Mat2 α} (evaluated : i.op.matrix2 i.params = .ok m) :
    i.Complete := by
  obtain ⟨g, op, -⟩ := single.gate
  obtain ⟨dense, known, -⟩ := bind_eq_ok.mp evaluated
  rw [op] at known
  refine ⟨g, op, ?_⟩
  unfold Operation.matrix at known
  dsimp only at known
  split at known
  next found => exact Standard.length_of_matrix found
  next => cases known

end Instruction

namespace Sequence

section Matrices

variable {α : Type} [Scalar α] {i : Instruction α} {q : ℤ}

theorem oneQubitMatrix_eq_ok (single : i.OnWire q) {index : ℕ} {m : Mat2 α} :
    oneQubitMatrix index i = .ok m ↔ i.op.matrix2 i.params = .ok m := by
  obtain ⟨op, params, qubits⟩ := i
  obtain ⟨⟨g, rfl, one⟩, rfl⟩ := single
  have value : oneQubitMatrix index ⟨.standard g, params, [q]⟩ =
      Outcome.within (.instruction index g.name) ((Operation.standard g).matrix2 params) := by
    simp [oneQubitMatrix, Operation.qubits, one, bind, Except.bind]
    rfl
  rw [value]
  exact mapError_eq_ok

theorem twoQubitMatrix_eq_ok (single : i.OnWire q) (wire : q = 0 ∨ q = 1) {index : ℕ} {w : Mat4 α} :
    twoQubitMatrix index i = .ok w ↔ ∃ m, i.op.matrix2 i.params = .ok m ∧ Mat4.place q m = w := by
  obtain ⟨op, params, qubits⟩ := i
  obtain ⟨⟨g, rfl, one⟩, rfl⟩ := single
  have value : twoQubitMatrix index ⟨.standard g, params, [q]⟩ = (do
      let m ← Outcome.within (.instruction index g.name) ((Operation.standard g).matrix2 params)
      return Mat4.place q m) := by
    rcases wire with rfl | rfl <;>
    · simp [twoQubitMatrix, Operation.qubits, one, bind, Except.bind]
      rfl
  rw [value, bind_eq_ok]
  constructor
  · rintro ⟨m, evaluated, result⟩
    exact ⟨m, mapError_eq_ok.mp evaluated, Except.ok.inj result⟩
  · rintro ⟨m, evaluated, rfl⟩
    exact ⟨m, mapError_eq_ok.mpr evaluated, rfl⟩

end Matrices

theorem product_cons_eq_ok {β : Type} [Mul β] {matrix : ℕ → Instruction ℝ → Outcome ℝ β} {i : Instruction ℝ}
    {rest : List (Instruction ℝ)} {index : ℕ} {u v : β} :
    product matrix (i :: rest) index u = .ok v ↔
      ∃ g, matrix index i = .ok g ∧ product matrix rest (index + 1) (g * u) = .ok v :=
  bind_eq_ok

section Wires

variable {i : Instruction ℝ} {q r : ℤ} {u v : Mat2 ℝ}

/-- The first gate on a qubit is the first factor of the product there. -/
theorem product_here (single : i.OnWire q) (rest : List (Instruction ℝ)) (index : ℕ) :
    product oneQubitMatrix ((i :: rest).filter fun j => j.qubits = [q]) index u = .ok v ↔
      ∃ m, i.op.matrix2 i.params = .ok m ∧
        product oneQubitMatrix (rest.filter fun j => j.qubits = [q]) (index + 1) (m * u) = .ok v := by
  rw [List.filter_cons_of_pos (by simp [single.qubits]), product_cons_eq_ok]
  simp only [oneQubitMatrix_eq_ok single]

/-- A gate on one qubit is no factor of the product on another. -/
theorem product_elsewhere (single : i.OnWire r) (other : r ≠ q) (rest : List (Instruction ℝ)) (index : ℕ) :
    product oneQubitMatrix ((i :: rest).filter fun j => j.qubits = [q]) index u =
      product oneQubitMatrix (rest.filter fun j => j.qubits = [q]) index u := by
  rw [List.filter_cons_of_neg (by simp [single.qubits, other])]

end Wires

/-- Gates on one qubit each multiply on the two qubits apart. -/
theorem product_onWire {is : List (Instruction ℝ)} (each : ∀ i ∈ is, i.OnWire 0 ∨ i.OnWire 1) (index j k : ℕ)
    (a b : Mat2 ℝ) (w : Mat4 ℝ) :
    product twoQubitMatrix is index (.kron a b) = .ok w ↔
      ∃ u v, product oneQubitMatrix (is.filter fun i => i.qubits = [1]) j a = .ok u ∧
        product oneQubitMatrix (is.filter fun i => i.qubits = [0]) k b = .ok v ∧ .kron u v = w := by
  -- a gate stands at one place in the whole and at another among the gates of its qubit, so the places are free
  induction is generalizing index j k a b with
  | nil =>
    constructor
    · intro computed
      exact ⟨a, b, rfl, rfl, Except.ok.inj computed⟩
    · rintro ⟨u, v, first, second, rfl⟩
      rw [← Except.ok.inj first, ← Except.ok.inj second]
      rfl
  | cons i rest ih =>
    rw [List.forall_mem_cons] at each
    obtain ⟨here, others⟩ := each
    rw [product_cons_eq_ok]
    rcases here with low | high
    · simp only [twoQubitMatrix_eq_ok low (.inl rfl), product_elsewhere low zero_ne_one, product_here low]
      constructor
      · rintro ⟨_, ⟨m, evaluated, rfl⟩, computed⟩
        rw [Mat4.place_zero_mul_kron, ih others (index + 1) j (k + 1)] at computed
        obtain ⟨u, v, first, second, rfl⟩ := computed
        exact ⟨u, v, first, ⟨m, evaluated, second⟩, rfl⟩
      · rintro ⟨u, v, first, ⟨m, evaluated, second⟩, rfl⟩
        refine ⟨_, ⟨m, evaluated, rfl⟩, ?_⟩
        rw [Mat4.place_zero_mul_kron, ih others (index + 1) j (k + 1)]
        exact ⟨u, v, first, second, rfl⟩
    · simp only [twoQubitMatrix_eq_ok high (.inr rfl), product_elsewhere high one_ne_zero, product_here high]
      constructor
      · rintro ⟨_, ⟨m, evaluated, rfl⟩, computed⟩
        rw [Mat4.place_one_mul_kron, ih others (index + 1) (j + 1) k] at computed
        obtain ⟨u, v, first, second, rfl⟩ := computed
        exact ⟨u, v, ⟨m, evaluated, first⟩, second, rfl⟩
      · rintro ⟨u, v, ⟨m, evaluated, first⟩, second, rfl⟩
        refine ⟨_, ⟨m, evaluated, rfl⟩, ?_⟩
        rw [Mat4.place_one_mul_kron, ih others (index + 1) (j + 1) k]
        exact ⟨u, v, first, second, rfl⟩

theorem unitary1_phaseless {is : List (Instruction ℝ)} {u : Mat2 ℝ} :
    unitary1 ⟨is, 0⟩ = .ok u ↔ product oneQubitMatrix is 0 Square.identity = .ok u := by
  have unscaled (m : Mat2 ℝ) : m.scale (Cx.cis 0) = m := by
    apply Square.toMatrix_injective
    rw [Square.toMatrix_scale, Cx.toComplex_cis, Complex.ofReal_zero, zero_mul, Complex.exp_zero, one_smul]
  unfold unitary1
  dsimp only
  cases product oneQubitMatrix is 0 (Square.identity : Mat2 ℝ) with
  | error fault => exact Iff.rfl
  | ok v =>
    change Except.ok (v.scale (Cx.cis 0)) = Except.ok u ↔ _
    rw [unscaled]

variable {s : Sequence ℝ}

theorem unitary_onWire (each : s.Over fun i => i.OnWire 0 ∨ i.OnWire 1) (w : Mat4 ℝ) :
    s.unitary = .ok w ↔ ∃ u₁ u₀, (s.onWire 1).unitary1 = .ok u₁ ∧ (s.onWire 0).unitary1 = .ok u₀ ∧
      w = (Mat4.kron u₁ u₀).scale (Cx.cis s.phase) := by
  simp only [onWire, unitary1_phaseless]
  constructor
  · intro computed
    obtain ⟨v, multiplied, result⟩ := bind_eq_ok.mp computed
    rw [← Mat4.kron_identity, product_onWire each 0 0 0] at multiplied
    obtain ⟨u₁, u₀, first, second, rfl⟩ := multiplied
    exact ⟨u₁, u₀, first, second, (Except.ok.inj result).symm⟩
  · rintro ⟨u₁, u₀, first, second, rfl⟩
    refine bind_eq_ok.mpr ⟨.kron u₁ u₀, ?_, rfl⟩
    rw [← Mat4.kron_identity, product_onWire each 0 0 0]
    exact ⟨u₁, u₀, first, second, rfl⟩

/-- Such gates have a unitary exactly if none of them misses an angle. -/
theorem exists_unitary_iff (each : s.Over fun i => i.OnWire 0 ∨ i.OnWire 1) :
    (∃ w, s.unitary = .ok w) ↔ s.Over Instruction.Complete := by
  constructor
  · rintro ⟨w, computed⟩ i member
    obtain ⟨v, multiplied, -⟩ := bind_eq_ok.mp computed
    obtain ⟨index, g, placed⟩ := exists_matrix_of_product multiplied member
    rcases each i member with low | high
    · obtain ⟨m, evaluated, -⟩ := (twoQubitMatrix_eq_ok low (.inl rfl)).mp placed
      exact low.complete evaluated
    · obtain ⟨m, evaluated, -⟩ := (twoQubitMatrix_eq_ok high (.inr rfl)).mp placed
      exact high.complete evaluated
  · intro complete
    refine exists_unitary fun i member => ?_
    rcases each i member with low | high
    · exact low.sound (.inl rfl) (complete i member)
    · exact high.sound (.inr rfl) (complete i member)

/-- Standard gates on one qubit each act on the qubits apart, in whichever order they stand, and fail only where a gate
misses an angle. Exchanged labels exchange the qubits of the unitary of any gates, and keep a fault. -/
theorem unitary_on_qubits (s : Sequence ℝ) :
    ((s.Over fun i => i.OnWire 0 ∨ i.OnWire 1) →
      ((∃ w, s.unitary = .ok w) ↔ s.Over Instruction.Complete) ∧
        ∀ w, s.unitary = .ok w ↔ ∃ u₁ u₀, (s.onWire 1).unitary1 = .ok u₁ ∧ (s.onWire 0).unitary1 = .ok u₀ ∧
          w = (Mat4.kron u₁ u₀).scale (Cx.cis s.phase)) ∧
      (s.relabel (Equiv.swap 0 1)).unitary = s.unitary.map Mat4.swapQubits :=
  ⟨fun each => ⟨exists_unitary_iff each, unitary_onWire each⟩, unitary_relabel s⟩

/-- Gates on the two qubits by turns, two on each. -/
def alternating : Sequence ℝ :=
  ⟨[⟨.standard .u2, [1, 2], [0]⟩, ⟨.standard .h, [], [1]⟩, ⟨.standard .rx, [3], [0]⟩, ⟨.standard .sxdg, [], [1]⟩], 4⟩

theorem unitary_on_qubits_alternating :
    ∃ u₁ u₀, (alternating.onWire 1).unitary1 = .ok u₁ ∧ (alternating.onWire 0).unitary1 = .ok u₀ ∧
      alternating.unitary = .ok ((Mat4.kron u₁ u₀).scale (Cx.cis 4)) ∧
      (alternating.relabel (Equiv.swap 0 1)).unitary = .ok ((Mat4.kron u₀ u₁).scale (Cx.cis 4)) := by
  have each : alternating.Over fun i => i.OnWire 0 ∨ i.OnWire 1 := by
    intro i member
    simp only [alternating, List.mem_cons, List.not_mem_nil, or_false] at member
    rcases member with rfl | rfl | rfl | rfl
    · exact .inl ⟨⟨.u2, rfl, rfl⟩, rfl⟩
    · exact .inr ⟨⟨.h, rfl, rfl⟩, rfl⟩
    · exact .inl ⟨⟨.rx, rfl, rfl⟩, rfl⟩
    · exact .inr ⟨⟨.sxdg, rfl, rfl⟩, rfl⟩
  have complete : alternating.Over Instruction.Complete := by
    intro i member
    simp only [alternating, List.mem_cons, List.not_mem_nil, or_false] at member
    rcases member with rfl | rfl | rfl | rfl <;> exact ⟨_, rfl, rfl⟩
  obtain ⟨apart, exchanged⟩ := unitary_on_qubits alternating
  obtain ⟨succeeds, splits⟩ := apart each
  obtain ⟨w, computed⟩ := succeeds.mpr complete
  obtain ⟨u₁, u₀, first, second, rfl⟩ := (splits w).mp computed
  refine ⟨u₁, u₀, first, second, computed, ?_⟩
  rw [exchanged, computed]
  exact congrArg Except.ok (by rw [Mat4.swapQubits_scale, Mat4.swapQubits_kron]; rfl)

end Sequence

end Circuit

end Entangle
