import Mathlib
import Entangle.Proofs.SequenceInverse

/-!
# Emitted sequences on one qubit

A sequence over a gate set depends on its qubit only through the label of each instruction, and on the tolerance
only through the angles that are left out. Read on its one qubit, whichever that is, it therefore multiplies to the
unitary within what the tolerance leaves out, and to the unitary itself where nothing may be left out.
-/

noncomputable section

namespace Entangle

open Circuit (Instruction Sequence)
open Gate (Standard)

/-! ## Another qubit -/

namespace Circuit.Sequence

variable {α : Type}

@[simp]
theorem onQubit_empty (phase : α) (q : ℤ) : (empty phase).onQubit q = empty phase := rfl

variable [Scalar α]

@[simp]
theorem onQubit_addPhase (s : Sequence α) (angle : α) (q : ℤ) :
    (s.addPhase angle).onQubit q = (s.onQubit q).addPhase angle := rfl

/-- The matrix of an instruction on one qubit does not depend on which it is. -/
theorem oneQubitMatrix_onQubit (index : ℕ) {i : Instruction α} (one : i.qubits.length = 1) (q : ℤ) :
    oneQubitMatrix index { i with qubits := [q] } = oneQubitMatrix index i := by
  simp only [oneQubitMatrix, Instruction.name, one, List.length_singleton]

theorem product_onQubit {is : List (Instruction α)} (each : ∀ i ∈ is, i.qubits.length = 1) (q : ℤ) (index : ℕ) (u : Mat2 α) :
    product oneQubitMatrix (is.map fun i => { i with qubits := [q] }) index u = product oneQubitMatrix is index u := by
  induction is generalizing index u with
  | nil => rfl
  | cons i rest ih =>
    rw [List.forall_mem_cons] at each
    rw [List.map_cons, product, product, oneQubitMatrix_onQubit index each.1]
    simp only [ih each.2]

theorem unitary1_onQubit {s : Sequence α} (each : s.Over fun i => i.qubits.length = 1) (q : ℤ) :
    (s.onQubit q).unitary1 = s.unitary1 := by
  rw [unitary1, unitary1, onQubit, product_onQubit each]

end Circuit.Sequence

namespace Euler

variable {α : Type} {o o' : Options α}

theorem onQubit_emit (o' : Options α) (s : Sequence α) (g : Standard) (params : List α) :
    (o.emit s g params).onQubit o'.qubit = o'.emit (s.onQubit o'.qubit) g params := by
  simp [Options.emit, Sequence.append, Sequence.push, Sequence.onQubit]

variable [Scalar α]

/-- Options that leave out the same angles. -/
def Options.Agree (o o' : Options α) : Prop := ∀ angle, o.drops angle = o'.drops angle

theorem onQubit_rotation (agree : o.Agree o') (g : Standard) (angle : α) (s : Sequence α) :
    (rotation o g angle s).onQubit o'.qubit = rotation o' g angle (s.onQubit o'.qubit) := by
  unfold rotation
  dsimp only
  rw [agree]
  split
  · rfl
  · exact onQubit_emit o' _ _ _

theorem onQubit_threeRotations (agree : o.Agree o') (outer middle : Standard) (a : Angles α) :
    (threeRotations o outer middle a).onQubit o'.qubit = threeRotations o' outer middle a := by
  unfold threeRotations
  dsimp only
  rw [agree]
  split
  · rw [onQubit_rotation agree, Sequence.onQubit_empty]
  · rw [onQubit_rotation agree, onQubit_rotation agree, onQubit_rotation agree, Sequence.onQubit_empty]

theorem onQubit_oneGate (agree : o.Agree o') (kind : Generic) (a : Angles α) :
    (oneGate o kind a).onQubit o'.qubit = oneGate o' kind a := by
  unfold oneGate
  simp only [agree _]
  split
  · split <;> rfl
  split
  · rfl
  split
  · rfl
  split <;> rfl

theorem onQubit_turnZ (agree : o.Agree o') (k : RootX) (angle : α) (s : Sequence α) :
    (k.turnZ o angle s).onQubit o'.qubit = k.turnZ o' angle (s.onQubit o'.qubit) := by
  unfold RootX.turnZ
  dsimp only
  rw [agree]
  split
  · rfl
  · rw [onQubit_emit o']
    split <;> rfl

theorem onQubit_root (o' : Options α) (k : RootX) (s : Sequence α) : (k.root o s).onQubit o'.qubit = k.root o' (s.onQubit o'.qubit) := by
  unfold RootX.root
  split
  · exact onQubit_emit o' _ _ _
  · exact onQubit_emit o' _ _ _

theorem onQubit_rootSequence (agree : o.Agree o') (k : RootX) (a : Angles α) :
    (rootSequence o k a).onQubit o'.qubit = rootSequence o' k a := by
  unfold rootSequence
  dsimp only
  simp only [agree _]
  split
  · rw [onQubit_turnZ agree, Sequence.onQubit_empty]
  split
  · rw [onQubit_turnZ agree, onQubit_root o', onQubit_turnZ agree]
    rfl
  · rw [onQubit_turnZ agree]
    split
    · rw [onQubit_emit o', Sequence.onQubit_addPhase, onQubit_turnZ agree]
      rfl
    · rw [onQubit_root o', onQubit_turnZ agree, onQubit_root o', onQubit_turnZ agree]
      rfl

theorem onQubit_equatorial (agree : o.Agree o') (a : Angles α) :
    (equatorial o a).onQubit o'.qubit = equatorial o' a := by
  unfold equatorial
  dsimp only
  simp only [agree _]
  have turn (s : Sequence α) (half : α) : (o.emit (o.emit s .r [Scalar.pi, 0]) .r [Scalar.pi, half]).onQubit o'.qubit =
      o'.emit (o'.emit (s.onQubit o'.qubit) .r [Scalar.pi, 0]) .r [Scalar.pi, half] := by
    rw [onQubit_emit o', onQubit_emit o']
  split
  · split
    · rfl
    · exact turn _ _
  · rw [onQubit_emit o']
    split
    · rfl
    · rw [turn]
      rfl

/-- Options that leave out the same angles give the same sequence, on another qubit. -/
theorem onQubit_emission (agree : o.Agree o') (u : Mat2 α) (basis : Basis) :
    (emission o u basis).onQubit o'.qubit = emission o' u basis := by
  cases basis with
  | zyz | zxz | xyx | xzx => exact onQubit_threeRotations agree _ _ _
  | u3 | u | u321 => exact onQubit_oneGate agree _ _
  | zsx | zsxx | psx | u1x => exact onQubit_rootSequence agree _ _
  | rr => exact onQubit_equatorial agree _

end Euler

open Matrix Complex

/-! ## Products on one qubit -/

namespace Circuit

open Sequence (Multiplies oneQubitMatrix placed placed_mul placed_one placed_smul product)

variable {s : Sequence ℝ} {is : List (Instruction ℝ)} {q : ℤ}

theorem Instruction.Local.oneQubitMatrix {i : Instruction ℝ} {m : Mat2 ℝ} (single : i.Local q m) (index : ℕ) :
    Sequence.oneQubitMatrix index i = .ok m := by
  obtain ⟨op, params, qubits⟩ := i
  obtain ⟨⟨g, rfl, arity, known⟩, rfl, -⟩ := single
  have stored := Gate.Operation.matrix2_standard known
  simp [Sequence.oneQubitMatrix, Gate.Operation.qubits, arity, stored, bind, Except.bind, Outcome.within]
  rfl

/-- Gates on one qubit multiply to a matrix there, which the two qubits carry in its place. -/
theorem Sequence.exists_product_of_local (each : ∀ i ∈ is, ∃ m, i.Local q m) :
    ∃ v : OneQubit, Multiplies is (placed q v) ∧
      ∀ (index : ℕ) (u : Mat2 ℝ), ∃ w, product oneQubitMatrix is index u = .ok w ∧ w.toMatrix = v * u.toMatrix := by
  induction is with
  | nil =>
    refine ⟨1, ?_, fun _ u => ⟨u, rfl, (Matrix.one_mul _).symm⟩⟩
    rw [placed_one]
    exact .nil
  | cons i rest ih =>
    rw [List.forall_mem_cons] at each
    obtain ⟨⟨m, single⟩, others⟩ := each
    obtain ⟨v, multiplies, computes⟩ := ih others
    refine ⟨v * m.toMatrix, ?_, fun index u => ?_⟩
    · rw [← placed_mul]
      exact (Multiplies.single single.applies).append multiplies
    · obtain ⟨w, computed, value⟩ := computes (index + 1) (m * u)
      refine ⟨w, ?_, ?_⟩
      · rw [product, single.oneQubitMatrix]
        exact computed
      · rw [value, Mat2.toMatrix_mul, Matrix.mul_assoc]

/-- A sequence of gates on one qubit denotes its matrix on that qubit, in place. -/
theorem Sequence.Denotes.unitary1 {w : TwoQubit} (each : s.Over fun i => ∃ m, i.Local q m) (denotes : s.Denotes w) :
    ∃ v, s.unitary1 = .ok v ∧ w = placed q v.toMatrix := by
  obtain ⟨m, multiplies, rfl⟩ := denotes
  obtain ⟨v, multiplies', computes⟩ := exists_product_of_local each
  obtain rfl := multiplies.unique multiplies'
  obtain ⟨x, computed, value⟩ := computes 0 Square.identity
  refine ⟨x.scale (Cx.cis s.phase), ?_, ?_⟩
  · rw [Sequence.unitary1, computed]
    rfl
  · rw [Square.toMatrix_scale, value, Square.toMatrix_identity, Matrix.mul_one, Cx.toComplex_cis, placed_smul]

end Circuit

/-- Matrices that are near on the first qubit have near entries. -/
theorem Near.entry_of_placed {ε : ℝ} {v w : OneQubit} (near : Near ε (Circuit.Sequence.placed 0 v) (Circuit.Sequence.placed 0 w))
    (i j : Fin 2) : ‖v i j - w i j‖ ≤ ε := by
  have high (k : Fin 2) : Mat4.high (bits.symm (0, k)) = 0 := congrArg Prod.fst (bits.apply_symm_apply (0, k))
  have low (k : Fin 2) : Mat4.low (bits.symm (0, k)) = k := congrArg Prod.snd (bits.apply_symm_apply (0, k))
  have entry (x : OneQubit) : Circuit.Sequence.placed 0 x (bits.symm (0, i)) (bits.symm (0, j)) = x i j := by
    rw [Circuit.Sequence.placed, if_pos rfl, tensor_apply, high, high, low, low, Matrix.one_apply_eq, one_mul]
  have close := near.entry (bits.symm (0, i)) (bits.symm (0, j))
  rwa [entry, entry] at close

namespace Euler

variable {o : Options ℝ} {u : Mat2 ℝ}

/-- The same options on the first qubit, with no tolerance where nothing may be left out. -/
def Options.onFirst (o : Options ℝ) : Options ℝ := ⟨0, o.simplify, if o.simplify then o.atol else 0⟩

theorem Options.onFirst_agree (o : Options ℝ) : o.onFirst.Agree o := by
  intro angle
  unfold drops onFirst
  cases o.simplify <;> rfl

theorem Options.onFirst_atol (tolerance : 0 ≤ o.atol) : 0 ≤ o.onFirst.atol := by
  unfold onFirst
  dsimp only
  split
  · exact tolerance
  · exact le_rfl

/-- Whatever qubit it is on, an emitted sequence multiplies to the unitary within one and a half tolerances. -/
theorem exists_unitary1 (unitary : u.Unitary) (basis : Basis) (tolerance : 0 ≤ o.atol) :
    ∃ v, (emission o u basis).unitary1 = .ok v ∧
      ∀ i j, ‖(v i j).toComplex - (u i j).toComplex‖ ≤ 3 / 2 * o.onFirst.atol := by
  have within := emission_within (.inl rfl) (Options.onFirst_atol tolerance) basis u
  rw [basis.product_eq unitary] at within
  obtain ⟨w, denotes, near⟩ := within
  have written : decompose u basis o.onFirst = .ok (emission o.onFirst u basis) := if_pos (Square.isFinite_eq u)
  have locals := denotes.locals (over_decompose written)
  obtain ⟨v, computed, rfl⟩ := denotes.unitary1 locals
  refine ⟨v, ?_, near.entry_of_placed⟩
  rw [← onQubit_emission o.onFirst_agree, Circuit.Sequence.unitary1_onQubit, computed]
  intro i member
  obtain ⟨m, single⟩ := locals i member
  rw [single.qubits]
  rfl

/-- Over every gate set and on every qubit, the sequence for a unitary has it as its product, global phase included:
exactly where nothing is left out, and within two tolerances in every entry otherwise. -/
theorem decompose_unitary1 (unitary : u.Unitary) (basis : Basis) (tolerance : 0 ≤ o.atol) :
    ∃ s v, decompose u basis o = .ok s ∧ s.unitary1 = .ok v ∧ (o.simplify = false → v = u) ∧
      (o.simplify = true → ∀ i j, ‖(v i j).toComplex - (u i j).toComplex‖ ≤ 2 * o.atol) := by
  obtain ⟨v, computed, near⟩ := exists_unitary1 unitary basis tolerance
  refine ⟨emission o u basis, v, if_pos (Square.isFinite_eq u), computed, ?_, ?_⟩
  · intro exactly
    have still : o.onFirst.atol = 0 := by rw [Options.onFirst, exactly, if_neg Bool.false_ne_true]
    apply Square.ext
    intro i j
    have same := near i j
    rw [still, mul_zero, norm_le_zero_iff, sub_eq_zero] at same
    exact Cx.toComplex_injective same
  · intro simplified i j
    have same : o.onFirst.atol = o.atol := by rw [Options.onFirst, simplified, if_pos rfl]
    have close := near i j
    rw [same] at close
    linarith

/-- A flip, whose diagonal entries have no argument, on the sixth qubit by half turns about axes of the equator. -/
theorem decompose_unitary1_flip :
    (∃ s, decompose Gate.xMatrix .rr ⟨5, false, 1 / 10⟩ = .ok s ∧ s.unitary1 = .ok (Gate.xMatrix : Mat2 ℝ)) ∧
      ∃ s v, decompose (Gate.xMatrix : Mat2 ℝ) .rr ⟨5, true, 1 / 10⟩ = .ok s ∧ s.unitary1 = .ok v ∧
        ∀ i j, ‖(v i j).toComplex - (Gate.xMatrix i j).toComplex‖ ≤ 2 * (1 / 10) := by
  have tolerance : (0 : ℝ) ≤ 1 / 10 := by norm_num
  obtain ⟨s, v, written, computed, exactly, -⟩ :=
    decompose_unitary1 Gate.xMatrix_unitary .rr (o := ⟨5, false, 1 / 10⟩) tolerance
  obtain ⟨s', v', written', computed', -, close⟩ :=
    decompose_unitary1 Gate.xMatrix_unitary .rr (o := ⟨5, true, 1 / 10⟩) tolerance
  obtain rfl := exactly rfl
  exact ⟨⟨s, written, computed⟩, s', v', written', computed', close rfl⟩

end Euler

end Entangle

end
