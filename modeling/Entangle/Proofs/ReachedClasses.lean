import Mathlib
import Entangle.Proofs.CircuitShape
import Entangle.Proofs.Invariants
import Entangle.Proofs.RealTrace

/-!
# Classes that a count of gates reaches

Whatever one-qubit gates a circuit is written with, it denotes one-qubit operations with the uses of its entangling gate
between them. So no use leaves a product, one use stays in the class of the gate, and two uses of a gate with angles
`(π/4, 0, 0)` leave no third angle. In the chamber the invariants then tell which interactions a circuit can be.
-/

noncomputable section

namespace Entangle

open Matrix Complex
open Circuit (Sequence Instruction)
open Circuit.Sequence (Multiplies placed)

/-! ## One-qubit operations around a gate -/

namespace Weyl

/-- One-qubit operations with a given count of uses of a gate between them. -/
inductive Alternates (g : TwoQubit) : ℕ → TwoQubit → Prop
  | still {a b : Mat2 ℝ} (left : a.Unitary) (right : b.Unitary) : Alternates g 0 (tensor a.toMatrix b.toMatrix)
  | use {n : ℕ} {x : TwoQubit} {a b : Mat2 ℝ} (rest : Alternates g n x) (left : a.Unitary) (right : b.Unitary) :
    Alternates g (n + 1) (x * g * tensor a.toMatrix b.toMatrix)

namespace Alternates

variable {g x : TwoQubit} {n : ℕ}

theorem one : Alternates g 0 1 := by
  have identity := still (g := g) (Square.identity_unitary (n := 2)) (Square.identity_unitary (n := 2))
  rwa [Square.toMatrix_identity, tensor_one_one] at identity

theorem mul_tensor (alternates : Alternates g n x) {a b : Mat2 ℝ} (left : a.Unitary) (right : b.Unitary) :
    Alternates g n (x * tensor a.toMatrix b.toMatrix) := by
  cases alternates with
  | still first second =>
    rw [tensor_mul_tensor, ← Mat2.toMatrix_mul, ← Mat2.toMatrix_mul]
    exact .still (Mat2.unitary_mul first left) (Mat2.unitary_mul second right)
  | use rest first second =>
    rw [Matrix.mul_assoc, tensor_mul_tensor, ← Mat2.toMatrix_mul, ← Mat2.toMatrix_mul]
    exact .use rest (Mat2.unitary_mul first left) (Mat2.unitary_mul second right)

theorem mul_placed (alternates : Alternates g n x) (q : ℤ) {v : Mat2 ℝ} (unitary : v.Unitary) :
    Alternates g n (x * placed q v.toMatrix) := by
  unfold placed
  rw [← Square.toMatrix_identity]
  split
  · exact alternates.mul_tensor Square.identity_unitary unitary
  · exact alternates.mul_tensor unitary Square.identity_unitary

theorem mul_gate (alternates : Alternates g n x) : Alternates g (n + 1) (x * g) := by
  have last := alternates.use (Square.identity_unitary (n := 2)) (Square.identity_unitary (n := 2))
  rwa [Square.toMatrix_identity, tensor_one_one, Matrix.mul_one] at last

/-- One-qubit operations around the gate itself join those between its uses. -/
theorem of_dressed {e : TwoQubit} {t : ℝ} {a b c d : Mat2 ℝ} (outerLeft : a.Unitary) (outerRight : b.Unitary)
    (innerLeft : c.Unitary) (innerRight : d.Unitary)
    (alternates : Alternates (exp (t * I) • (tensor a.toMatrix b.toMatrix * e * tensor c.toMatrix d.toMatrix)) n x) :
    ∃ (s : ℝ) (y : TwoQubit), Alternates e n y ∧ x = exp (s * I) • y := by
  induction alternates with
  | still left right => exact ⟨0, _, .still left right, by simp⟩
  | use rest left right ih =>
    obtain ⟨s, y, alternates, rfl⟩ := ih
    refine ⟨t + s, _, ((alternates.mul_tensor outerLeft outerRight).use innerLeft innerRight).mul_tensor left right, ?_⟩
    rw [Complex.ofReal_add, add_mul, Complex.exp_add]
    simp only [Matrix.smul_mul, Matrix.mul_smul, smul_smul, Matrix.mul_assoc]

/-- Without a use, the identity up to one-qubit operations. -/
theorem upToLocal_none (alternates : Alternates g 0 x) : UpToLocal 1 x := by
  obtain ⟨left, right⟩ := alternates
  refine ⟨0, _, _, 1, 1, left, right, one_mem _, one_mem _, ?_⟩
  simp

/-- With one, the gate. -/
theorem upToLocal_one (alternates : Alternates g 1 x) : UpToLocal g x := by
  obtain - | ⟨⟨left, right⟩, left', right'⟩ := alternates
  refine ⟨0, _, _, _, _, left, right, left', right', ?_⟩
  simp

/-- With two, the gate twice, with one-qubit operations between. -/
theorem upToLocal_two (alternates : Alternates g 2 x) :
    ∃ a b : Mat2 ℝ, a.Unitary ∧ b.Unitary ∧ UpToLocal (g * tensor a.toMatrix b.toMatrix * g) x := by
  obtain - | ⟨- | ⟨⟨left, right⟩, left', right'⟩, left'', right''⟩ := alternates
  refine ⟨_, _, left', right', 0, _, _, _, _, left, right, left'', right'', ?_⟩
  simp [Matrix.mul_assoc]

end Alternates

end Weyl

/-! ## Circuits -/

namespace Circuit

open Weyl (Alternates)

theorem Instruction.exists_local {basis : Euler.Basis} {q : ℤ} {i : Instruction ℝ} (written : Euler.Written basis.gates q i)
    (wire : q = 0 ∨ q = 1) : ∃ m : Mat2 ℝ, i.Local q m ∧ m.Unitary := by
  obtain ⟨g, member, op, qubits, count⟩ := written
  have single := Euler.Basis.qubits_of_mem member
  rcases Gate.Standard.exists_matrix count with ⟨-, m, known⟩ | ⟨two, -⟩
  · exact ⟨m, ⟨⟨g, op, single, known⟩, qubits, wire⟩, Gate.Standard.matrix_unitary known⟩
  · omega

/-- Instructions of a circuit multiply to one-qubit operations with the entangling gate between them, as often as it
stands among the instructions. -/
theorem Sequence.exists_alternates {basis : Euler.Basis} {entangler : Instruction ℝ} {g : TwoQubit}
    (applies : entangler.Applies g) (both : entangler.qubits.length = 2) {is : List (Instruction ℝ)}
    (each : ∀ i ∈ is, Instruction.Woven basis.gates entangler i) :
    ∃ x, Multiplies is x ∧ Alternates g (is.countP fun i => i.qubits.length = 2) x := by
  induction is with
  | nil => exact ⟨1, .nil, .one⟩
  | cons i rest ih =>
    rw [List.forall_mem_cons] at each
    obtain ⟨woven, others⟩ := each
    obtain ⟨x, multiplies, alternates⟩ := ih others
    have correction {q : ℤ} (wire : q = 0 ∨ q = 1) (written : Euler.Written basis.gates q i) :
        ∃ x, Multiplies (i :: rest) x ∧ Alternates g ((i :: rest).countP fun i => i.qubits.length = 2) x := by
      obtain ⟨m, single, unitary⟩ := Instruction.exists_local written wire
      refine ⟨x * placed q m.toMatrix, (Multiplies.single single.applies).append multiplies, ?_⟩
      rw [List.countP_cons_of_neg (by simp [single.qubits])]
      exact alternates.mul_placed q unitary
    rcases woven with right | left | rfl
    · exact correction (.inl rfl) right
    · exact correction (.inr rfl) left
    · refine ⟨x * g, (Multiplies.single applies).append multiplies, ?_⟩
      rw [List.countP_cons_of_pos (by simpa using both)]
      exact alternates.mul_gate

/-- So does the unitary of a circuit, under its phase. -/
theorem Sequence.alternates_unitary {basis : Euler.Basis} {entangler : Instruction ℝ} {g : TwoQubit} {s : Sequence ℝ}
    (applies : entangler.Applies g) (both : entangler.qubits.length = 2)
    (each : s.Over (Instruction.Woven basis.gates entangler)) {v : Mat4 ℝ} (computed : s.unitary = .ok v) :
    ∃ x, Alternates g (s.instructions.countP fun i => i.qubits.length = 2) x ∧ v.toMatrix = exp (s.phase * I) • x := by
  obtain ⟨x, multiplies, alternates⟩ := exists_alternates applies both each
  obtain ⟨v', computed', value⟩ := Sequence.Denotes.unitary ⟨x, multiplies, rfl⟩
  obtain rfl := Except.ok.inj (computed.symm.trans computed')
  exact ⟨x, alternates, value⟩

end Circuit

/-! ## Interactions of a class -/

namespace Weyl

theorem UpToLocal.exp_smul {w x : TwoQubit} (related : UpToLocal w x) (t : ℝ) : UpToLocal w (exp (t * I) • x) := by
  refine related.trans ⟨t, 1, 1, 1, 1, one_mem _, one_mem _, one_mem _, one_mem _, ?_⟩
  rw [tensor_one_one, Matrix.one_mul, Matrix.mul_one]

/-- Equivalent unitaries have the same invariants. -/
theorem UpToLocal.invariants {w w' : TwoQubit} (related : UpToLocal w w') :
    firstInvariant w' = firstInvariant w ∧ secondInvariant w' = secondInvariant w := by
  obtain ⟨t, a, b, c, d, ha, hb, hc, hd, rfl⟩ := related
  have regular {k : OneQubit} (unitary : k ∈ unitaryGroup (Fin 2) ℂ) : IsUnit k := (Unitary.toUnits ⟨k, unitary⟩).isUnit
  exact ⟨firstInvariant_local (Complex.exp_ne_zero _) (regular ha) (regular hb) (regular hc) (regular hd) w,
    secondInvariant_local (Complex.exp_ne_zero _) (regular ha) (regular hb) (regular hc) (regular hd) w⟩

section Chamber

variable {θ : Axis → ℝ} {b : ℝ}

/-- In the chamber, only no interaction is equivalent to the identity. -/
theorem Ordered.eq_zero (ordered : Ordered θ) (outer : θ .x ≤ Real.pi / 4) (related : UpToLocal 1 (coupling θ)) : θ = 0 := by
  rw [← coupling_zero] at related
  refine related.eq_of_ordered ⟨le_rfl, ?_⟩ ?_ ordered outer
  · rw [Pi.zero_apply, abs_zero]
    exact le_rfl
  · rw [Pi.zero_apply]
    linarith [Real.pi_pos]

/-- Where neither product of the doubled angles is left, an angle of the chamber is on its outer face and the third is
zero. -/
theorem Ordered.face_of_doubled (ordered : Ordered θ) (outer : θ .x ≤ Real.pi / 4) (cosines : doubled Real.cos θ = 0)
    (sines : doubled Real.sin θ = 0) : θ .x = Real.pi / 4 ∧ θ .z = 0 := by
  have pi := Real.pi_pos
  obtain ⟨second, third⟩ := ordered
  obtain ⟨lower, upper⟩ := abs_le.mp third
  have face {x : ℝ} (least : -(Real.pi / 4) ≤ x) (most : x ≤ Real.pi / 4) (zero : Real.cos (2 * x) = 0) :
      |x| = Real.pi / 4 := by
    by_contra apart
    have inside : |x| < Real.pi / 4 := lt_of_le_of_ne (abs_le.mpr ⟨least, most⟩) apart
    obtain ⟨above, below⟩ := abs_lt.mp inside
    exact (Real.cos_pos_of_mem_Ioo ⟨by linarith, by linarith⟩).ne' zero
  have first : θ .x = Real.pi / 4 := by
    rw [doubled, mul_eq_zero, mul_eq_zero] at cosines
    refine le_antisymm outer ?_
    rcases cosines with (x | y) | z
    · rw [← face (by linarith) outer x]
      exact (abs_of_nonneg (by linarith)).le
    · rw [← face (by linarith) (by linarith) y, abs_of_nonneg (by linarith)]
      exact second
    · rw [← face (by linarith) (by linarith) z]
      exact third.trans second
  refine ⟨first, third_eq_zero ⟨second, third⟩ outer ?_⟩
  rw [im_trace_gram_coupling, sines, mul_zero]

/-- An interaction of the chamber that is equivalent to one with angles `(π/4, b, 0)` has these angles. -/
theorem Ordered.eq_angles (ordered : Ordered θ) (outer : θ .x ≤ Real.pi / 4) (nonneg : 0 ≤ b) (inner : b ≤ Real.pi / 4)
    (related : UpToLocal (coupling (angles (Real.pi / 4) b 0)) (coupling θ)) : θ = angles (Real.pi / 4) b 0 := by
  obtain ⟨first, second⟩ := related.invariants
  have right : 2 * (Real.pi / 4) = Real.pi / 2 := by ring
  have straight : 2 * (Real.pi / 4 + Real.pi / 4) = Real.pi := by ring
  -- the products of the doubled angles vanish for the second interaction, so they do for the first
  have none : doubled Real.cos (angles (Real.pi / 4) b 0) = 0 ∧ doubled Real.sin (angles (Real.pi / 4) b 0) = 0 := by
    simp [doubled, angles, right]
  rw [firstInvariant_coupling, firstInvariant_coupling, none.1, none.2, Complex.ofReal_zero, zero_mul, add_zero,
    zero_pow two_ne_zero] at first
  have parts : (doubled Real.cos θ : ℂ) + doubled Real.sin θ * I = 0 := pow_eq_zero_iff two_ne_zero |>.mp first
  have cosines : doubled Real.cos θ = 0 := by simpa using congrArg Complex.re parts
  have sines : doubled Real.sin θ = 0 := by simpa using congrArg Complex.im parts
  obtain ⟨face, third⟩ := ordered.face_of_doubled outer cosines sines
  rw [secondInvariant_coupling, secondInvariant_coupling, none.1, none.2, cosines, sines] at second
  have twice : doubled Real.cos (θ + θ) = doubled Real.cos (angles (Real.pi / 4) b 0 + angles (Real.pi / 4) b 0) := by
    simpa using congrArg Complex.re second
  have middle : Real.cos (4 * θ .y) = Real.cos (4 * b) := by
    have quadruple (x : ℝ) : 2 * (x + x) = 4 * x := by ring
    simpa [doubled, angles, face, third, straight, quadruple] using twice
  have same : 4 * θ .y = 4 * b := by
    refine Real.injOn_cos ⟨?_, ?_⟩ ⟨?_, ?_⟩ middle
    · linarith [(abs_nonneg _).trans ordered.third]
    · linarith [ordered.second]
    · linarith
    · linarith
  funext k
  cases k
  · exact face
  · change θ .y = b
    linarith
  · exact third

end Chamber

/-! ## Two uses of a gate without a second angle -/

open Synthesis.FixedFactor (entangler root root_mul_root entangler_eq)

/-- Rotations about the first axis pass the interaction about it. -/
theorem rotations_mul_entangler (s t : ℝ) : tensor (Axis.x.rotation s) (Axis.x.rotation t) * entangler 0 =
    entangler 0 * tensor (Axis.x.rotation s) (Axis.x.rotation t) := by
  have turn (t : ℝ) : Axis.x.halfTurn * Axis.x.rotation t = Axis.x.rotation t * Axis.x.halfTurn :=
    Axis.mul_rotation_of_halfTurn rfl t
  have single : angles (Real.pi / 4) 0 0 = Pi.single .x (Real.pi / 4) := by
    funext k
    cases k <;> rfl
  have pair : tensor (Axis.x.rotation s) (Axis.x.rotation t) * Axis.x.pair =
      Axis.x.pair * tensor (Axis.x.rotation s) (Axis.x.rotation t) := by
    rw [Axis.pair, tensor_mul_tensor, tensor_mul_tensor, turn, turn]
  rw [entangler, single, coupling_single, Axis.couple, Matrix.mul_sub, Matrix.sub_mul, Matrix.mul_smul, Matrix.mul_smul,
    Matrix.smul_mul, Matrix.smul_mul, pair, Matrix.mul_one, Matrix.one_mul]

theorem entangler_zero : entangler 0 = cross root (I * root) root (I * root) := by
  rw [entangler_eq]
  simp only [Complex.ofReal_zero, zero_mul, neg_zero, Complex.exp_zero, mul_one]
  congr 1 <;> ring

theorem tensor_rotations_z (s t : ℝ) : tensor (Axis.z.rotation s) (Axis.z.rotation t) =
    diagonal ![exp (-((s + t : ℝ) / 2 * I)), exp (-((s - t : ℝ) / 2 * I)), exp ((s - t : ℝ) / 2 * I),
      exp ((s + t : ℝ) / 2 * I)] := by
  rw [Axis.rotation_z_eq, Axis.rotation_z_eq, ← Matrix.ext_iff]
  simp [Fin.forall_fin_succ, ← Complex.exp_add]
  refine ⟨?_, ?_, ?_, ?_⟩ <;> ring_nf

/-- Between two uses, rotations about the third axis leave a real trace. -/
theorem trace_gram_two_uses (s t : ℝ) :
    (gram (entangler 0 * tensor (Axis.z.rotation s) (Axis.z.rotation t) * entangler 0)).trace =
      -2 * ((Real.cos (s + t) : ℝ) + (Real.cos (s - t) : ℝ)) := by
  have cosine (x : ℝ) : exp (x / 2 * I) ^ 2 + exp (-(x / 2 * I)) ^ 2 = 2 * Real.cos x := by
    rw [← Complex.exp_nat_mul, ← Complex.exp_nat_mul, Complex.ofReal_cos, Complex.cos]
    push_cast
    ring_nf
  have outer := cosine (s + t)
  have inner := cosine (s - t)
  have half := root_mul_root
  have square := Complex.I_mul_I
  have entry (v : Fin 4 → ℂ) (i j : Fin 4) : (entangler 0 * diagonal v * entangler 0) i j =
      ∑ k, cross root (I * root) root (I * root) i k * v k * cross root (I * root) root (I * root) k j := by
    rw [entangler_zero, Matrix.mul_apply]
    simp only [Matrix.mul_diagonal]
  rw [trace_gram, tensor_rotations_z]
  simp only [innerRows, outerRows, entry, Fin.sum_univ_four]
  simp [cross, -Complex.ofReal_add, -Complex.ofReal_sub, -Complex.ofReal_cos]
  generalize exp (-((s + t : ℝ) / 2 * I)) = p, exp ((s + t : ℝ) / 2 * I) = q, exp (-((s - t : ℝ) / 2 * I)) = p',
    exp ((s - t : ℝ) / 2 * I) = q' at *
  generalize I = i, root = r at *
  clear cosine entry
  grind

theorem det_two_uses (s t : ℝ) : (entangler 0 * tensor (Axis.z.rotation s) (Axis.z.rotation t) * entangler 0).det = 1 := by
  rw [Matrix.det_mul, Matrix.det_mul, entangler, det_coupling, tensor_rotations_z, Matrix.det_diagonal, Fin.prod_univ_four]
  simp only [Matrix.cons_val, one_mul, mul_one, ← Complex.exp_add]
  ring_nf
  exact Complex.exp_zero

/-- Two uses with one-qubit operations between them are equivalent to two with rotations about the third axis. -/
theorem exists_upToLocal_two_uses {a b : Mat2 ℝ} (left : a.Unitary) (right : b.Unitary) :
    ∃ s t : ℝ, UpToLocal (entangler 0 * tensor (Axis.z.rotation s) (Axis.z.rotation t) * entangler 0)
      (entangler 0 * tensor a.toMatrix b.toMatrix * entangler 0) := by
  set x := Euler.Angles.xzx a with first
  set y := Euler.Angles.xzx b with second
  refine ⟨x.theta, y.theta, x.phase + y.phase, Axis.x.rotation x.phi, Axis.x.rotation y.phi, Axis.x.rotation x.lambda,
    Axis.x.rotation y.lambda, Axis.rotation_mem_unitary _ _, Axis.rotation_mem_unitary _ _, Axis.rotation_mem_unitary _ _,
    Axis.rotation_mem_unitary _ _, ?_⟩
  have product : tensor a.toMatrix b.toMatrix = exp ((x.phase + y.phase : ℝ) * I) •
      (tensor (Axis.x.rotation x.phi) (Axis.x.rotation y.phi) * tensor (Axis.z.rotation x.theta) (Axis.z.rotation y.theta) *
        tensor (Axis.x.rotation x.lambda) (Axis.x.rotation y.lambda)) := by
    rw [← Euler.xzx_product left, ← Euler.xzx_product right, ← first, ← second, Euler.Angles.product, Euler.Angles.product,
      tensor_smul_left, tensor_smul_right, smul_smul, tensor_mul_tensor, tensor_mul_tensor, Complex.ofReal_add, add_mul,
      Complex.exp_add]
  rw [product, Matrix.mul_smul, Matrix.smul_mul]
  congr 1
  calc
    _ = entangler 0 * tensor (Axis.x.rotation x.phi) (Axis.x.rotation y.phi) *
        tensor (Axis.z.rotation x.theta) (Axis.z.rotation y.theta) *
        (tensor (Axis.x.rotation x.lambda) (Axis.x.rotation y.lambda) * entangler 0) := by
      simp only [Matrix.mul_assoc]
    _ = _ := by
      rw [← rotations_mul_entangler x.phi, rotations_mul_entangler x.lambda]
      simp only [Matrix.mul_assoc]

/-- Two uses leave a first invariant that is the square of a real number. -/
theorem exists_firstInvariant_two_uses {a b : Mat2 ℝ} (left : a.Unitary) (right : b.Unitary) :
    ∃ x : ℝ, firstInvariant (entangler 0 * tensor a.toMatrix b.toMatrix * entangler 0) = x ^ 2 := by
  obtain ⟨s, t, related⟩ := exists_upToLocal_two_uses left right
  refine ⟨(Real.cos (s + t) + Real.cos (s - t)) / 2, ?_⟩
  rw [related.invariants.1, firstInvariant, trace_gram_two_uses, det_two_uses]
  push_cast
  ring

/-- In the chamber two uses leave no third angle. -/
theorem Ordered.third_eq_zero_of_two_uses {θ : Axis → ℝ} (ordered : Ordered θ) (outer : θ .x ≤ Real.pi / 4) {a b : Mat2 ℝ}
    (left : a.Unitary) (right : b.Unitary)
    (related : UpToLocal (entangler 0 * tensor a.toMatrix b.toMatrix * entangler 0) (coupling θ)) : θ .z = 0 := by
  obtain ⟨x, square⟩ := exists_firstInvariant_two_uses left right
  have first := related.invariants.1
  rw [firstInvariant_coupling, square, sq_eq_sq_iff_eq_or_eq_neg] at first
  have sines : doubled Real.sin θ = 0 := by
    rcases first with same | opposite
    · simpa using congrArg Complex.im same
    · simpa using congrArg Complex.im opposite
  refine ordered.third_eq_zero outer ?_
  rw [im_trace_gram_coupling, sines, mul_zero]

end Weyl

end Entangle

end
