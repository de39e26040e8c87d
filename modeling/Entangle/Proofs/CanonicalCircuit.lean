import Mathlib
import Entangle.Weyl.Circuit
import Entangle.Proofs.ClassPattern
import Entangle.Proofs.FamilySynthesis
import Entangle.Proofs.OneQubitEmission
import Entangle.Proofs.ProductForm
import Entangle.Proofs.StandardGates

/-!
# The circuit of a decomposition

The circuit of a canonical decomposition denotes the product that the decomposition stands for, each factor read off
its angles as the gate set writes it. With simplification off nothing is lost; otherwise every factor costs one and
a half tolerances and every angle of the interaction one. A swap with a quarter of a right angle as phase is the
interaction at the swap point, and its mirror classes follow by one more rotation.
-/

noncomputable section

namespace Entangle

open Matrix hiding single
open Complex
open Circuit (Sequence)
open Circuit.Sequence (Within placed tensor_eq_placed)
open Gate (Operation Standard)

/-! ## Factors -/

/-- What an emitted sequence may lose for each tolerance: nothing where nothing may be left out. -/
def Euler.Options.slack (o : Euler.Options ℝ) : ℝ := if o.simplify then o.atol else 0

theorem Euler.Options.slack_nonneg {o : Euler.Options ℝ} (tolerance : 0 ≤ o.atol) : 0 ≤ o.slack := by
  unfold Options.slack
  split
  · exact tolerance
  · exact le_rfl

/-- Where nothing is left out, the tolerance does not matter. -/
theorem Euler.emission_within_slack {o : Euler.Options ℝ} (wire : o.qubit = 0 ∨ o.qubit = 1) (tolerance : 0 ≤ o.atol)
    (basis : Euler.Basis) (u : Mat2 ℝ) :
    (emission o u basis).Within (3 / 2 * o.slack) (placed o.qubit (basis.product u)) := by
  have agree : o.Agree ⟨o.qubit, o.simplify, o.slack⟩ := by
    intro angle
    unfold Options.drops Options.slack
    cases o.simplify <;> rfl
  have own : o.Agree o := fun _ => rfl
  have same : emission o u basis = emission ⟨o.qubit, o.simplify, o.slack⟩ u basis :=
    (onQubit_emission own u basis).symm.trans (onQubit_emission agree u basis)
  rw [same]
  exact emission_within (o := ⟨o.qubit, o.simplify, o.slack⟩) wire (Options.slack_nonneg tolerance) basis u

namespace Weyl

/-! ## The interaction -/

/-- A swap is the interaction at the swap point, up to a quarter of a right angle of phase. -/
theorem exp_smul_exchange :
    exp ((Real.pi / 4 : ℝ) * I) • Circuit.Sequence.exchange = coupling (angles (Real.pi / 4) (Real.pi / 4) (Real.pi / 4)) := by
  have half : ((Real.pi / 4 : ℝ) + (Real.pi / 4 : ℝ) : ℂ) = Real.pi / 2 := by
    push_cast
    ring
  have same : exchange = Circuit.Sequence.exchange := rfl
  have phase : I * exp (-(Real.pi / 4 : ℝ) * I) = exp ((Real.pi / 4 : ℝ) * I) := by
    have quarter : I = exp ((Real.pi / 2 : ℝ) * I) := by
      push_cast
      rw [Complex.exp_pi_div_two_mul_I]
    nth_rewrite 1 [quarter]
    rw [← Complex.exp_add]
    congr 1
    push_cast
    ring
  rw [coupling_equal, half, Complex.cos_pi_div_two, Complex.sin_pi_div_two, mul_zero, zero_smul, zero_add, mul_one, phase, same]

theorem couple_mul_swapPoint (c : ℝ) :
    Axis.z.couple (c - Real.pi / 4) * coupling (angles (Real.pi / 4) (Real.pi / 4) (Real.pi / 4)) =
      coupling (angles (Real.pi / 4) (Real.pi / 4) c) := by
  rw [← coupling_single, coupling_mul]
  congr 1
  funext k
  cases k <;> simp [angles]

/-- What the circuit of a decomposition may lose for each tolerance. -/
def CircuitOptions.slack (o : CircuitOptions ℝ) : ℝ := if o.simplify then o.atol else 0

theorem CircuitOptions.slack_nonneg {o : CircuitOptions ℝ} (tolerance : 0 ≤ o.atol) : 0 ≤ o.slack := by
  unfold CircuitOptions.slack
  split
  · exact tolerance
  · exact le_rfl

namespace Decomposition

variable {d : Decomposition ℝ} {o : CircuitOptions ℝ} {s : Sequence ℝ} {ε : ℝ} {v : TwoQubit}

/-- A gate that rotates about the product of an axis with itself. -/
def Turns (g : Standard) (k : Axis) : Prop :=
  g.qubits = 2 ∧ ∀ t : ℝ, ∃ m, g.matrix? [t] = some (.two m) ∧ m = single k (-t / 2)

theorem turns_rxx : Turns .rxx .x := ⟨rfl, fun t => ⟨_, rfl, rxxMatrix_eq t⟩⟩

theorem turns_ryy : Turns .ryy .y := ⟨rfl, fun t => ⟨_, rfl, Gate.ryyMatrix_eq t⟩⟩

theorem turns_rzz : Turns .rzz .z := ⟨rfl, fun t => ⟨_, rfl, rzzMatrix_eq t⟩⟩

theorem Turns.append_within {g : Standard} {k : Axis} (turns : Turns g k) (within : s.Within ε v) (t : ℝ) :
    (s.append (.standard g) [t] [0, 1]).Within ε (k.couple (-t / 2) * v) := by
  obtain ⟨arity, known⟩ := turns
  obtain ⟨m, stored, rfl⟩ := known t
  have unitary := single_unitary k (-t / 2)
  rw [Square.Unitary, toMatrix_single, coupling_single] at unitary
  refine within.push unitary fun index => ⟨_, Sequence.twoQubitMatrix_two ?_ (Operation.matrix4_standard stored) index, ?_⟩
  · rw [Operation.qubits, arity, Nat.cast_ofNat]
  · rw [toMatrix_single, coupling_single]

theorem interactionTerm_within {g : Standard} {k : Axis} (turns : Turns g k) (tolerance : 0 ≤ o.atol)
    (within : s.Within ε v) (angle : ℝ) :
    (interactionTerm o g angle s).Within (ε + o.slack) (k.couple angle * v) := by
  have half : -(-2 * angle) / 2 = angle := by ring
  have kept := turns.append_within within (-2 * angle)
  rw [half] at kept
  unfold interactionTerm
  split
  next => exact kept.mono (le_add_of_nonneg_right (CircuitOptions.slack_nonneg tolerance))
  next left =>
    simp only [Bool.or_eq_true, Bool.not_eq_true', decide_eq_true_eq, not_or, Bool.not_eq_false, not_lt] at left
    rw [CircuitOptions.slack, if_pos left.1]
    exact within.absorb ((Circuit.Sequence.near_couple k angle).mono left.2)

theorem swap_within (within : s.Within ε v) :
    (s.append (.standard .swap) [] [0, 1]).Within ε (Circuit.Sequence.exchange * v) :=
  within.push Circuit.Sequence.exchange_mem_unitary fun index => ⟨_, Sequence.twoQubitMatrix_two rfl
    (Operation.matrix4_standard rfl) index, Gate.toMatrix_swapMatrix⟩

/-- The interaction of a class is the one by its angles, within a tolerance for each. -/
theorem appendInteraction_within (holds : d.fitted.Holds d.a d.b d.c) (tolerance : 0 ≤ o.atol) (within : s.Within ε v) :
    (d.appendInteraction o s).Within (ε + 3 * o.slack) (coupling (angles d.a d.b d.c) * v) := by
  have positive := CircuitOptions.slack_nonneg tolerance
  have more : ε ≤ ε + 3 * o.slack := by linarith
  have swapped := (swap_within within).addPhase (Real.pi / 4)
  rw [← Matrix.smul_mul, exp_smul_exchange] at swapped
  have generic : (interactionTerm o .rzz d.c (interactionTerm o .ryy d.b (interactionTerm o .rxx d.a s))).Within
      (ε + 3 * o.slack) (coupling (angles d.a d.b d.c) * v) := by
    have all := interactionTerm_within turns_rzz tolerance (interactionTerm_within turns_ryy tolerance
      (interactionTerm_within turns_rxx tolerance within d.a) d.b) d.c
    rw [← Matrix.mul_assoc, ← Matrix.mul_assoc, Matrix.mul_assoc _ _ (Axis.x.couple d.a), couple_mul_couple_mul_couple] at all
    exact all.mono (by linarith)
  unfold appendInteraction
  cases fitted : d.fitted with
  | swap =>
    rw [fitted] at holds
    obtain ⟨a, b, c⟩ := holds
    rw [a, b, c, Exact.quarterPi_eq]
    exact swapped.mono more
  | mirrorControlled =>
    rw [fitted] at holds
    obtain ⟨a, b⟩ := holds
    have angle : -((Real.pi / 4 - d.c) * 2) / 2 = d.c - Real.pi / 4 := by ring
    have turned := (turns_rzz.append_within (swap_within within) ((Real.pi / 4 - d.c) * 2)).addPhase (Real.pi / 4)
    rw [angle, ← Matrix.mul_smul, ← Matrix.smul_mul, exp_smul_exchange, ← Matrix.mul_assoc, couple_mul_swapPoint] at turned
    rw [a, b, Exact.quarterPi_eq]
    exact turned.mono more
  | general | identity | partialSwap | partialSwapFlip | controlled | aab | abb | abmb => exact generic

theorem factor_within (d : Decomposition ℝ) (u : Mat2 ℝ) {q : ℤ} (wire : q = 0 ∨ q = 1) (tolerance : 0 ≤ o.atol) :
    ∃ s, d.factor o u q = .ok s ∧
      s.Within (3 / 2 * o.slack) (placed q ((o.basis.getD d.fitted.basis).product u)) := by
  refine ⟨_, Outcome.step_eq_ok.mpr (if_pos (Square.isFinite_eq u)), ?_⟩
  exact Euler.emission_within_slack (o := ⟨q, o.simplify, o.atol⟩) wire tolerance _ u

theorem circuit_within (holds : d.fitted.Holds d.a d.b d.c) (tolerance : 0 ≤ o.atol) :
    ∃ s, d.circuit o = .ok s ∧ s.Within (9 * o.slack) (d.written (o.basis.getD d.fitted.basis)) := by
  obtain ⟨innerRight, first, within1⟩ := d.factor_within (o := o) d.k2r (.inl rfl) tolerance
  obtain ⟨innerLeft, second, within2⟩ := d.factor_within (o := o) d.k2l (.inr rfl) tolerance
  obtain ⟨outerRight, third, within3⟩ := d.factor_within (o := o) d.k1r (.inl rfl) tolerance
  obtain ⟨outerLeft, fourth, within4⟩ := d.factor_within (o := o) d.k1l (.inr rfl) tolerance
  have within := appendInteraction_within holds tolerance (((Within.empty d.phase).extend within1).extend within2)
  refine ⟨_, bind_eq_ok.mpr ⟨innerRight, first, bind_eq_ok.mpr ⟨innerLeft, second, bind_eq_ok.mpr ⟨outerRight, third,
    bind_eq_ok.mpr ⟨outerLeft, fourth, rfl⟩⟩⟩⟩, ?_⟩
  have whole := (within.extend within3).extend within4
  rw [written, tensor_eq_placed, tensor_eq_placed]
  simp only [Matrix.mul_smul, Matrix.mul_one, Matrix.mul_assoc] at whole ⊢
  exact whole.mono (by linarith)

/-- For a unitary whose diagonalisation is exact, a decomposition denotes a unitary, whichever class it is fitted to. -/
theorem reconstruct_unitary {u : Mat4 ℝ} {c : Options ℝ} (decomposed : ofUnitary u c = .ok d) (unitary : u.Unitary)
    (exactly : ExactlyDiagonalized u) : d.reconstruct.Unitary := by
  obtain ⟨f, canonical, denotes, factored⟩ := exactly.exists_form unitary
  obtain ⟨f', canonical', kept⟩ := ofUnitary_eq_ok.mp decomposed
  obtain rfl := Except.ok.inj (canonical.symm.trans canonical')
  obtain ⟨fit, η, fitted, fits⟩ := fit_at factored.innerLeft factored.innerRight (c.classFor f)
  rw [← denotes, ofForm_eq c fitted] at kept
  split at kept
  · cases kept
  · obtain rfl := Except.ok.inj kept
    exact reconstruct_mem_unitary factored.outerLeft factored.outerRight factored.innerLeft factored.innerRight fits c

/-- Without a requested fidelity such a unitary has a decomposition of every class. -/
theorem exists_ofUnitary_withClass {u : Mat4 ℝ} (unitary : u.Unitary) (exactly : ExactlyDiagonalized u) (k : Class) :
    ∃ d : Decomposition ℝ, ofUnitary u (Options.default.withoutFidelity.withClass k) = .ok d ∧ d.fitted = k := by
  obtain ⟨f, canonical, denotes, factored⟩ := exactly.exists_form unitary
  obtain ⟨fit, -, fitted, -⟩ := fit_at factored.innerLeft factored.innerRight k
  obtain ⟨decomposed, -⟩ := ofForm_fits_class factored (canonicalForm_inChamber canonical)
    (o := Options.default.withoutFidelity.withClass k) fitted rfl
  rw [denotes] at decomposed
  exact ⟨_, ofUnitary_eq_ok.mpr ⟨f, canonical, decomposed⟩, rfl⟩

/-- The circuit of a decomposition is always written, in every gate set, and has a unitary matrix. With simplification off
this is the decomposition, global phase included, exactly if the decomposition denotes a unitary; with it on, every
entry is then within twenty tolerances. -/
theorem circuit_reconstructs {u : Mat4 ℝ} {c : Options ℝ} (decomposed : ofUnitary u c = .ok d) (tolerance : 0 ≤ o.atol) :
    ∃ s w, d.circuit o = .ok s ∧ s.unitary = .ok w ∧ w.Unitary ∧
      (o.simplify = false → (w = d.reconstruct ↔ d.reconstruct.Unitary)) ∧
      (o.simplify = true → d.reconstruct.Unitary →
        ∀ i j, ‖(w i j).toComplex - (d.reconstruct i j).toComplex‖ ≤ 20 * o.atol) ∧
      (u.Unitary → ExactlyDiagonalized u → d.reconstruct.Unitary) := by
  obtain ⟨-, holds, -⟩ := ofUnitary_pattern decomposed
  obtain ⟨s, written, within⟩ := circuit_within holds tolerance
  obtain ⟨w, computed, near⟩ := within.unitary
  have exact (denotes : d.reconstruct.Unitary) : Near (9 * o.slack) w.toMatrix d.reconstruct.toMatrix := by
    rwa [written_eq (ofUnitary_factored decomposed denotes)] at near
  refine ⟨s, w, written, computed, near.left, fun kept => ⟨fun same => ?_, fun denotes => ?_⟩, fun simplified denotes i j => ?_,
    reconstruct_unitary decomposed⟩
  · rw [← same]
    exact near.left
  · have none : o.slack = 0 := by rw [CircuitOptions.slack, kept, if_neg Bool.false_ne_true]
    apply Square.ext
    intro i j
    have same := (exact denotes).entry i j
    rw [none, mul_zero, norm_le_zero_iff, sub_eq_zero] at same
    exact Cx.toComplex_injective same
  · have full : o.slack = o.atol := by rw [CircuitOptions.slack, simplified, if_pos rfl]
    have close := (exact denotes).entry i j
    rw [full] at close
    exact close.trans (by linarith)

/-- An interaction inside of the chamber, forced onto the swap. -/
theorem circuit_reconstructs_swap :
    ∃ (d : Decomposition ℝ) (s : Sequence ℝ),
      ofUnitary (interaction (1 / 2) (1 / 4) (-1 / 8)) (Options.default.withoutFidelity.withClass .swap) = .ok d ∧
        d.fitted = .swap ∧ d.circuit .default = .ok s ∧ s.unitary = .ok d.reconstruct ∧ d.reconstruct.Unitary := by
  have unitary := interaction_unitary (1 / 2) (1 / 4) (-1 / 8)
  have exactly := exactlyDiagonalized_interaction (1 / 2) (1 / 4) (-1 / 8)
  obtain ⟨d, decomposed, fitted⟩ := exists_ofUnitary_withClass unitary exactly .swap
  obtain ⟨s, w, written, computed, -, same, -, denotes⟩ :=
    circuit_reconstructs (o := .default) decomposed (by norm_num [CircuitOptions.default])
  rw [(same rfl).mpr (denotes unitary exactly)] at computed
  exact ⟨d, s, decomposed, fitted, written, computed, denotes unitary exactly⟩

/-- What a decomposition denotes need not be unitary, and its circuit is then something else. -/
theorem circuit_stretch_ne_reconstruct :
    ∃ (d : Decomposition ℝ) (s : Sequence ℝ) (w : Mat4 ℝ),
      ofUnitary stretch Options.default.withoutFidelity = .ok d ∧ d.circuit .default = .ok s ∧ s.unitary = .ok w ∧
        w ≠ d.reconstruct := by
  obtain ⟨f, canonical, denotes, -⟩ := canonicalForm_stretch
  obtain ⟨d, kept, same⟩ := ofForm_withoutFidelity stretch f
  have decomposed := ofUnitary_eq_ok.mpr ⟨f, canonical, kept⟩
  obtain ⟨-, holds, -⟩ := ofUnitary_pattern decomposed
  obtain ⟨s, written, within⟩ :=
    circuit_within (o := .default) holds (by norm_num [CircuitOptions.default])
  obtain ⟨w, computed, near⟩ := within.unitary
  refine ⟨d, s, w, decomposed, written, computed, ?_⟩
  rintro rfl
  apply stretch_not_unitary
  have unitary : d.reconstruct.Unitary := near.left
  rwa [reconstruct, same, denotes] at unitary

end Decomposition

end Weyl

end Entangle

end
