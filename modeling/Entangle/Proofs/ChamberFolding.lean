import Mathlib
import Entangle.Weyl.Chamber
import Entangle.Proofs.Interaction

/-!
# Folding keeps the unitary

A form denotes an interaction between one-qubit factors under a phase. Half turns on both outer factors
take a right angle off one angle of the interaction, and half turns on an outer and an inner factor
reverse two of its angles as well. Between its reflections a folding stands for the interaction with
all angles reversed, and with that reading each step keeps the unitary.
-/

noncomputable section

namespace Entangle.Weyl

open Matrix Complex

/-- The interaction between one-qubit factors, under a phase. -/
def dressed (phase : ℝ) (k1l k1r k2l k2r : Mat2 ℝ) (θ : Axis → ℝ) : TwoQubit :=
  exp (phase * I) • (tensor k1l.toMatrix k1r.toMatrix * coupling θ * tensor k2l.toMatrix k2r.toMatrix)

theorem toMatrix_form (f : Form ℝ) :
    f.matrix.toMatrix = dressed f.phase f.k1l f.k1r f.k2l f.k2r (angles f.a f.b f.c) := by
  simp [Form.matrix, dressed]

/-- The one-qubit factors of a form are unitary. -/
structure Form.Factored (f : Form ℝ) : Prop where
  outerLeft : f.k1l.Unitary
  outerRight : f.k1r.Unitary
  innerLeft : f.k2l.Unitary
  innerRight : f.k2r.Unitary

/-- The outer factors have a property, and the inner ones are unitary. -/
structure Form.OuterHas (outer : Mat2 ℝ → Prop) (f : Form ℝ) : Prop where
  outerLeft : outer f.k1l
  outerRight : outer f.k1r
  innerLeft : f.k2l.Unitary
  innerRight : f.k2r.Unitary

theorem Form.Factored.outerHas {f : Form ℝ} (factored : f.Factored) : f.OuterHas Square.Unitary :=
  ⟨factored.outerLeft, factored.outerRight, factored.innerLeft, factored.innerRight⟩

theorem Form.OuterHas.factored {f : Form ℝ} (given : f.OuterHas Square.Unitary) : f.Factored :=
  ⟨given.outerLeft, given.outerRight, given.innerLeft, given.innerRight⟩

/-- A property that unitary factors on the right keep. -/
structure KeptByUnitaries (outer : Mat2 ℝ → Prop) : Prop where
  mul : ∀ {k v : Mat2 ℝ}, outer k → v.Unitary → outer (k * v)

theorem keptByUnitaries_unitary : KeptByUnitaries Square.Unitary := ⟨Mat2.unitary_mul⟩

section Steps

variable {phase e : ℝ} {k1l k1r k2l k2r p : Mat2 ℝ} {k : Axis}

/-- Angles that differ by whole turns denote the same unitary. -/
theorem dressed_turns {θ η : Axis → ℝ} (turns : Axis → ℤ) (same : ∀ j, θ j = η j + 2 * Real.pi * turns j) :
    dressed phase k1l k1r k2l k2r θ = dressed phase k1l k1r k2l k2r η := by
  rw [dressed, dressed, ← coupling_add_turns η turns, funext same]

/-- Half turns on both qubits and a quarter turn of the phase take a right angle off one angle. -/
theorem exp_smul_pair_mul_coupling (right : e = Real.pi / 2 ∨ e = -(Real.pi / 2)) (θ : Axis → ℝ) :
    exp (e * I) • (k.pair * coupling θ) = coupling (θ - Pi.single k e) := by
  have quarter : exp ((Real.pi / 2 : ℝ) * I) = I := by
    push_cast
    exact Complex.exp_pi_div_two_mul_I
  rcases right with rfl | rfl
  · have back := coupling_add_right_angle k (θ - Pi.single k (Real.pi / 2))
    rw [sub_add_cancel] at back
    rw [quarter, back, Matrix.mul_smul, ← Matrix.mul_assoc, pair_mul_self, smul_smul]
    simp
  · have sign : θ - Pi.single k (-(Real.pi / 2)) = θ + Pi.single k (Real.pi / 2) := by
      rw [Pi.single_neg, sub_neg_eq_add]
    rw [sign, coupling_add_right_angle, Complex.ofReal_neg, neg_mul, Complex.exp_neg, quarter, Complex.inv_I]

theorem dressed_turn (stored : p.toMatrix = k.halfTurn) (right : e = Real.pi / 2 ∨ e = -(Real.pi / 2))
    (θ : Axis → ℝ) :
    dressed (phase + e) (k1l * p) (k1r * p) k2l k2r θ =
      dressed phase k1l k1r k2l k2r (θ - Pi.single k e) := by
  rw [dressed, dressed, ← exp_smul_pair_mul_coupling right, Mat2.toMatrix_mul, Mat2.toMatrix_mul, stored,
    ← tensor_mul_tensor, ← Axis.pair]
  push_cast
  rw [add_mul, Complex.exp_add, Matrix.mul_smul, Matrix.smul_mul, smul_smul, Matrix.mul_assoc _ k.pair]

/-- Half turns on an outer and on the other inner factor reverse the angles about the other axes too. -/
theorem dressed_reflect (stored : p.toMatrix = k.halfTurn)
    (right : e = Real.pi / 2 ∨ e = -(Real.pi / 2)) (θ : Axis → ℝ) :
    dressed (phase + e) (k1l * p) k1r k2l (p * k2r) θ =
      dressed phase k1l k1r k2l k2r (k.sense * θ - Pi.single k e) := by
  have outer : tensor (k1l * p).toMatrix k1r.toMatrix =
      tensor k1l.toMatrix k1r.toMatrix * tensor k.halfTurn 1 := by
    rw [tensor_mul_tensor, Mat2.toMatrix_mul, stored, Matrix.mul_one]
  have inner : tensor k2l.toMatrix (p * k2r).toMatrix =
      tensor 1 k.halfTurn * tensor k2l.toMatrix k2r.toMatrix := by
    rw [tensor_mul_tensor, Mat2.toMatrix_mul, stored, Matrix.one_mul]
  have both : tensor k.halfTurn 1 * coupling θ * tensor 1 k.halfTurn =
      k.pair * coupling (k.sense * θ) := by
    have passes := halfTurn_right_mul_coupling k (k.sense * θ)
    rw [sense_mul_sense_mul] at passes
    rw [Matrix.mul_assoc, ← passes, ← Matrix.mul_assoc, tensor_mul_tensor, Matrix.one_mul, Matrix.mul_one,
      Axis.pair]
  rw [dressed, dressed, outer, inner, ← exp_smul_pair_mul_coupling right, ← both]
  push_cast
  rw [add_mul, Complex.exp_add, Matrix.mul_smul, Matrix.smul_mul, smul_smul]
  simp only [Matrix.mul_assoc]

end Steps

namespace Folding

/-- The angles by axis. -/
def axes (f : Folding ℝ) : Axis → ℝ := angles f.y f.x f.z

/-- The unitary that a folding stands for: the angles are reversed while one reflection is open. -/
def value (f : Folding ℝ) : TwoQubit :=
  dressed f.phase f.k1l f.k1r f.k2l f.k2r (if f.reflections = 1 then -f.axes else f.axes)

theorem toMatrix_toForm (f : Folding ℝ) :
    f.toForm.matrix.toMatrix = dressed f.phase f.k1l f.k1r f.k2l f.k2r f.axes :=
  Weyl.toMatrix_form f.toForm

theorem value_of_closed {f : Folding ℝ} (closed : f.reflections ≠ 1) :
    f.value = dressed f.phase f.k1l f.k1r f.k2l f.k2r f.axes := by
  rw [value, if_neg closed]

theorem value_of_open {f : Folding ℝ} (opened : f.reflections = 1) :
    f.value = dressed f.phase f.k1l f.k1r f.k2l f.k2r (-f.axes) := by
  rw [value, if_pos opened]

theorem value_turnX {f : Folding ℝ} (closed : f.reflections ≠ 1) : f.turnX.value = f.value := by
  unfold turnX
  split
  · rw [value_of_closed closed, value_of_closed (by exact closed)]
    dsimp only
    rw [Exact.halfPi_eq, dressed_turn toMatrix_ipy (.inl rfl)]
    refine dressed_turns (Pi.single .y (-1)) fun j => ?_
    cases j <;> simp [axes, angles]
    ring
  · rfl

theorem value_turnY {f : Folding ℝ} (closed : f.reflections ≠ 1) : f.turnY.value = f.value := by
  unfold turnY
  split
  · rw [value_of_closed closed, value_of_closed (by exact closed)]
    dsimp only
    rw [Exact.halfPi_eq, dressed_turn toMatrix_ipx (.inl rfl)]
    refine dressed_turns (Pi.single .x (-1)) fun j => ?_
    cases j <;> simp [axes, angles]
    ring
  · rfl

/-- The first reflection opens the reversal. -/
theorem value_reflectX {f : Folding ℝ} (fresh : f.reflections = 0) : f.reflectX.value = f.value := by
  unfold reflectX
  split
  · rw [value_of_closed (f := f) (by omega), value_of_open (by simp [fresh])]
    dsimp only
    rw [Exact.halfPi_eq, sub_eq_add_neg, dressed_reflect toMatrix_ipy (.inr rfl)]
    congr 1
    funext j
    cases j <;> simp [axes, angles, Axis.sense]
  · rfl

/-- The second reflection opens the reversal or closes it. -/
theorem value_reflectY {f : Folding ℝ} (few : f.reflections ≤ 1) : f.reflectY.value = f.value := by
  unfold reflectY
  split
  · rcases Nat.le_one_iff_eq_zero_or_eq_one.mp few with fresh | opened
    · have phase : f.phase + Real.pi / 2 - Real.pi = f.phase + -(Real.pi / 2) := by ring
      rw [value_of_closed (f := f) (by omega), value_of_open (by simp [fresh])]
      dsimp only
      rw [fresh, if_pos rfl, Exact.halfPi_eq, Exact.pi_eq, phase, dressed_reflect toMatrix_ipx (.inr rfl)]
      congr 1
      funext j
      cases j <;> simp [axes, angles, Axis.sense]
    · rw [value_of_open opened, value_of_closed (by simp [opened])]
      dsimp only
      rw [opened, if_neg (by decide), Exact.halfPi_eq, dressed_reflect toMatrix_ipx (.inl rfl)]
      congr 1
      funext j
      cases j <;> simp [axes, angles, Axis.sense]
  · rfl

theorem value_turnZ (f : Folding ℝ) : f.turnZ.value = f.value := by
  unfold turnZ
  split
  · by_cases opened : f.reflections = 1
    · have phase : f.phase + Real.pi / 2 - Real.pi = f.phase + -(Real.pi / 2) := by ring
      rw [value_of_open opened, value_of_open (by exact opened)]
      dsimp only
      rw [if_pos opened, Exact.halfPi_eq, Exact.pi_eq, phase, dressed_turn toMatrix_ipz (.inr rfl)]
      refine dressed_turns (Pi.single .z 1) fun j => ?_
      cases j <;> simp [axes, angles]
      ring
    · rw [value_of_closed opened, value_of_closed (by exact opened)]
      dsimp only
      rw [if_neg opened, Exact.halfPi_eq, dressed_turn toMatrix_ipz (.inl rfl)]
      refine dressed_turns (Pi.single .z (-1)) fun j => ?_
      cases j <;> simp [axes, angles]
      ring
  · rfl

/-- The last reflection closes an open reversal, and the form stands for the unitary. -/
theorem toMatrix_reflectZ (f : Folding ℝ) : f.reflectZ.toForm.matrix.toMatrix = f.value := by
  rw [toMatrix_toForm]
  unfold reflectZ
  split
  next opened =>
    rw [value_of_open opened]
    dsimp only
    rw [Exact.halfPi_eq, dressed_reflect toMatrix_ipz (.inl rfl)]
    congr 1
    funext j
    cases j <;> simp [axes, angles, Axis.sense]
  next closed => rw [value_of_closed closed]

theorem toMatrix_dropZ (f : Folding ℝ) :
    f.dropZ.toForm.matrix.toMatrix = f.toForm.matrix.toMatrix := by
  rw [toMatrix_toForm, toMatrix_toForm]
  unfold dropZ
  split
  · dsimp only
    rw [Exact.halfPi_eq, sub_eq_add_neg, dressed_turn toMatrix_ipz (.inr rfl)]
    congr 1
    funext j
    cases j <;> simp [axes, angles]
  · rfl

theorem reflections_turnX (f : Folding ℝ) : f.turnX.reflections = f.reflections := by
  unfold turnX
  split <;> rfl

theorem reflections_turnY (f : Folding ℝ) : f.turnY.reflections = f.reflections := by
  unfold turnY
  split <;> rfl

theorem reflections_reflectX_le (f : Folding ℝ) : f.reflectX.reflections ≤ f.reflections + 1 := by
  unfold reflectX
  split <;> simp

/-- Folding into the chamber keeps the unitary. -/
theorem toMatrix_fold {f : Folding ℝ} (fresh : f.reflections = 0) :
    f.fold.toForm.matrix.toMatrix = dressed f.phase f.k1l f.k1r f.k2l f.k2r f.axes := by
  have first : f.turnX.reflections = 0 := (reflections_turnX f).trans fresh
  have second : f.turnX.turnY.reflections = 0 := (reflections_turnY _).trans first
  have third : f.turnX.turnY.reflectX.reflections ≤ 1 := by
    have bound := reflections_reflectX_le f.turnX.turnY
    omega
  calc
    _ = f.turnX.turnY.reflectX.reflectY.turnZ.value := by rw [fold, toMatrix_dropZ, toMatrix_reflectZ]
    _ = f.turnX.turnY.value := by rw [value_turnZ, value_reflectY third, value_reflectX second]
    _ = f.value := by rw [value_turnY (by omega), value_turnX (by omega)]
    _ = _ := value_of_closed (by omega)

open Mat2 in
/-- Folding into the chamber keeps the inner factors unitary, and of the outer ones what unitary factors on the
right keep. -/
theorem outerHas_fold {outer : Mat2 ℝ → Prop} (kept : KeptByUnitaries outer) {f : Folding ℝ}
    (given : f.toForm.OuterHas outer) : f.fold.toForm.OuterHas outer := by
  have turnX {f : Folding ℝ} (given : f.toForm.OuterHas outer) : f.turnX.toForm.OuterHas outer := by
    unfold turnX
    split
    · exact ⟨kept.mul given.outerLeft ipy_unitary, kept.mul given.outerRight ipy_unitary, given.innerLeft, given.innerRight⟩
    · exact given
  have turnY {f : Folding ℝ} (given : f.toForm.OuterHas outer) : f.turnY.toForm.OuterHas outer := by
    unfold turnY
    split
    · exact ⟨kept.mul given.outerLeft ipx_unitary, kept.mul given.outerRight ipx_unitary, given.innerLeft, given.innerRight⟩
    · exact given
  have reflectX {f : Folding ℝ} (given : f.toForm.OuterHas outer) : f.reflectX.toForm.OuterHas outer := by
    unfold reflectX
    split
    · exact ⟨kept.mul given.outerLeft ipy_unitary, given.outerRight, given.innerLeft, unitary_mul ipy_unitary given.innerRight⟩
    · exact given
  have reflectY {f : Folding ℝ} (given : f.toForm.OuterHas outer) : f.reflectY.toForm.OuterHas outer := by
    unfold reflectY
    split
    · exact ⟨kept.mul given.outerLeft ipx_unitary, given.outerRight, given.innerLeft, unitary_mul ipx_unitary given.innerRight⟩
    · exact given
  have turnZ {f : Folding ℝ} (given : f.toForm.OuterHas outer) : f.turnZ.toForm.OuterHas outer := by
    unfold turnZ
    split
    · exact ⟨kept.mul given.outerLeft ipz_unitary, kept.mul given.outerRight ipz_unitary, given.innerLeft, given.innerRight⟩
    · exact given
  have reflectZ {f : Folding ℝ} (given : f.toForm.OuterHas outer) : f.reflectZ.toForm.OuterHas outer := by
    unfold reflectZ
    split
    · exact ⟨kept.mul given.outerLeft ipz_unitary, given.outerRight, given.innerLeft, unitary_mul ipz_unitary given.innerRight⟩
    · exact given
  have dropZ {f : Folding ℝ} (given : f.toForm.OuterHas outer) : f.dropZ.toForm.OuterHas outer := by
    unfold dropZ
    split
    · exact ⟨kept.mul given.outerLeft ipz_unitary, kept.mul given.outerRight ipz_unitary, given.innerLeft, given.innerRight⟩
    · exact given
  exact dropZ (reflectZ (turnZ (reflectY (reflectX (turnY (turnX given))))))

/-- Folding into the chamber keeps the factors unitary. -/
theorem factored_fold {f : Folding ℝ} (factored : f.toForm.Factored) : f.fold.toForm.Factored := by
  have folded := outerHas_fold keptByUnitaries_unitary factored.outerHas
  exact folded.factored

end Folding

end Entangle.Weyl

end
