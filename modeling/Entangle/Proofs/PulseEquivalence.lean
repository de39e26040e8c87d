import Mathlib
import Entangle.Proofs.Corrections
import Entangle.Proofs.RootEmission

/-!
# Pulse-efficient circuits with two controlled-nots

Rotations about the third axis pass the control of a controlled-not and those about the first axis
its target. The outer rotations of the middle corrections so move to the layers at both ends, and what
is left between the controlled-nots is one rotation on each qubit. The circuit denotes what the plain
one denotes, up to the tolerance with which one-qubit unitaries are emitted.
-/

noncomputable section

namespace Entangle.Synthesis

open Matrix Complex
open Circuit (Sequence)
open Circuit.Sequence (Within controlledNot placed)
open Weyl (Axis Decomposition)

/-! ## Emitted layers -/

theorem tensor_eq_placed (l r : OneQubit) : tensor l r = placed 1 l * placed 0 r := by
  rw [placed, placed, if_neg (by decide), if_pos rfl, tensor_mul_tensor, Matrix.mul_one, Matrix.one_mul]

/-- Both corrections of a layer are unitary. -/
def Layer.Unitary (layer : Layer ℝ) : Prop := layer.right.Unitary ∧ layer.left.Unitary

namespace Decomposer

section Emission

variable {d : Decomposer ℝ} {s : Sequence ℝ} {ε : ℝ} {v : TwoQubit}

theorem appendOneQubit_within (emits : d.options.euler.Emits)
    (within : s.Within ε v) {u : Mat2 ℝ} (unitary : u.Unitary) {q : ℤ} (wire : q = 0 ∨ q = 1) :
    ∃ t, d.appendOneQubit s u q = .ok t ∧ t.Within (ε + 3 / 2 * 1e-12) (placed q u.toMatrix * v) := by
  obtain ⟨part, emitted, near⟩ := emits
    (o := { Euler.Options.default with qubit := q }) wire (by norm_num [Euler.Options.default]) unitary
  refine ⟨s.extend part, ?_, ?_⟩
  · rw [appendOneQubit, emitted]
    rfl
  · have both := within.extend near
    rw [add_comm] at both
    exact both

theorem appendLayer_within (emits : d.options.euler.Emits)
    (within : s.Within ε v) {layer : Layer ℝ} (unitary : layer.Unitary) :
    ∃ t, d.appendLayer s layer = .ok t ∧ t.Within (ε + 3e-12) (layer.matrix.toMatrix * v) := by
  obtain ⟨t, appended, near⟩ := appendOneQubit_within emits within unitary.1 (.inl rfl)
  obtain ⟨t', appended', near'⟩ := appendOneQubit_within emits near unitary.2 (.inr rfl)
  refine ⟨t', ?_, ?_⟩
  · rw [appendLayer, appended]
    exact appended'
  · rw [Layer.toMatrix_matrix, tensor_eq_placed, Matrix.mul_assoc]
    exact near'.mono (by linarith)

/-- Over exact numbers a one-qubit unitary is always written. -/
theorem exists_appendOneQubit (d : Decomposer ℝ) (s : Sequence ℝ) (v : Mat2 ℝ) (q : ℤ) :
    ∃ t, d.appendOneQubit s v q = .ok t ∧ s.instructions ⊆ t.instructions := by
  rw [appendOneQubit, Euler.decompose, if_pos (Square.isFinite_eq v)]
  exact ⟨_, rfl, List.subset_append_left _ _⟩

theorem exists_appendLayer (d : Decomposer ℝ) (s : Sequence ℝ) (layer : Layer ℝ) :
    ∃ t, d.appendLayer s layer = .ok t ∧ s.instructions ⊆ t.instructions := by
  obtain ⟨t, right, kept⟩ := d.exists_appendOneQubit s layer.right 0
  obtain ⟨t', left, kept'⟩ := d.exists_appendOneQubit t layer.left 1
  exact ⟨t', bind_eq_ok.mpr ⟨t, right, left⟩, List.Subset.trans kept kept'⟩

/-- Over exact numbers the plain circuit is always written, after what there was. -/
theorem exists_interleave (d : Decomposer ℝ) (layers : List (Layer ℝ)) (s : Sequence ℝ) :
    ∃ t, d.interleave layers s = .ok t ∧ s.instructions ⊆ t.instructions ∧
      (2 ≤ layers.length → ⟨d.gate, d.params, [0, 1]⟩ ∈ t.instructions) := by
  induction layers generalizing s with
  | nil => exact ⟨s, rfl, fun _ => id, by simp⟩
  | cons layer rest ih =>
    obtain ⟨t, appended, kept⟩ := d.exists_appendLayer s layer
    cases rest with
    | nil => exact ⟨t, appended, kept, by simp⟩
    | cons next others =>
      obtain ⟨t', joined, kept', -⟩ := ih (t.append d.gate d.params [0, 1])
      refine ⟨t', bind_eq_ok.mpr ⟨t, appended, joined⟩, fun i member => ?_, fun _ => ?_⟩
      · exact kept' (List.mem_append_left _ (kept member))
      · exact kept' (List.mem_append_right _ (List.mem_singleton_self _))

/-- Layers with the gate between each two cost the tolerance of every layer. -/
theorem interleave_within (emits : d.options.euler.Emits) {g : Mat4 ℝ}
    (unitary : g.Unitary)
    (known : ∀ index, ∃ x, Sequence.twoQubitMatrix index ⟨d.gate, d.params, [0, 1]⟩ = .ok x ∧
      x.toMatrix = g.toMatrix)
    {layers : List (Layer ℝ)} (units : ∀ layer ∈ layers, layer.Unitary) (within : s.Within ε v) :
    ∃ t, d.interleave layers s = .ok t ∧
      t.Within (ε + layers.length * 3e-12) ((interleaved g layers).toMatrix * v) := by
  induction layers generalizing s ε v with
  | nil =>
    refine ⟨s, rfl, ?_⟩
    rw [interleaved, Square.toMatrix_identity, Matrix.one_mul]
    exact within.mono (by simp)
  | cons layer rest ih =>
    obtain ⟨t, appended, near⟩ := appendLayer_within emits within (units layer (by simp))
    cases rest with
    | nil => exact ⟨t, appended, near.mono (by simp)⟩
    | cons next rest =>
      obtain ⟨t', joined, near'⟩ := ih (fun other member => units other (by simp [member])) (near.push unitary known)
      refine ⟨t', ?_, ?_⟩
      · rw [interleave, appended]
        exact joined
      · rw [interleaved, Mat4.toMatrix_mul, Mat4.toMatrix_mul, Matrix.mul_assoc, Matrix.mul_assoc]
        have longer : ((layer :: next :: rest).length : ℝ) = (next :: rest).length + 1 := by simp
        exact near'.mono (by linarith)

end Emission

end Decomposer

/-! ## Layers as rotations -/

/-- The rotations of a triple of angles. -/
def Triple.product (t : Triple ℝ) (outer inner : Axis) : OneQubit :=
  outer.rotation t.last * inner.rotation t.middle * outer.rotation t.first

/-- The angles of a layer. -/
def Layer.split (layer : Layer ℝ) : Split ℝ :=
  ⟨.ofAngles (.zxz layer.right), .ofAngles (.xzx layer.left)⟩

/-- The phase that the angles of a layer leave. -/
def Layer.phase (layer : Layer ℝ) : ℝ :=
  (Euler.Angles.zxz layer.right).phase + (Euler.Angles.xzx layer.left).phase

theorem splitLayers_eq (layers : List (Layer ℝ)) (phase : ℝ) :
    splitLayers layers phase = .ok (layers.map Layer.split, phase + (layers.map Layer.phase).sum) := by
  induction layers generalizing phase with
  | nil => simp [splitLayers]
  | cons layer rest ih =>
    have right : Euler.Angles.ofUnitary layer.right .zxz = .ok (Euler.Angles.zxz layer.right) := by
      rw [Euler.Angles.ofUnitary, if_pos (Square.isFinite_eq _), Euler.Angles.inBasis]
    have left : Euler.Angles.ofUnitary layer.left .xzx = .ok (Euler.Angles.xzx layer.left) := by
      rw [Euler.Angles.ofUnitary, if_pos (Square.isFinite_eq _), Euler.Angles.inBasis]
    rw [splitLayers, right, left]
    simp only [bind, Except.bind, pure, Except.pure]
    rw [ih]
    simp [Layer.split, Layer.phase, add_assoc]

/-- A layer is the rotations by its angles, under its phase. -/
theorem Layer.toMatrix_split {layer : Layer ℝ} (unitary : layer.Unitary) :
    layer.matrix.toMatrix = exp (layer.phase * I) •
      tensor (layer.split.left.product .x .z) (layer.split.right.product .z .x) := by
  have phases : exp (layer.phase * I) = exp ((Euler.Angles.xzx layer.left).phase * I) *
      exp ((Euler.Angles.zxz layer.right).phase * I) := by
    rw [← Complex.exp_add, Layer.phase]
    push_cast
    ring_nf
  rw [Layer.toMatrix_matrix, ← Euler.xzx_product unitary.2, ← Euler.zxz_product unitary.1, phases,
    Euler.Angles.product, Euler.Angles.product, tensor_smul_left, tensor_smul_right, smul_smul]
  rfl

/-! ## Through the controlled-not -/

/-- Rotations about the first axis pass the target, and those about the third axis the control. -/
theorem controlledNot_mul_rotations (s t : ℝ) :
    controlledNot * tensor (Axis.x.rotation s) (Axis.z.rotation t) =
      tensor (Axis.x.rotation s) (Axis.z.rotation t) * controlledNot := by
  rw [controlledNot, Gate.cxMatrix, Mat4.toMatrix_of, Axis.rotation_z_eq, Axis.rotation_x_eq, ← Matrix.ext_iff]
  simp [Matrix.mul_apply, Fin.sum_univ_four, Fin.forall_fin_succ]

/-- Two square roots of `X` around a shifted rotation make one about the first axis, between quarter
turns about the third. -/
theorem quarter_sx_quarter (t : ℝ) :
    Axis.z.rotation (Real.pi / 2) * ((Gate.sxMatrix : Mat2 ℝ).toMatrix * Axis.z.rotation (t - Real.pi) *
        (Gate.sxMatrix : Mat2 ℝ).toMatrix) * Axis.z.rotation (Real.pi / 2) =
      I • Axis.x.rotation t := by
  have turn : Real.pi / 2 + (-Real.pi + Real.pi / 2) = 0 := by ring
  rw [Gate.sx_rotation_sx, ← Axis.rotation_y_eq_turned, Matrix.mul_smul, Matrix.smul_mul]
  congr 1
  calc
    _ = Axis.z.rotation (Real.pi / 2) * (Axis.z.rotation (-Real.pi) * Axis.z.rotation (Real.pi / 2)) *
        Axis.x.rotation t * (Axis.z.rotation (-(Real.pi / 2)) * Axis.z.rotation (Real.pi / 2)) := by
      simp only [Matrix.mul_assoc]
    _ = Axis.x.rotation t := by
      rw [Axis.rotation_mul, Axis.rotation_mul, Axis.rotation_mul, turn, neg_add_cancel, Axis.rotation_zero, Matrix.one_mul,
        Matrix.mul_one]

/-- What stands between the controlled-nots of the pulse form. -/
def pulseMiddle (b : Split ℝ) : TwoQubit :=
  tensor (Axis.z.rotation b.left.middle) ((Gate.sxMatrix : Mat2 ℝ).toMatrix *
    Axis.z.rotation (b.right.middle - Real.pi) * (Gate.sxMatrix : Mat2 ℝ).toMatrix)

/-- The first layer of the pulse form, with the rotations that the middle one gives off. -/
def pulseFirst (a b : Split ℝ) : TwoQubit :=
  tensor ((⟨a.left.first, a.left.middle, a.left.last + b.left.first⟩ : Triple ℝ).product .x .z)
    ((⟨a.right.first, a.right.middle, a.right.last + b.right.first + Real.pi / 2⟩ : Triple ℝ).product .z .x)

/-- The last layer of the pulse form. -/
def pulseLast (b c : Split ℝ) : TwoQubit :=
  tensor ((⟨b.left.last + c.left.first, c.left.middle, c.left.last⟩ : Triple ℝ).product .x .z)
    ((⟨b.right.last + c.right.first + Real.pi / 2, c.right.middle, c.right.last⟩ : Triple ℝ).product .z .x)

/-- The pulse form makes the same unitary up to a quarter turn of the phase. -/
theorem pulse_product (a b c : Split ℝ) :
    pulseLast b c * controlledNot * pulseMiddle b * controlledNot * pulseFirst a b =
      I • (tensor (c.left.product .x .z) (c.right.product .z .x) * controlledNot *
        tensor (b.left.product .x .z) (b.right.product .z .x) * controlledNot *
        tensor (a.left.product .x .z) (a.right.product .z .x)) := by
  set first := tensor (Axis.x.rotation b.left.first) (Axis.z.rotation b.right.first) with firstDef
  set last := tensor (Axis.x.rotation b.left.last) (Axis.z.rotation b.right.last) with lastDef
  set quarter := tensor (Axis.x.rotation 0) (Axis.z.rotation (Real.pi / 2)) with quarterDef
  have start : pulseFirst a b = quarter * first * tensor (a.left.product .x .z) (a.right.product .z .x) := by
    have sum : a.right.last + b.right.first + Real.pi / 2 = Real.pi / 2 + b.right.first + a.right.last := by ring
    rw [pulseFirst, quarterDef, firstDef, tensor_mul_tensor, tensor_mul_tensor]
    simp only [Triple.product, ← Matrix.mul_assoc, Axis.rotation_mul, zero_add]
    rw [sum, add_comm a.left.last]
  have finish : pulseLast b c = tensor (c.left.product .x .z) (c.right.product .z .x) * last * quarter := by
    rw [pulseLast, quarterDef, lastDef, tensor_mul_tensor, tensor_mul_tensor]
    simp only [Triple.product, Matrix.mul_assoc, Axis.rotation_mul, add_zero]
    rw [add_comm b.left.last, add_comm b.right.last]
  have middle : quarter * pulseMiddle b * quarter =
      I • tensor (Axis.z.rotation b.left.middle) (Axis.x.rotation b.right.middle) := by
    rw [quarterDef, pulseMiddle, tensor_mul_tensor, tensor_mul_tensor, quarter_sx_quarter, Axis.rotation_zero, Matrix.one_mul,
      Matrix.mul_one, tensor_smul_right]
  have whole : tensor (b.left.product .x .z) (b.right.product .z .x) =
      last * tensor (Axis.z.rotation b.left.middle) (Axis.x.rotation b.right.middle) * first := by
    rw [lastDef, firstDef, tensor_mul_tensor, tensor_mul_tensor]
    rfl
  have outer : last * quarter * controlledNot = controlledNot * last * quarter := by
    rw [quarterDef, Matrix.mul_assoc, ← controlledNot_mul_rotations, ← Matrix.mul_assoc, lastDef,
      ← controlledNot_mul_rotations]
  have inner : controlledNot * (quarter * first) = quarter * first * controlledNot := by
    rw [quarterDef, ← Matrix.mul_assoc, controlledNot_mul_rotations, Matrix.mul_assoc, firstDef,
      controlledNot_mul_rotations, Matrix.mul_assoc]
  calc
    _ = tensor (c.left.product .x .z) (c.right.product .z .x) * (last * quarter * controlledNot) * pulseMiddle b *
        (controlledNot * (quarter * first)) * tensor (a.left.product .x .z) (a.right.product .z .x) := by
      rw [start, finish]
      simp only [Matrix.mul_assoc]
    _ = tensor (c.left.product .x .z) (c.right.product .z .x) * controlledNot * last *
        (quarter * pulseMiddle b * quarter) * first * controlledNot *
        tensor (a.left.product .x .z) (a.right.product .z .x) := by
      rw [outer, inner]
      simp only [Matrix.mul_assoc]
    _ = _ := by
      rw [middle, whole]
      simp only [Matrix.mul_assoc, Matrix.mul_smul, Matrix.smul_mul]

open Gate (rxMatrix rzMatrix)

/-- The first layer of the pulse form as it is emitted. -/
def firstLayer (a b : Split ℝ) : Layer ℝ :=
  ⟨rzMatrix (a.right.last + b.right.first + Scalar.halfPi) * rxMatrix a.right.middle * rzMatrix a.right.first,
    rxMatrix (a.left.last + b.left.first) * rzMatrix a.left.middle * rxMatrix a.left.first⟩

/-- The last layer of the pulse form as it is emitted. -/
def lastLayer (b c : Split ℝ) : Layer ℝ :=
  ⟨rzMatrix c.right.last * rxMatrix c.right.middle * rzMatrix (b.right.last + c.right.first + Scalar.halfPi),
    rxMatrix c.left.last * rzMatrix c.left.middle * rxMatrix (b.left.last + c.left.first)⟩

theorem toMatrix_firstLayer (a b : Split ℝ) : (firstLayer a b).matrix.toMatrix = pulseFirst a b := by
  simp [firstLayer, pulseFirst, Triple.product]

theorem toMatrix_lastLayer (b c : Split ℝ) : (lastLayer b c).matrix.toMatrix = pulseLast b c := by
  simp [lastLayer, pulseLast, Triple.product]

theorem rotations_mem_unitary (j k l : Axis) (r s t : ℝ) :
    j.rotation r * k.rotation s * l.rotation t ∈ unitaryGroup (Fin 2) ℂ :=
  mul_mem (mul_mem (j.rotation_mem_unitary r) (k.rotation_mem_unitary s)) (l.rotation_mem_unitary t)

theorem firstLayer_unitary (a b : Split ℝ) : (firstLayer a b).Unitary := by
  constructor <;> simpa [firstLayer, Square.Unitary] using rotations_mem_unitary _ _ _ _ _ _

theorem lastLayer_unitary (b c : Split ℝ) : (lastLayer b c).Unitary := by
  constructor <;> simpa [lastLayer, Square.Unitary] using rotations_mem_unitary _ _ _ _ _ _

namespace Decomposer

variable {d : Decomposer ℝ}

/-- The plain circuit of three layers with two controlled-nots. -/
theorem generic_within (standard : d.gate = .standard .cx) (bare : d.params = [])
    (rooted : d.options.euler = .zsx ∨ d.options.euler = .zsxx) (target : Decomposition ℝ) {a b c : Layer ℝ}
    (first : a.Unitary) (second : b.Unitary) (third : c.Unitary) :
    ∃ s, d.generic 2 [a, b, c] target = .ok s ∧
      s.Within 9e-12 (exp (d.startPhase 2 target * I) • (c.matrix.toMatrix * controlledNot * b.matrix.toMatrix *
        controlledNot * a.matrix.toMatrix)) := by
  have known (index : ℕ) : ∃ x, Sequence.twoQubitMatrix index ⟨d.gate, d.params, [0, 1]⟩ = .ok x ∧
      x.toMatrix = (Gate.cxMatrix : Mat4 ℝ).toMatrix := by
    rw [standard, bare]
    exact ⟨_, Sequence.twoQubitMatrix_controlledNot index, rfl⟩
  have units : ∀ layer ∈ [a, b, c], layer.Unitary := by simp [first, second, third]
  obtain ⟨s, joined, near⟩ := interleave_within (Euler.emits_rooted rooted) Sequence.controlledNot_mem_unitary known units
    (Within.empty (d.startPhase 2 target))
  refine ⟨s, joined, ?_⟩
  have value : (interleaved Gate.cxMatrix [a, b, c]).toMatrix = c.matrix.toMatrix * controlledNot * b.matrix.toMatrix *
      controlledNot * a.matrix.toMatrix := by
    simp only [interleaved, Mat4.toMatrix_mul, controlledNot]
  rw [value, Matrix.mul_smul, Matrix.mul_one] at near
  exact near.mono (by norm_num)

/-- The pulse form of three layers. -/
theorem twoGatePulse_within (rooted : d.options.euler = .zsx ∨ d.options.euler = .zsxx)
    (target : Decomposition ℝ) (a b c : Layer ℝ) :
    ∃ s, d.twoGatePulse [a, b, c] target = .ok s ∧
      s.Within 6e-12 (exp ((target.phase - 2 * d.basis.phase + (a.phase + b.phase + c.phase) + Real.pi / 2 : ℝ) * I) •
        (pulseLast b.split c.split * controlledNot * pulseMiddle b.split * controlledNot *
          pulseFirst a.split b.split)) := by
  set phase := target.phase - 2 * d.basis.phase + (0 + ([a, b, c].map Layer.phase).sum)
  have start := Within.empty phase
  obtain ⟨s, opened, near⟩ := appendLayer_within (Euler.emits_rooted rooted) start (firstLayer_unitary a.split b.split)
  have root : Gate.Standard.sx.matrix? [] = some (.one (Gate.sxMatrix : Mat2 ℝ)) := rfl
  have turn (t : ℝ) : Gate.Standard.rz.matrix? [t] = some (.one (rzMatrix t)) := rfl
  have between := (((((near.controlledNot.one root rfl (.inl rfl) Gate.sxMatrix_unitary).one
    (turn (b.split.right.middle - Scalar.pi)) rfl (.inl rfl) (Gate.rzMatrix_unitary _)).one root rfl (.inl rfl)
    Gate.sxMatrix_unitary).one (turn b.split.left.middle) rfl (.inr rfl) (Gate.rzMatrix_unitary _)).addPhase
    Scalar.halfPi).controlledNot
  obtain ⟨s', closed, near'⟩ := appendLayer_within (Euler.emits_rooted rooted) between (lastLayer_unitary b.split c.split)
  refine ⟨s', ?_, ?_⟩
  · rw [twoGatePulse, splitLayers_eq, Exact.zero_eq]
    change Attempt.ofOutcome ((d.appendLayer (.empty phase) (firstLayer a.split b.split)).bind fun s =>
      d.appendLayer _ (lastLayer b.split c.split)) = .ok s'
    rw [opened]
    exact congrArg Attempt.ofOutcome closed
  · have middle : pulseMiddle b.split = placed 1 (Axis.z.rotation b.split.left.middle) *
        (placed 0 (Gate.sxMatrix : Mat2 ℝ).toMatrix * (placed 0 (Axis.z.rotation (b.split.right.middle - Real.pi)) *
          placed 0 (Gate.sxMatrix : Mat2 ℝ).toMatrix)) := by
      rw [pulseMiddle, tensor_eq_placed, ← Sequence.placed_mul, ← Sequence.placed_mul, Matrix.mul_assoc]
    have phases : exp ((target.phase - 2 * d.basis.phase + (a.phase + b.phase + c.phase) + Real.pi / 2 : ℝ) * I) =
        exp ((Real.pi / 2 : ℝ) * I) * exp (phase * I) := by
      have sum : phase = target.phase - 2 * d.basis.phase + (a.phase + b.phase + c.phase) := by
        simp [phase, add_assoc]
      rw [← Complex.exp_add, sum]
      push_cast
      ring_nf
    rw [toMatrix_firstLayer, toMatrix_lastLayer, Gate.toMatrix_rzMatrix, Gate.toMatrix_rzMatrix, Exact.halfPi_eq,
      Exact.pi_eq] at near'
    rw [phases, middle]
    simp only [Matrix.mul_smul, Matrix.mul_one, Matrix.mul_assoc, smul_smul] at near' ⊢
    exact near'.mono (by norm_num)

/-- What the two circuits are meant to denote is the same, phase included. -/
theorem pulse_eq_generic (target : Decomposition ℝ) {a b c : Layer ℝ} (first : a.Unitary) (second : b.Unitary)
    (third : c.Unitary) :
    exp ((target.phase - 2 * d.basis.phase + (a.phase + b.phase + c.phase) + Real.pi / 2 : ℝ) * I) •
        (pulseLast b.split c.split * controlledNot * pulseMiddle b.split * controlledNot *
          pulseFirst a.split b.split) =
      exp (d.startPhase 2 target * I) • (c.matrix.toMatrix * controlledNot * b.matrix.toMatrix *
        controlledNot * a.matrix.toMatrix) := by
  have phases : exp ((target.phase - 2 * d.basis.phase + (a.phase + b.phase + c.phase) + Real.pi / 2 : ℝ) * I) * I =
      exp (d.startPhase 2 target * I) * (exp (a.phase * I) * (exp (b.phase * I) * exp (c.phase * I))) := by
    have angle : ((target.phase - 2 * d.basis.phase + (a.phase + b.phase + c.phase) + Real.pi / 2 : ℝ) * I : ℂ) +
        Real.pi / 2 * I = d.startPhase 2 target * I + (a.phase * I + (b.phase * I + c.phase * I)) := by
      rw [startPhase, if_pos rfl, Exact.ofNat_eq, Exact.pi_eq, Fin.val_two]
      push_cast
      ring
    rw [← Complex.exp_add, ← Complex.exp_add, ← Complex.exp_add, ← angle, Complex.exp_add _ (Real.pi / 2 * I),
      Complex.exp_pi_div_two_mul_I]
  rw [pulse_product, smul_smul, phases, Layer.toMatrix_split first, Layer.toMatrix_split second, Layer.toMatrix_split third]
  simp only [Matrix.mul_smul, Matrix.smul_mul, smul_smul]

/-- The controlled-not has no angles. -/
theorem bare_of_unitary (standard : d.gate = .standard .cx) {s : Sequence ℝ}
    (member : ⟨d.gate, d.params, [0, 1]⟩ ∈ s.instructions) {u : Mat4 ℝ} (computed : s.unitary = .ok u) : d.params = [] := by
  obtain ⟨v, multiplied, -⟩ := bind_eq_ok.mp computed
  obtain ⟨k, m, known⟩ := Sequence.exists_matrix_of_product multiplied member
  rw [standard] at known
  cases given : d.params with
  | nil => rfl
  | cons t rest =>
    rw [given] at known
    cases known

/-- The pulse form with two controlled-nots always applies and has a unitary, and it agrees with the plain circuit: that
one is always written, and has a unitary where the gate is given without angles, as the controlled-not is. -/
theorem twoGatePulse_agrees (standard : d.gate = .standard .cx)
    (rooted : d.options.euler = .zsx ∨ d.options.euler = .zsxx) (target : Decomposition ℝ)
    {layers : List (Layer ℝ)} (three : layers.length = 3) (units : ∀ layer ∈ layers, layer.Unitary) :
    ∃ (s s' : Sequence ℝ) (u : Mat4 ℝ), d.twoGatePulse layers target = .ok s ∧ d.generic 2 layers target = .ok s' ∧
      s.unitary = .ok u ∧ ((∃ u', s'.unitary = .ok u') ↔ d.params = []) ∧
        ∀ u', s'.unitary = .ok u' → ∀ i j, (u i j - u' i j).abs ≤ 2e-11 := by
  obtain ⟨a, b, c, rfl⟩ := List.length_eq_three.mp three
  have first := units a (by simp)
  have second := units b (by simp)
  have third := units c (by simp)
  obtain ⟨s, applied, near⟩ := twoGatePulse_within rooted target a b c
  obtain ⟨s', joined, -, entangled⟩ := d.exists_interleave [a, b, c] (.empty (d.startPhase 2 target))
  have placed := entangled (by simp)
  rw [pulse_eq_generic target first second third] at near
  obtain ⟨u, computed, close⟩ := near.unitary
  -- where the gate has its matrix, both circuits are near one product
  have agrees (bare : d.params = []) : ∃ u', s'.unitary = .ok u' ∧ ∀ i j, (u i j - u' i j).abs ≤ 2e-11 := by
    obtain ⟨t, joined', near'⟩ := generic_within standard bare rooted target first second third
    obtain rfl := Except.ok.inj (joined'.symm.trans joined)
    obtain ⟨u', computed', close'⟩ := near'.unitary
    refine ⟨u', computed', fun i j => ?_⟩
    have entry := (close.trans close'.symm).entry i j
    rw [Cx.abs_eq, Cx.toComplex_sub]
    exact entry.trans (by norm_num)
  refine ⟨s, s', u, applied, joined, computed, ⟨?_, ?_⟩, ?_⟩
  · rintro ⟨u', computed'⟩
    exact bare_of_unitary standard placed computed'
  · intro bare
    obtain ⟨u', computed', -⟩ := agrees bare
    exact ⟨u', computed'⟩
  · intro u' computed'
    obtain ⟨v, evaluated, close⟩ := agrees (bare_of_unitary standard placed computed')
    obtain rfl := Except.ok.inj (evaluated.symm.trans computed')
    exact close

/-- The decomposer over the controlled-not, with emission over the square root of `X`. -/
def overControlledNot : Decomposer ℝ :=
  { overInteraction with gate := .standard .cx, params := [], options := Options.default.withEuler .zsx }

theorem twoGatePulse_agrees_overControlledNot :
    ∃ (s s' : Sequence ℝ) (u u' : Mat4 ℝ),
      overControlledNot.twoGatePulse (List.replicate 3 ⟨Gate.sxMatrix, Gate.xMatrix⟩) (factorless 3 2 1) = .ok s ∧
        overControlledNot.generic 2 (List.replicate 3 ⟨Gate.sxMatrix, Gate.xMatrix⟩) (factorless 3 2 1) = .ok s' ∧
          s.unitary = .ok u ∧ s'.unitary = .ok u' ∧ ∀ i j, (u i j - u' i j).abs ≤ 2e-11 := by
  have units : ∀ layer ∈ List.replicate 3 (⟨Gate.sxMatrix, Gate.xMatrix⟩ : Layer ℝ), layer.Unitary := by
    intro layer member
    rw [List.eq_of_mem_replicate member]
    exact ⟨Gate.sxMatrix_unitary, Gate.xMatrix_unitary⟩
  obtain ⟨s, s', u, applied, joined, computed, bare, close⟩ :=
    twoGatePulse_agrees (d := overControlledNot) rfl (.inl rfl) (factorless 3 2 1) rfl units
  obtain ⟨u', computed'⟩ := bare.mpr rfl
  exact ⟨s, s', u, u', applied, joined, computed, computed', close u' computed'⟩

end Decomposer

end Entangle.Synthesis

end
