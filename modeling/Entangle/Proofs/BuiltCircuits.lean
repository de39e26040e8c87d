import Mathlib
import Entangle.Proofs.PulseModes
import Entangle.Proofs.ReachedClasses

/-!
# Circuits as they are built

The count of entangling gates is chosen by the products that the corrections are meant to make. A built circuit is a pulse
form or the plain circuit, and denotes such a product within a tolerance, since rotations by tiny angles are left out. So
the count that is best for the products is best for the circuits up to that tolerance, and not exactly.
-/

noncomputable section

namespace Entangle.Synthesis

open Matrix Complex
open Circuit (Sequence Instruction)
open Weyl (Alternates Decomposition UpToLocal angles coupling)

/-! ## Fidelities of near unitaries -/

theorem norm_trace_le {m : TwoQubit} {r : ℝ} (each : ∀ k, ‖m k k‖ ≤ r) : ‖m.trace‖ ≤ 4 * r := by
  calc
    ‖m.trace‖ ≤ ∑ k, ‖m k k‖ := norm_sum_le _ _
    _ ≤ ∑ _ : Fin 4, r := Finset.sum_le_sum fun k _ => each k
    _ = 4 * r := by simp

/-- Near unitaries have near fidelities with every unitary. -/
theorem abs_averageFidelity_sub_le {v w u : Mat4 ℝ} {ε : ℝ} (near : Near ε v.toMatrix w.toMatrix) (unitary : u.Unitary) :
    |averageFidelity v u - averageFidelity w u| ≤ 2 * ε := by
  have product := near.adjoint.mul (.refl unitary)
  rw [add_zero] at product
  have apart : ‖(v.toMatrixᴴ * u.toMatrix).trace - (w.toMatrixᴴ * u.toMatrix).trace‖ ≤ 4 * ε := by
    rw [← Matrix.trace_sub]
    exact norm_trace_le fun k => product.entry k k
  have first := norm_trace_le fun k => entry_norm_bound_of_unitary product.left k k
  have second := norm_trace_le fun k => entry_norm_bound_of_unitary product.right k k
  have difference := (abs_norm_sub_norm_le _ _).trans apart
  unfold averageFidelity
  set x := ‖(v.toMatrixᴴ * u.toMatrix).trace‖
  set y := ‖(w.toMatrixᴴ * u.toMatrix).trace‖
  have split : (4 + x ^ 2) / 20 - (4 + y ^ 2) / 20 = (x - y) * (x + y) / 20 := by ring
  have sum : |x + y| ≤ 8 := by
    rw [abs_of_nonneg (by positivity)]
    linarith
  rw [split, abs_div, abs_mul, abs_of_pos (by norm_num : (0 : ℝ) < 20), div_le_iff₀ (by norm_num)]
  nlinarith [abs_nonneg (x - y), abs_nonneg (x + y)]

namespace Decomposer

variable {d : Decomposer ℝ} {g v : Mat4 ℝ} {target : Decomposition ℝ} {s : Sequence ℝ} {n : Fin 4}

/-- The circuit for a count of entangling gates is written, and has a given unitary. -/
def Builds (d : Decomposer ℝ) (n : Fin 4) (target : Decomposition ℝ) (v : Mat4 ℝ) : Prop :=
  ∃ s, d.realize n target = .ok s ∧ s.unitary = .ok v

/-- How far a built circuit may be from the product that is meant: the pulse form with three controlled-nots rounds its
angles more widely than the corrections. -/
def slack (d : Decomposer ℝ) (n : Fin 4) : ℝ := if n = 3 ∧ d.options.pulse ≠ .off then 5e-10 else 12e-12

theorem le_slack (d : Decomposer ℝ) (n : Fin 4) : 12e-12 ≤ d.slack n := by
  unfold slack
  split <;> norm_num

/-! ## Pulse forms -/

theorem ExactBasis.inMode (basis : d.ExactBasis g) (m : PulseMode) : (d.inMode m).ExactBasis g :=
  ⟨basis.stored, basis.exact, basis.first, basis.third, basis.outerLeft, basis.outerRight, basis.innerLeft, basis.innerRight,
    basis.two, basis.three⟩

/-- The controlled-not has one matrix, and takes no angles. -/
theorem ExactBasis.controlledNot (basis : d.ExactBasis g) (gate : d.gate = .standard .cx) :
    d.params = [] ∧ g = Gate.cxMatrix := by
  have stored := basis.stored
  rw [gate] at stored
  cases given : d.params with
  | nil =>
    rw [given, Gate.Operation.matrix4_standard rfl] at stored
    exact ⟨rfl, (Except.ok.inj stored).symm⟩
  | cons t rest =>
    rw [given] at stored
    cases stored

theorem exists_twoGatePulse (root : d.HasRoot) (gate : d.gate = .standard .cx) (basis : d.ExactBasis g)
    (factored : target.Factored) :
    ∃ s, d.twoGatePulse (d.corrections 2 target) target = .ok s ∧ s.Within 12e-12 (d.circuit g 2 target).toMatrix := by
  obtain ⟨-, rfl⟩ := basis.controlledNot gate
  obtain ⟨a, b, c, layers⟩ : ∃ a b c, d.corrections 2 target = [a, b, c] := ⟨_, _, _, rfl⟩
  have units := corrections_unitary basis factored 2
  rw [layers] at units
  rw [circuit, layers]
  obtain ⟨s, applied, near⟩ := twoGatePulse_within (hasRoot_iff.mp root) target a b c
  rw [pulse_eq_generic target (units a (by simp)) (units b (by simp)) (units c (by simp))] at near
  refine ⟨s, applied, ?_⟩
  rw [Square.toMatrix_scale, Cx.toComplex_cis]
  simp only [interleaved, Mat4.toMatrix_mul]
  exact near.mono (by norm_num)

/-- What a demanded or an allowed pulse form with three controlled-nots is near. -/
theorem threeGatePulse_near (root : d.HasRoot) (gate : d.gate = .standard .cx) (basis : d.ExactBasis g)
    (factored : target.Factored) (on : d.options.pulse ≠ .off) (formed : d.pulseForm 3 (d.corrections 3 target) target = .ok s) :
    s.Within 5e-10 (d.circuit g 3 target).toMatrix := by
  obtain ⟨-, rfl⟩ := basis.controlledNot gate
  have allowed : (d.inMode .auto).pulseForm 3 (d.corrections 3 target) target = .ok s := by
    have own : d.inMode d.options.pulse = d := rfl
    cases mode : d.options.pulse with
    | auto => rwa [← own, mode] at formed
    | required =>
      rw [← own, mode] at formed
      exact pulseForm_allowed formed
    | off => exact absurd mode on
  obtain ⟨s', applied, near⟩ := exists_threeGatePulse (d.pulse_inMode .auto) (hasRoot_iff.mp root) (basis.inMode .auto) factored
  obtain rfl := Except.ok.inj (allowed.symm.trans applied)
  rwa [circuit_eq_of_reached basis rfl]

/-! ## Built circuits -/

/-- Every circuit that is built denotes the product that is meant, within the tolerance of its form. -/
theorem realize_within (arity : d.gate.qubits = .ok 2) (basis : d.ExactBasis g) (factored : target.Factored)
    (realized : d.realize n target = .ok s) : s.Within (d.slack n) (d.circuit g n target).toMatrix := by
  rcases realize_eq_ok realized with ⟨on, applied⟩ | ⟨-, joined⟩
  · obtain ⟨rfl | rfl, root, gate, formed⟩ := pulse_eq_ok.mp applied
    · obtain ⟨s', applied', near⟩ := exists_twoGatePulse root gate basis factored
      obtain rfl := Except.ok.inj (applied'.symm.trans formed)
      exact near.mono (d.le_slack 2)
    · rw [slack, if_pos ⟨rfl, on⟩]
      exact threeGatePulse_near root gate basis factored on formed
  · obtain ⟨s', joined', near⟩ := generic_near arity basis factored n
    obtain rfl := Except.ok.inj (joined'.symm.trans joined)
    exact near.mono (d.le_slack n)

theorem Builds.near (arity : d.gate.qubits = .ok 2) (basis : d.ExactBasis g) (factored : target.Factored)
    (built : d.Builds n target v) : Near (d.slack n) v.toMatrix (d.circuit g n target).toMatrix := by
  obtain ⟨s, realized, computed⟩ := built
  obtain ⟨v', computed', near⟩ := (realize_within arity basis factored realized).unitary
  obtain rfl := Except.ok.inj (computed.symm.trans computed')
  exact near

/-- With none or one gate, and where no pulse form is demanded, a circuit is built. -/
theorem exists_builds (arity : d.gate.qubits = .ok 2) (basis : d.ExactBasis g) (factored : target.Factored)
    (free : (n = 0 ∨ n = 1) ∨ d.options.pulse ≠ .required) : ∃ v, d.Builds n target v := by
  obtain ⟨s, joined, -⟩ := generic_near arity basis factored n
  have plain (none : d.pulse n (d.corrections n target) target = .error none) : ∃ s, d.realize n target = .ok s :=
    ⟨s, (realize_of_none none).trans joined⟩
  suffices written : ∃ s, d.realize n target = .ok s by
    obtain ⟨s, realized⟩ := written
    obtain ⟨v, computed, -⟩ := (realize_within arity basis factored realized).unitary
    exact ⟨v, s, realized, computed⟩
  by_cases off : d.options.pulse = .off
  · exact ⟨s, by rw [realize, if_pos off, joined]⟩
  rcases d.pulse_cases n (d.corrections n target) target with
    ⟨-, none⟩ | ⟨several, -, place, refused⟩ | ⟨several, root, gate, -, same⟩
  · exact plain none
  · refine plain (refused.trans ?_)
    rw [refusal, if_neg (free.resolve_left (by omega))]
  · have formed : ∃ t, d.pulseForm n (d.corrections n target) target = .ok t := by
      rcases several with rfl | rfl
      · obtain ⟨t, applied, -⟩ := exists_twoGatePulse root gate basis factored
        exact ⟨t, applied⟩
      · obtain ⟨-, rfl⟩ := basis.controlledNot gate
        have auto : d.options.pulse = .auto := by
          have free := free.resolve_left (by decide)
          cases mode : d.options.pulse with
          | auto => rfl
          | required => exact absurd mode free
          | off => exact absurd mode off
        obtain ⟨t, applied, -⟩ := exists_threeGatePulse auto (hasRoot_iff.mp root) basis factored
        exact ⟨t, applied⟩
    obtain ⟨t, formed⟩ := formed
    refine ⟨t, ?_⟩
    rw [realize, if_neg off, same, formed]

/-! ## Exact classes -/

/-- A plain circuit, and the pulse form for two gates, is one-qubit operations with the interaction of the gate between
them, exactly. -/
theorem Builds.alternates (arity : d.gate.qubits = .ok 2) (basis : d.ExactBasis g) (few : n ≠ 3) (built : d.Builds n target v) :
    ∃ (t : ℝ) (x : TwoQubit), Alternates (coupling (angles (Real.pi / 4) d.basis.b 0)) n x ∧ v.toMatrix = exp (t * I) • x := by
  obtain ⟨s, realized, computed⟩ := built
  have woven := (over_realize (fun gate => (basis.controlledNot gate).1) realized).2 fun reverses => few reverses.1
  obtain ⟨x, alternates, value⟩ := Sequence.alternates_unitary
    (fun index => ⟨g, Sequence.twoQubitMatrix_two arity basis.stored index, rfl⟩) rfl woven computed
  have own : g.toMatrix = exp (d.basis.phase * I) • (tensor d.basis.k1l.toMatrix d.basis.k1r.toMatrix *
      coupling (angles (Real.pi / 4) d.basis.b 0) * tensor d.basis.k2l.toMatrix d.basis.k2r.toMatrix) := by
    rw [← basis.exact, Decomposition.reconstruct, Weyl.toMatrix_form, Weyl.dressed, basis.first, basis.third]
  rw [(uses_realize realized).count, own] at alternates
  obtain ⟨t, y, alternates', rfl⟩ :=
    alternates.of_dressed basis.outerLeft basis.outerRight basis.innerLeft basis.innerRight
  refine ⟨s.phase + t, y, alternates', ?_⟩
  rw [value, smul_smul, Complex.ofReal_add, add_mul, Complex.exp_add]

/-- A circuit that is built can be the target only where the product that is meant is. Two uses of a gate with a second
angle are left out: what the corrections leave out of the middle layer may give them a third angle. -/
theorem Builds.circuit_eq (arity : d.gate.qubits = .ok 2) (basis : d.ExactBasis g)
    (second : 0 ≤ d.basis.b ∧ d.basis.b ≤ Real.pi / 4) (factored : target.Factored) (chamber : target.InChamber)
    (flat : n = 2 → d.basis.b = 0) (built : d.Builds n target target.reconstruct) :
    d.circuit g n target = target.reconstruct := by
  refine circuit_eq_of_reached basis ?_
  by_cases last : n = 3
  · rw [last, reached]
  obtain ⟨t, x, alternates, value⟩ := built.alternates arity basis last
  -- the class of the circuit is that of the interaction of the target
  have related {w : TwoQubit} (own : UpToLocal w x) : UpToLocal w (coupling (angles target.a target.b target.c)) := by
    have whole := own.exp_smul t
    rw [← value] at whole
    exact whole.trans factored.upToLocal.symm
  rcases uses_cases n with rfl | rfl | rfl | rfl
  · exact (chamber.ordered.eq_zero chamber.first (related alternates.upToLocal_none)).symm
  · exact (chamber.ordered.eq_angles chamber.first second.1 second.2 (related alternates.upToLocal_one)).symm
  · rw [flat rfl] at alternates
    obtain ⟨a, b, left, right, own⟩ := alternates.upToLocal_two
    have third := chamber.ordered.third_eq_zero_of_two_uses chamber.first left right (related own)
    rw [reached, show target.c = 0 from third]
  · exact absurd rfl last

/-! ## A rotation that is left out -/

/-- A tiny rotation about the third axis has no other angle. -/
theorem zyz_rz {t : ℝ} (small : |t| < 1) : Euler.Angles.zyz (Gate.rzMatrix t) = ⟨0, t / 2, t / 2, 0⟩ := by
  have det : (Gate.rzMatrix t : Mat2 ℝ).det.arg = 0 := by
    rw [Cx.arg_eq, Mat2.toComplex_det, Gate.toMatrix_rzMatrix, Weyl.Axis.rotation_z_eq, Matrix.det_fin_two_of, zero_mul, sub_zero,
      ← Complex.exp_add, neg_add_cancel, Complex.exp_zero, Complex.arg_one]
  have entry (i j : Fin 2) : ((Gate.rzMatrix t : Mat2 ℝ) i j).toComplex = Weyl.Axis.z.rotation t i j := by
    rw [← Gate.toMatrix_rzMatrix, Square.toMatrix_apply]
  have down : ((Gate.rzMatrix t : Mat2 ℝ) 1 1).arg = t / 2 := by
    have half : (t / 2 : ℂ) * I = (t / 2 : ℝ) * I := by push_cast; rfl
    obtain ⟨low, high⟩ := abs_lt.mp small
    rw [Cx.arg_eq, entry, Weyl.Axis.rotation_z_eq]
    simp only [Matrix.of_apply, Matrix.cons_val', Matrix.cons_val_one, Matrix.cons_val_fin_one]
    rw [half, Complex.arg_exp_mul_I, toIocMod_eq_self]
    constructor <;> linarith [Real.pi_gt_three]
  have across : (Gate.rzMatrix t : Mat2 ℝ) 1 0 = 0 := rfl
  simp [Euler.Angles.zyz, det, down, across, Exact.atan2_eq, Cx.abs_eq, Cx.arg_eq]
  exact Complex.arg_ofReal_of_nonneg (norm_nonneg _)

/-- A rotation about the third axis below the tolerance is written without a gate. -/
theorem appendOneQubit_tiny {d : Decomposer ℝ} (rooted : d.options.euler = .zsx) {t : ℝ} (tiny : |t| < 1e-12) (s : Sequence ℝ)
    (q : ℤ) : ∃ s', d.appendOneQubit s (Gate.rzMatrix t) q = .ok s' ∧ s'.instructions = s.instructions := by
  set o : Euler.Options ℝ := { Euler.Options.default with qubit := q } with options
  have wrapped : Scalar.wrapAngle t = (t, (0 : ℝ)) :=
    Exact.wrapAngle_of_abs_lt (tiny.trans (by norm_num; linarith [Real.pi_gt_three]))
  have dropped : o.drops t = true := Euler.Options.drops_iff.mpr ⟨rfl, tiny⟩
  have flat : o.drops (0 : ℝ) = true := by
    refine Euler.Options.drops_iff.mpr ⟨rfl, ?_⟩
    rw [abs_zero]
    exact (abs_nonneg t).trans_lt tiny
  have angles := zyz_rz (t := t) (tiny.trans (by norm_num))
  refine ⟨s.extend (Euler.emission o (Gate.rzMatrix t) .zsx), ?_, ?_⟩
  · rw [appendOneQubit, rooted, Euler.decompose, if_pos (Square.isFinite_eq _)]
    rfl
  · have empty : (Euler.emission o (Gate.rzMatrix t) .zsx).instructions = [] := by
      rw [Euler.emission, Euler.rootSequence, angles]
      dsimp only
      rw [if_pos flat, add_halves, Euler.RootX.turnZ, wrapped]
      dsimp only
      rw [if_pos dropped]
      rfl
    rw [Sequence.extend, empty]
    exact List.append_nil _

/-- The identity after a rotation about the third axis that is below the tolerance of the corrections. -/
def slightlyTurned : Decomposition ℝ := { factorless 0 0 0 with k1r := Gate.rzMatrix 9e-13 }

theorem slightlyTurned_factored : slightlyTurned.Factored :=
  ⟨Square.identity_unitary, Gate.rzMatrix_unitary _, Square.identity_unitary, Square.identity_unitary⟩

theorem slightlyTurned_inChamber : slightlyTurned.InChamber :=
  ⟨div_nonneg Real.pi_pos.le (by norm_num), le_rfl, abs_zero.le⟩

/-- It is no multiple of the identity. -/
theorem slightlyTurned_ne (z : ℂ) : slightlyTurned.reconstruct.toMatrix ≠ z • 1 := by
  intro same
  have value : slightlyTurned.reconstruct.toMatrix = tensor 1 (Weyl.Axis.z.rotation 9e-13) := by
    have still : angles (0 : ℝ) 0 0 = 0 := Weyl.angles_zero
    rw [Decomposition.reconstruct, Weyl.toMatrix_form, Weyl.dressed]
    simp [slightlyTurned, factorless, still, Weyl.coupling_zero]
  rw [value] at same
  have corner := congrFun (congrFun same 0) 0
  have next := congrFun (congrFun same 1) 1
  simp [Weyl.Axis.rotation_z_eq] at corner next
  have half : (9e-13 / 2 : ℂ) * I = (45e-14 : ℝ) * I := by
    push_cast
    norm_num
  have imaginary := congrArg Complex.im (corner.trans next.symm)
  rw [half, ← neg_mul, ← Complex.ofReal_neg, Complex.exp_ofReal_mul_I_im, Complex.exp_ofReal_mul_I_im, Real.sin_neg] at imaginary
  have positive := Real.sin_pos_of_pos_of_lt_pi (by norm_num : (0 : ℝ) < 45e-14) (by norm_num; linarith [Real.pi_gt_three])
  linarith

/-! ## The choice of the count -/

/-- What a unitary is worth as a circuit with a count of gates: its fidelity with the target, lowered for each gate. -/
def worth (d : Decomposer ℝ) (target : Decomposition ℝ) (r : Request ℝ) (n : Fin 4) (v : Mat4 ℝ) : ℝ :=
  averageFidelity v target.reconstruct * d.effectiveFidelity r ^ (n : ℕ)

/-- Near unitaries are worth nearly the same. -/
theorem abs_worth_sub_le {w : Mat4 ℝ} {ε : ℝ} {r : Request ℝ}
    (probability : 0 ≤ d.effectiveFidelity r ∧ d.effectiveFidelity r ≤ 1) (factored : target.Factored)
    (near : Near ε v.toMatrix w.toMatrix) (n : Fin 4) :
    |d.worth target r n v - d.worth target r n w| ≤ 2 * ε := by
  have fidelities := abs_averageFidelity_sub_le near factored.reconstruct_unitary
  have nonneg := pow_nonneg probability.1 (n : ℕ)
  rw [worth, worth, ← sub_mul, abs_mul, abs_of_nonneg nonneg]
  exact (mul_le_of_le_one_right (abs_nonneg _) (pow_le_one₀ probability.1 probability.2)).trans fidelities

/-- The count of a synthesis is the smallest one whose intended product is worth most. Every circuit that is built is near
its product, so that none is worth more than the one of the chosen count by more than the tolerances of both. Without loss,
the product of the chosen count is the target and its circuit is near it, and no product of a smaller count is; neither is a
circuit of a smaller count the target, unless it has two gates with a second angle. -/
theorem countFor_built (arity : d.gate.qubits = .ok 2) (basis : d.ExactBasis g)
    (second : 0 ≤ d.basis.b ∧ d.basis.b ≤ Real.pi / 4) (factored : target.Factored) (chamber : target.InChamber)
    {r : Request ℝ} (free : r.uses = none) (probability : 0 ≤ d.effectiveFidelity r ∧ d.effectiveFidelity r ≤ 1) :
    (∀ u s, Decomposition.ofUnitary u .default = .ok target →
      (d.synthesize u r = .ok s ↔ d.realize (d.countFor target r) target = .ok s)) ∧
    (∀ m, (m = 0 ∨ m = 1) ∨ d.options.pulse ≠ .required → ∃ v, d.Builds m target v) ∧
    (∀ m v, d.Builds m target v → Near (d.slack m) v.toMatrix (d.circuit g m target).toMatrix) ∧
    (∀ m v w, d.Builds m target v → d.Builds (d.countFor target r) target w →
      d.worth target r m v ≤ d.worth target r (d.countFor target r) w + 2 * (d.slack m + d.slack (d.countFor target r))) ∧
    (∀ m, d.worth target r m (d.circuit g m target) ≤
      d.worth target r (d.countFor target r) (d.circuit g (d.countFor target r) target)) ∧
    (∀ m < d.countFor target r, d.worth target r m (d.circuit g m target) <
      d.worth target r (d.countFor target r) (d.circuit g (d.countFor target r) target)) ∧
    (d.effectiveFidelity r = 1 → d.circuit g (d.countFor target r) target = target.reconstruct ∧
      (∀ w, d.Builds (d.countFor target r) target w →
        Near (d.slack (d.countFor target r)) w.toMatrix target.reconstruct.toMatrix) ∧
      ∀ m < d.countFor target r, d.circuit g m target ≠ target.reconstruct ∧
        ((m = 2 → d.basis.b = 0) → ¬ d.Builds m target target.reconstruct)) := by
  obtain ⟨most, first⟩ := countFor_leads basis factored free probability.1
  refine ⟨fun u s fitted => ?_, fun m free => exists_builds arity basis factored free,
    fun m v built => built.near arity basis factored, fun m v w built chosen => ?_, most, first, fun lossless => ?_⟩
  · refine synthesize_eq_ok.trans ⟨?_, fun realized => ⟨target, fitted, realized⟩⟩
    rintro ⟨target', fitted', realized⟩
    obtain rfl := Except.ok.inj (fitted.symm.trans fitted')
    exact realized
  · have below := (abs_le.mp (abs_worth_sub_le probability factored (built.near arity basis factored) m)).2
    have above := (abs_le.mp (abs_worth_sub_le probability factored (chosen.near arity basis factored) (d.countFor target r))).1
    have best : d.worth target r m (d.circuit g m target) ≤
        d.worth target r (d.countFor target r) (d.circuit g (d.countFor target r) target) := most m
    linarith
  · have exact := circuit_countFor basis second factored chamber free lossless
    refine ⟨exact, fun w chosen => exact ▸ chosen.near arity basis factored, fun m before => ?_⟩
    have other : d.circuit g m target ≠ target.reconstruct := by
      intro same
      have below := first m before
      rw [same, exact, lossless, one_pow, one_pow] at below
      exact lt_irrefl _ below
    exact ⟨other, fun flat built => other (built.circuit_eq arity basis second factored chamber flat)⟩

/-- Two uses of the controlled-not for an interaction about one axis: the circuit is a pulse form, no circuit is better by more
than the tolerances, and none with fewer gates is the interaction. -/
theorem countFor_built_controlledNot :
    (exactControlledNot .auto).countFor (factorless (Real.pi / 8) 0 0) .default = 2 ∧
    ∃ w, (exactControlledNot .auto).Builds 2 (factorless (Real.pi / 8) 0 0) w ∧
      Near 12e-12 w.toMatrix (factorless (Real.pi / 8) 0 0).reconstruct.toMatrix ∧
      (∀ m v, (exactControlledNot .auto).Builds m (factorless (Real.pi / 8) 0 0) v →
        averageFidelity v (factorless (Real.pi / 8) 0 0).reconstruct ≤
          averageFidelity w (factorless (Real.pi / 8) 0 0).reconstruct + 1024e-12) ∧
      ∀ m < (2 : Fin 4), ¬ (exactControlledNot .auto).Builds m (factorless (Real.pi / 8) 0 0)
        (factorless (Real.pi / 8) 0 0).reconstruct := by
  have pi := Real.pi_pos
  have lossless : (exactControlledNot .auto).effectiveFidelity .default = 1 := Exact.one_eq
  have two : (exactControlledNot .auto).countFor (factorless (Real.pi / 8) 0 0) .default = 2 := by
    change bestCount (traces (Real.pi / 8) 0 0 0) ((exactControlledNot .auto).effectiveFidelity .default) = 2
    rw [lossless, bestCount_own (by linarith) (by linarith) abs_zero.le, if_neg (by linarith), if_neg (by linarith [·.1]),
      if_pos rfl]
  have chamber : (factorless (Real.pi / 8) 0 0).InChamber :=
    ⟨by simp only [factorless]; linarith, by simp only [factorless]; linarith, by simp only [factorless, abs_zero]; exact le_rfl⟩
  obtain ⟨-, exist, -, best, -, -, reach⟩ := countFor_built (r := .default) rfl (exactControlledNot_exactBasis .auto)
    (exactControlledNot_second .auto) (factorless_factored (Real.pi / 8) 0 0) chamber rfl (by rw [lossless]; norm_num)
  obtain ⟨-, near, fewer⟩ := reach lossless
  rw [two] at best near fewer
  obtain ⟨w, built⟩ := exist 2 (.inr (by decide))
  have narrow : (exactControlledNot .auto).slack 2 = 12e-12 := if_neg (by decide)
  have wide (m : Fin 4) : (exactControlledNot .auto).slack m ≤ 5e-10 := by
    unfold slack
    split <;> norm_num
  refine ⟨two, w, built, narrow ▸ near w built, fun m v built' => ?_, fun m before => (fewer m before).2 fun _ => rfl⟩
  have bound := best m v w built' built
  rw [worth, worth, lossless, one_pow, one_pow, mul_one, mul_one, narrow] at bound
  linarith [wide m]

/-- A rotation below the tolerance is left out: without loss, no gate is chosen for it, and the circuit is not the
target. -/
theorem countFor_leaves_rotation :
    ∃ (d : Decomposer ℝ) (v : Mat4 ℝ), ofGate (.standard .rzz) [Real.pi / 2] ⟨1, .zsx, .auto⟩ = .ok d ∧
      d.ExactBasis (Weyl.single .z (-(Real.pi / 2) / 2)) ∧ d.basis.b = 0 ∧ slightlyTurned.Factored ∧
      slightlyTurned.InChamber ∧ d.effectiveFidelity .default = 1 ∧ d.countFor slightlyTurned .default = 0 ∧
      d.Builds 0 slightlyTurned v ∧ v ≠ slightlyTurned.reconstruct := by
  have pi := Real.pi_gt_three
  have half : |Real.pi / 2| = Real.pi / 2 := abs_of_pos (by linarith)
  obtain ⟨d, built, options, -, exact, a, b, c⟩ := ofGate_rzz ⟨1, .zsx, .auto⟩ (Real.pi / 2) (by linarith) (by linarith)
  have basis : d.ExactBasis (Weyl.single .z (-(Real.pi / 2) / 2)) :=
    exactBasis_of_built built (Weyl.matrix4_rzz _) (Weyl.single_unitary _ _) exact (by linarith) c
  have rooted : d.options.euler = .zsx := by rw [options]
  have lossless : d.effectiveFidelity .default = 1 := by
    rw [effectiveFidelity, options]
    rfl
  have none : d.countFor slightlyTurned .default = 0 := by
    change bestCount (d.tracesFor slightlyTurned) (d.effectiveFidelity .default) = 0
    rw [lossless, tracesFor, b]
    exact bestCount_still
  have right : slightlyTurned.k1r * slightlyTurned.k2r = Gate.rzMatrix 9e-13 := by
    apply Square.toMatrix_injective
    simp [slightlyTurned, factorless]
  have left : slightlyTurned.k1l * slightlyTurned.k2l = Gate.rzMatrix 0 := by
    apply Square.toMatrix_injective
    simp [slightlyTurned, factorless]
  obtain ⟨s, first, kept⟩ := appendOneQubit_tiny rooted (t := 9e-13) (by norm_num) (.empty (d.startPhase 0 slightlyTurned)) 0
  obtain ⟨s', second, kept'⟩ := appendOneQubit_tiny rooted (t := 0) (by norm_num) s 1
  have realized : d.realize 0 slightlyTurned = .ok s' := by
    rw [realize_of_none (by rw [pulse, if_pos (.inl rfl)]), generic, corrections, corrections0, interleave, appendLayer]
    rw [right, left]
    exact bind_eq_ok.mpr ⟨s, first, second⟩
  obtain ⟨v, computed, value⟩ := Sequence.Denotes.unitary (s := s') ⟨1, by rw [kept', kept]; exact .nil, rfl⟩
  refine ⟨d, v, built, basis, b, slightlyTurned_factored, slightlyTurned_inChamber, lossless, none, ⟨s', realized, computed⟩, ?_⟩
  intro same
  rw [same] at value
  exact slightlyTurned_ne _ value

end Decomposer

end Entangle.Synthesis

end
