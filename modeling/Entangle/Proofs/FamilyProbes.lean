import Mathlib
import Entangle.Family.Decomposer
import Entangle.Proofs.GateCount
import Entangle.Proofs.SingleAxis

/-!
# The probes of a gate family

A family is accepted where its canonical form at three angles is that of an interaction with one scale. The
scale divides by the first angle of the form, and both comparisons of the probes hold for a family that is
without interaction at all three angles. A family that is accepted turns at every probe or at none of them;
every other family is refused as not equivalent, or fails to be evaluated.
-/

noncomputable section

namespace Entangle.Family

open Gate (Operation)
open Weyl (Decomposition Form axial single)

/-! ## What is accepted -/

section Accepted

variable {α : Type} [Scalar α] {gate : Operation α} {o : Options} {d : Decomposer α}

omit [Scalar α] in
theorem hasSignature_eq_true (signed : hasSignature gate = .ok true) : gate.qubits = .ok 2 ∧ gate.angles = .ok 1 := by
  obtain ⟨qubits, known, rest⟩ := bind_eq_ok.mp signed
  split at rest
  · cases rest
  · rename_i two
    obtain ⟨angles, counted, one⟩ := bind_eq_ok.mp rest
    exact ⟨known.trans (congrArg Except.ok (not_not.mp two)),
      counted.trans (congrArg Except.ok (of_decide_eq_true (Except.ok.inj one)))⟩

/-- What an accepted family has shown, and what is kept of it. -/
structure Decomposer.Built (gate : Operation α) (o : Options) (d : Decomposer α) : Prop where
  qubits : gate.qubits = .ok 2
  angles : gate.angles = .ok 1
  sameGate : d.gate = gate
  sameEuler : d.euler = o.euler
  first : probeScale gate 0.2 = .ok d.scale
  second : ∃ s, probeScale gate 0.3 = .ok s ∧ ¬ scaleAtol < Scalar.abs (s - d.scale)
  third : ∃ s, probeScale gate Scalar.halfPi = .ok s ∧ ¬ scaleAtol < Scalar.abs (s - d.scale)
  frameS : Euler.decompose Gate.sMatrix o.euler .default = .ok d.s
  frameSdg : Euler.decompose Gate.sdgMatrix o.euler .default = .ok d.sdg
  frameH : Euler.decompose Gate.hMatrix o.euler .default = .ok d.h

theorem Decomposer.ofGate_eq_ok (built : ofGate gate o = .ok d) : Built gate o d := by
  obtain ⟨signature, known, rest⟩ := bind_eq_ok.mp (Outcome.step_eq_ok.mp built)
  cases signature with
  | false => cases rest
  | true =>
    obtain ⟨first, one, rest⟩ := bind_eq_ok.mp rest
    obtain ⟨second, two, rest⟩ := bind_eq_ok.mp rest
    obtain ⟨third, three, rest⟩ := bind_eq_ok.mp rest
    dsimp only at rest
    split at rest
    · cases rest
    · rename_i agree
      obtain ⟨s, frameS, rest⟩ := bind_eq_ok.mp rest
      obtain ⟨sdg, frameSdg, rest⟩ := bind_eq_ok.mp rest
      obtain ⟨h, frameH, rest⟩ := bind_eq_ok.mp rest
      obtain rfl := Except.ok.inj rest
      simp only [Bool.or_eq_true, decide_eq_true_eq, not_or] at agree
      obtain ⟨qubits, angles⟩ := hasSignature_eq_true known
      exact ⟨qubits, angles, rfl, rfl, one, ⟨second, two, agree.1⟩, ⟨third, three, agree.2⟩, frameS, frameSdg, frameH⟩

end Accepted

/-! ## Angles and faults -/

/-- The angles at which a family is probed. -/
def probeAngles : List ℝ := [0.2, 0.3, Real.pi / 2]

theorem probeAngles_mem {theta : ℝ} (probe : theta ∈ probeAngles) : 0.2 ≤ theta ∧ theta ≤ Real.pi / 2 := by
  have pi := Real.pi_gt_three
  simp only [probeAngles, List.mem_cons, List.not_mem_nil, or_false] at probe
  rcases probe with rfl | rfl | rfl
  · exact ⟨le_rfl, by norm_num; linarith⟩
  · exact ⟨by norm_num, by norm_num; linarith⟩
  · exact ⟨by norm_num; linarith, le_rfl⟩

/-- The faults that say that a family is not equivalent to the interaction. -/
inductive Inequivalent : Fault ℝ → Prop
  | signature (gate : String) : Inequivalent (.familySignature gate)
  | scales (scales : List ℝ) : Inequivalent (.familyScales scales)
  | probe (angle : ℝ) (fault : Fault ℝ) : Inequivalent (.familyProbe angle fault)
  | mismatch (angle : ℝ) (gate : String) : Inequivalent (.familyMismatch angle gate)

variable {gate : Operation ℝ} {o : Options} {theta s : ℝ} {fault : Fault ℝ}

/-- The faults of evaluating a family. -/
def EvaluationFault (gate : Operation ℝ) (fault : Fault ℝ) : Prop :=
  gate.qubits = .error fault ∨ gate.angles = .error fault ∨ ∃ theta ∈ probeAngles, gate.matrix4 [theta] = .error fault

/-- A family has a canonical form at an angle. -/
def HasForm (gate : Operation ℝ) (theta : ℝ) (f : Form ℝ) : Prop :=
  ∃ u, gate.matrix4 [theta] = .ok u ∧ Weyl.canonicalForm u = .ok f

/-! ## One probe -/

/-- The form of the interaction that a family is compared with. -/
theorem ofUnitary_rxx (probe : theta ∈ probeAngles) :
    ∃ rxx, Decomposition.ofUnitary (Gate.rxxMatrix theta) (Weyl.Options.default.withoutFidelity.withClass .controlled) =
      .ok rxx ∧ rxx.a = theta / 2 := by
  obtain ⟨lower, upper⟩ := probeAngles_mem probe
  have size : |-theta / 2| = theta / 2 := by rw [abs_div, abs_neg, abs_two, abs_of_nonneg (by linarith)]
  obtain ⟨rxx, decomposed, -, -, a, -⟩ := Weyl.ofUnitary_single_of_class (t := -theta / 2) .x (by linarith)
    (o := Weyl.Options.default.withoutFidelity.withClass .controlled) (fun _ _ _ _ => rfl) (by intro _ none; cases none)
  rw [Weyl.rxxMatrix_eq]
  exact ⟨rxx, decomposed, a.trans size⟩

theorem requested_le_one : ∀ fidelity ∈ ((Weyl.Options.default : Weyl.Options ℝ).withClass .controlled).fidelity, fidelity ≤ 1 := by
  intro fidelity requested
  obtain rfl := Option.some.inj requested
  simp only [Exact.decimal_eq]
  norm_num

/-- The controlled class keeps the first angle. -/
theorem ofUnitary_controlled {u : Mat4 ℝ} {fitted : Decomposition ℝ}
    (decomposed : Decomposition.ofUnitary u (Weyl.Options.default.withClass .controlled) = .ok fitted) :
    ∃ f, Weyl.canonicalForm u = .ok f ∧ fitted.a = f.a := by
  obtain ⟨f, canonical, kept⟩ := Weyl.ofUnitary_eq_ok.mp decomposed
  obtain ⟨fit, fits, -, a, -⟩ := Weyl.ofForm_eq_ok kept
  refine ⟨f, canonical, a.trans ?_⟩
  change f.fit .controlled = .ok fit at fits
  rw [Form.fit, Weyl.toControlled, Weyl.ofUnitary_eq, Weyl.ofUnitary_eq] at fits
  obtain rfl := Except.ok.inj fits
  rfl

/-- The scale of a probe, from the first angle of its form. -/
theorem probeScale_eq_ok (probe : theta ∈ probeAngles) (scaled : probeScale gate theta = .ok s) :
    ∃ f, HasForm gate theta f ∧ s = theta / 2 / f.a := by
  obtain ⟨u, stored, rest⟩ := bind_eq_ok.mp scaled
  obtain ⟨exact, -, rest⟩ := bind_eq_ok.mp rest
  obtain ⟨rxx, compared, rest⟩ := bind_eq_ok.mp rest
  obtain ⟨fitted, controlled, rest⟩ := bind_eq_ok.mp rest
  obtain ⟨rxx', compared', first⟩ := ofUnitary_rxx probe
  obtain rfl := Except.ok.inj (compared.symm.trans compared')
  obtain ⟨f, canonical, a⟩ := ofUnitary_controlled (mapError_eq_ok.mp controlled)
  dsimp only at rest
  split at rest
  · cases rest
  · rw [← Except.ok.inj rest, first, a]
    exact ⟨f, ⟨u, stored, canonical⟩, rfl⟩

/-- A probe whose class keeps the first angle has a scale. -/
theorem probeScale_of_forms {u : Mat4 ℝ} {exact fitted : Decomposition ℝ} (probe : theta ∈ probeAngles)
    (stored : gate.matrix4 [theta] = .ok u) (decomposed : Decomposition.ofUnitary u .default = .ok exact)
    (controlled : Decomposition.ofUnitary u (Weyl.Options.default.withClass .controlled) = .ok fitted)
    (same : exact.a = fitted.a) : probeScale gate theta = .ok (theta / 2 / fitted.a) := by
  obtain ⟨lower, -⟩ := probeAngles_mem probe
  have positive : theta ≠ 0 := by
    norm_num at lower
    linarith
  obtain ⟨rxx, compared, a⟩ := ofUnitary_rxx probe
  have agree : ¬ scaleAtol < Scalar.abs (2 * exact.a - theta / (theta / 2 / fitted.a)) := by
    have zero : 2 * exact.a - theta / (theta / 2 / fitted.a) = 0 := by
      rw [same, div_div_eq_mul_div]
      field_simp
      ring
    rw [Exact.abs_eq]
    simp only [zero, abs_zero, not_lt, scaleAtol, Exact.decimal_eq]
    norm_num
  refine bind_eq_ok.mpr ⟨u, stored, bind_eq_ok.mpr ⟨exact, mapError_eq_ok.mpr decomposed, ?_⟩⟩
  refine bind_eq_ok.mpr ⟨rxx, compared, bind_eq_ok.mpr ⟨fitted, mapError_eq_ok.mpr controlled, ?_⟩⟩
  dsimp only
  rw [a]
  exact if_neg agree

/-- The first angle is at most an eighth of a turn, so that a scale is zero or not small. -/
theorem scale_eq_zero_or {f : Form ℝ} (probe : theta ∈ probeAngles) (formed : HasForm gate theta f) :
    f.a = 0 ∧ theta / 2 / f.a = 0 ∨ f.a ≠ 0 ∧ 0.1 ≤ theta / 2 / f.a := by
  obtain ⟨lower, -⟩ := probeAngles_mem probe
  obtain ⟨u, -, canonical⟩ := formed
  obtain ⟨first, second, third⟩ := Weyl.canonicalForm_inChamber canonical
  have nonneg : 0 ≤ f.a := ((abs_nonneg _).trans third).trans second
  rcases nonneg.eq_or_lt with zero | positive
  · exact .inl ⟨zero.symm, by rw [← zero, div_zero]⟩
  · refine .inr ⟨positive.ne', ?_⟩
    rw [le_div_iff₀ positive]
    norm_num at lower ⊢
    linarith [Real.pi_lt_four]

/-- A probe fails where the gate cannot be evaluated, or with a refusal. -/
theorem probeScale_eq_error (probe : theta ∈ probeAngles) (failed : probeScale gate theta = .error fault) :
    Inequivalent fault ∨ gate.matrix4 [theta] = .error fault := by
  rcases bind_eq_error.mp failed with unevaluated | ⟨u, -, rest⟩
  · exact .inr unevaluated
  refine .inl ?_
  rcases bind_eq_error.mp rest with refused | ⟨exact, -, rest⟩
  · obtain ⟨inner, -, rfl⟩ := mapError_eq_error.mp refused
    exact .probe _ _
  obtain ⟨rxx, compared, -⟩ := ofUnitary_rxx probe
  rcases bind_eq_error.mp rest with uncompared | ⟨rxx, -, rest⟩
  · cases compared.symm.trans uncompared
  rcases bind_eq_error.mp rest with refused | ⟨fitted, -, rest⟩
  · obtain ⟨inner, -, rfl⟩ := mapError_eq_error.mp refused
    exact .probe _ _
  dsimp only at rest
  split at rest
  · obtain rfl := Except.error.inj rest
    exact .mismatch _ _
  · cases rest

/-! ## The three probes -/

namespace Decomposer

variable {d : Decomposer ℝ}

/-- Frame changes are always written. -/
theorem exists_frame (m : Mat2 ℝ) : ∃ t, Euler.decompose m o.euler .default = .ok t :=
  ⟨_, if_pos (Square.isFinite_eq m)⟩

/-- Probes with one scale are accepted. -/
theorem exists_ofGate (o : Options) (qubits : gate.qubits = .ok 2) (angles : gate.angles = .ok 1)
    (scaled : ∀ theta ∈ probeAngles, probeScale gate theta = .ok s) :
    ∃ d, ofGate gate o = .ok d ∧ d.scale = s := by
  simp only [probeAngles, List.mem_cons, List.not_mem_nil, or_false, forall_eq_or_imp, forall_eq] at scaled
  obtain ⟨first, second, third⟩ := scaled
  obtain ⟨s', written⟩ := exists_frame (o := o) Gate.sMatrix
  obtain ⟨sdg, written'⟩ := exists_frame (o := o) Gate.sdgMatrix
  obtain ⟨h, written''⟩ := exists_frame (o := o) Gate.hMatrix
  have signed : hasSignature gate = .ok true := by
    rw [hasSignature, qubits, angles]
    rfl
  have agree : ¬ scaleAtol < Scalar.abs (s - s) := by
    rw [Exact.abs_eq, sub_self, abs_zero, not_lt]
    simp only [scaleAtol, Exact.decimal_eq]
    norm_num
  refine ⟨⟨gate, o.euler, s, s', sdg, h⟩, ?_, rfl⟩
  refine Outcome.step_eq_ok.mpr (bind_eq_ok.mpr ⟨true, signed, ?_⟩)
  refine bind_eq_ok.mpr ⟨s, first, bind_eq_ok.mpr ⟨s, second, bind_eq_ok.mpr ⟨s, Exact.halfPi_eq ▸ third, ?_⟩⟩⟩
  simp only [agree, decide_false, Bool.or_self, Bool.false_eq_true, if_false]
  rw [written, written', written'']
  rfl

/-- Why a family is not accepted. -/
theorem ofGate_eq_error (failed : ofGate gate o = .error fault) :
    ∃ inner, fault = .within (.step "New") inner ∧ (Inequivalent inner ∨ EvaluationFault gate inner) := by
  obtain ⟨inner, stopped, rfl⟩ := mapError_eq_error.mp failed
  refine ⟨inner, rfl, ?_⟩
  have probed {theta : ℝ} (probe : theta ∈ probeAngles) (failed : probeScale gate theta = .error inner) :
      Inequivalent inner ∨ EvaluationFault gate inner :=
    (probeScale_eq_error probe failed).imp_right fun unevaluated => .inr (.inr ⟨theta, probe, unevaluated⟩)
  rcases bind_eq_error.mp stopped with unsigned | ⟨signature, -, rest⟩
  · refine .inr ?_
    rcases bind_eq_error.mp unsigned with unknown | ⟨qubits, -, rest⟩
    · exact .inl unknown
    · split at rest
      · cases rest
      · rcases bind_eq_error.mp rest with unknown | ⟨angles, -, rest⟩
        · exact .inr (.inl unknown)
        · cases rest
  cases signature with
  | false =>
    obtain rfl := Except.error.inj rest
    exact .inl (.signature _)
  | true =>
    rcases bind_eq_error.mp rest with failed | ⟨first, -, rest⟩
    · exact probed (by simp [probeAngles]) failed
    rcases bind_eq_error.mp rest with failed | ⟨second, -, rest⟩
    · exact probed (by simp [probeAngles]) failed
    rcases bind_eq_error.mp rest with failed | ⟨third, -, rest⟩
    · rw [Exact.halfPi_eq] at failed
      exact probed (by simp [probeAngles]) failed
    dsimp only at rest
    split at rest
    · obtain rfl := Except.error.inj rest
      exact .inl (.scales _)
    · obtain ⟨s, written⟩ := exists_frame (o := o) Gate.sMatrix
      obtain ⟨sdg, written'⟩ := exists_frame (o := o) Gate.sdgMatrix
      obtain ⟨h, written''⟩ := exists_frame (o := o) Gate.hMatrix
      rw [written, written', written''] at rest
      cases rest

/-- A family that is accepted turns at every probe, with a scale that is not zero, or at none of them. Every other
family is refused as not equivalent to the interaction, or cannot be evaluated. -/
theorem ofGate_probes (gate : Operation ℝ) (o : Options) :
    (∀ d, ofGate gate o = .ok d →
        gate.qubits = .ok 2 ∧ gate.angles = .ok 1 ∧
        ((0 < d.scale ∧ ∀ theta ∈ probeAngles, ∃ f, HasForm gate theta f ∧ f.a ≠ 0 ∧ |theta / 2 / f.a - d.scale| ≤ 1e-12) ∨
          ∀ theta ∈ probeAngles, ∃ f, HasForm gate theta f ∧ f.a = 0)) ∧
      ∀ fault, ofGate gate o = .error fault →
        ∃ inner, fault = .within (.step "New") inner ∧ (Inequivalent inner ∨ EvaluationFault gate inner) := by
  refine ⟨fun d built => ?_, fun fault failed => ofGate_eq_error failed⟩
  have accepted := ofGate_eq_ok built
  refine ⟨accepted.qubits, accepted.angles, ?_⟩
  have scales : ∀ theta ∈ probeAngles, ∃ s, probeScale gate theta = .ok s ∧ |s - d.scale| ≤ 1e-12 := by
    simp only [probeAngles, List.mem_cons, List.not_mem_nil, or_false, forall_eq_or_imp, forall_eq]
    have third := accepted.third
    rw [Exact.halfPi_eq] at third
    refine ⟨⟨d.scale, accepted.first, by rw [sub_self, abs_zero]; norm_num⟩, ?_, ?_⟩
    · exact accepted.second.imp fun s probed => ⟨probed.1, not_lt.mp probed.2⟩
    · exact third.imp fun s probed => ⟨probed.1, not_lt.mp probed.2⟩
  have forms : ∀ theta ∈ probeAngles, ∃ f, HasForm gate theta f ∧ |theta / 2 / f.a - d.scale| ≤ 1e-12 := by
    intro theta probe
    obtain ⟨s, scaled, close⟩ := scales theta probe
    obtain ⟨f, formed, rfl⟩ := probeScale_eq_ok probe scaled
    exact ⟨f, formed, close⟩
  -- the first probe decides: a scale of zero is further from every other scale than the probes may differ
  have start : (0.2 : ℝ) ∈ probeAngles := by simp [probeAngles]
  obtain ⟨f, formed, value⟩ := probeScale_eq_ok start accepted.first
  rcases scale_eq_zero_or start formed with ⟨-, zero⟩ | ⟨-, large⟩
  · refine .inr fun theta probe => ?_
    obtain ⟨f', formed', close⟩ := forms theta probe
    rcases scale_eq_zero_or probe formed' with ⟨still, -⟩ | ⟨-, large⟩
    · exact ⟨f', formed', still⟩
    · rw [value, zero, sub_zero] at close
      have far := (le_abs_self _).trans close
      norm_num at far large
      linarith
  · rw [← value] at large
    refine .inl ⟨lt_of_lt_of_le (by norm_num) large, fun theta probe => ?_⟩
    obtain ⟨f', formed', close⟩ := forms theta probe
    rcases scale_eq_zero_or probe formed' with ⟨-, zero⟩ | ⟨turns, -⟩
    · rw [zero, zero_sub, abs_neg] at close
      have far := (le_abs_self _).trans close
      norm_num at far large
      linarith
    · exact ⟨f', formed', turns, close⟩

/-- A family that turns about one axis by half its angle is accepted with scale one. -/
theorem ofGate_single (k : Weyl.Axis) (o : Options) (qubits : gate.qubits = .ok 2) (angles : gate.angles = .ok 1)
    (stored : ∀ theta, gate.matrix4 [theta] = .ok (single k (-theta / 2))) :
    ∃ d, ofGate gate o = .ok d ∧ d.scale = 1 := by
  apply exists_ofGate o qubits angles
  intro theta probe
  obtain ⟨lower, upper⟩ := probeAngles_mem probe
  norm_num at lower
  have size : |-theta / 2| = theta / 2 := by rw [abs_div, abs_neg, abs_two, abs_of_nonneg (by linarith)]
  obtain ⟨exact, decomposed, -, -, a, -⟩ := Weyl.ofUnitary_single k (t := -theta / 2) (by linarith) (by linarith)
  obtain ⟨fitted, controlled, -, -, a', -⟩ := Weyl.ofUnitary_single_of_class k (t := -theta / 2) (by linarith)
    (o := Weyl.Options.default.withClass .controlled) (fun _ _ _ _ => rfl) requested_le_one
  have scaled := probeScale_of_forms probe (stored theta) decomposed controlled (a.trans a'.symm)
  rwa [a', size, div_self (by linarith)] at scaled

theorem ofGate_probes_rzz :
    ∃ d : Decomposer ℝ, ofGate (.standard .rzz) .default = .ok d ∧ 0 < d.scale ∧
      ∀ theta ∈ probeAngles, ∃ f, HasForm (.standard .rzz) theta f ∧ f.a ≠ 0 := by
  have pi := Real.pi_gt_three
  obtain ⟨d, built, -⟩ := ofGate_single .z .default rfl rfl Weyl.matrix4_rzz
  obtain ⟨-, -, ⟨positive, turns⟩ | still⟩ := (ofGate_probes (.standard .rzz) .default).1 d built
  · refine ⟨d, built, positive, fun theta probe => ?_⟩
    obtain ⟨f, formed, turning, -⟩ := turns theta probe
    exact ⟨f, formed, turning⟩
  · have size : |-(0.2 : ℝ) / 2| = 0.1 := by norm_num [abs_of_neg]
    obtain ⟨f, ⟨u, stored', canonical⟩, zero⟩ := still 0.2 (by simp [probeAngles])
    obtain rfl := Except.ok.inj ((Weyl.matrix4_rzz _).symm.trans stored')
    obtain ⟨f', canonical', -, -, a, -⟩ := Weyl.canonicalForm_single .z (t := -0.2 / 2) (by rw [size]; norm_num; linarith)
    obtain rfl := Except.ok.inj (canonical.symm.trans canonical')
    rw [zero, size] at a
    norm_num at a

theorem axial_zero : axial 0 = Square.identity := by
  apply Square.toMatrix_injective
  have zero : Weyl.angles 0 0 (-0) = 0 := by
    funext k
    cases k <;> simp [Weyl.angles]
  rw [axial, Weyl.toMatrix_interaction, zero, Weyl.coupling_zero, Square.toMatrix_identity]

/-- The family that is the identity at every angle. -/
def still : Operation ℝ := .family ⟨"still", fun _ => Square.identity, none⟩

/-- A family without interaction is accepted. -/
theorem ofGate_probes_still :
    ∃ d, ofGate still .default = .ok d ∧ ∀ theta ∈ probeAngles, ∃ f, HasForm still theta f ∧ f.a = 0 := by
  have stored (theta : ℝ) : still.matrix4 [theta] = .ok Square.identity := Dense.toMat4_ofMat4 _
  have small : |-(0 : ℝ)| ≤ Real.pi / 4 := by
    rw [neg_zero, abs_zero]
    positivity
  obtain ⟨f, canonical, -, -, a, -⟩ := Weyl.canonicalForm_single .z small
  obtain ⟨exact, decomposed, -, -, zero, -⟩ := Weyl.ofUnitary_axial le_rfl (by norm_num)
  obtain ⟨fitted, controlled, -, -, zero', -⟩ := Weyl.ofUnitary_single_of_class .z small
    (o := Weyl.Options.default.withClass .controlled) (fun _ _ _ _ => rfl) requested_le_one
  rw [neg_zero, abs_zero] at a zero'
  rw [← Weyl.axial_eq_single, axial_zero] at canonical controlled
  rw [axial_zero] at decomposed
  have scaled : ∀ theta ∈ probeAngles, probeScale still theta = .ok 0 := by
    intro theta probe
    have scaled := probeScale_of_forms probe (stored theta) decomposed controlled (zero.trans zero'.symm)
    rwa [zero', div_zero] at scaled
  obtain ⟨d, built, -⟩ := exists_ofGate .default rfl rfl scaled
  exact ⟨d, built, fun theta _ => ⟨f, ⟨_, stored theta, canonical⟩, a⟩⟩

end Decomposer

end Entangle.Family

end
