import Mathlib
import Entangle.Proofs.GateCount
import Entangle.Proofs.SingleAxis

/-!
# Targets in the class of the entangling gate

A target with the angles of the entangling gate needs one application of it, between corrections from the
factors of both. The count is chosen by traces that suppose an eighth of a turn for the gate's first angle: it
is at most one for a gate with angles `(π/4, b, 0)` and for one without interaction, and then the circuit is the
target. For every other gate two or three applications are chosen.
-/

noncomputable section

namespace Entangle.Synthesis

open Matrix hiding single
open Complex
open Circuit (Sequence)
open Circuit.Sequence (Within)
open Gate (Operation)
open Weyl (Decomposition traceFidelity axial single eq_zero_of_cos_sq)

/-! ## The chosen count -/

section Count

variable {a b c : ℝ}

/-- Without an application, only a target without interaction is made. -/
theorem traceFidelity_none (b c basisB : ℝ) (nonneg : 0 ≤ a) (first : a ≤ Real.pi / 4) :
    traceFidelity ((traces a b c basisB).get 0) ≤ 1 ∧ (1 ≤ traceFidelity ((traces a b c basisB).get 0) → a = 0) := by
  have pi := Real.pi_pos
  have circle (x : ℝ) : Real.sin x ^ 2 = 1 - Real.cos x ^ 2 := by linarith [Real.sin_sq_add_cos_sq x]
  obtain ⟨none, -⟩ := traceFidelity_traces a b c basisB
  rw [none, mul_pow, mul_pow, mul_pow, mul_pow, circle a, circle b, circle c]
  refine ⟨?_, fun full => ?_⟩
  · have most := Weyl.products_le_one (sq_nonneg (Real.cos a)) (sq_nonneg (Real.cos b)) (sq_nonneg (Real.cos c))
      (Real.cos_sq_le_one a) (Real.cos_sq_le_one b) (Real.cos_sq_le_one c)
    linarith
  · have cosine : 0 < Real.cos a ^ 2 :=
      pow_pos (Real.cos_pos_of_mem_Ioo ⟨by linarith, by linarith⟩) 2
    obtain ⟨unit, -⟩ := Weyl.eq_one_of_products cosine (sq_nonneg (Real.cos b)) (sq_nonneg (Real.cos c))
      (Real.cos_sq_le_one a) (Real.cos_sq_le_one b) (Real.cos_sq_le_one c) (by linarith)
    exact eq_zero_of_cos_sq (abs_lt.mpr ⟨by linarith, by linarith⟩) unit.ge

/-- One application makes a target with its second angle if the first is an eighth of a turn and there is no third. -/
theorem traceFidelity_one (b : ℝ) (nonneg : 0 ≤ a) (first : a ≤ Real.pi / 4) (third : |c| < Real.pi) :
    traceFidelity ((traces a b c b).get 1) ≤ 1 ∧
      (1 ≤ traceFidelity ((traces a b c b).get 1) ↔ a = Real.pi / 4 ∧ c = 0) := by
  have pi := Real.pi_pos
  obtain ⟨-, one, -⟩ := traceFidelity_traces a b c b
  have square : traceFidelity ((traces a b c b).get 1) =
      (4 + 16 * (Real.cos (Real.pi / 4 - a) ^ 2 * Real.cos c ^ 2)) / 20 := by
    rw [one, sub_self, Real.cos_zero, Real.sin_zero]
    ring
  have mostA := Real.cos_sq_le_one (Real.pi / 4 - a)
  have mostC := Real.cos_sq_le_one c
  rw [square]
  refine ⟨?_, fun full => ?_, ?_⟩
  · linarith [mul_le_one₀ mostA (sq_nonneg (Real.cos c)) mostC]
  · have product : 1 ≤ Real.cos (Real.pi / 4 - a) ^ 2 * Real.cos c ^ 2 := by linarith
    have left : 1 ≤ Real.cos (Real.pi / 4 - a) ^ 2 := product.trans (mul_le_of_le_one_right (sq_nonneg _) mostC)
    have right : 1 ≤ Real.cos c ^ 2 := product.trans (mul_le_of_le_one_left (sq_nonneg _) mostA)
    have turn := eq_zero_of_cos_sq (abs_lt.mpr ⟨by linarith, by linarith⟩) left
    exact ⟨by linarith, eq_zero_of_cos_sq third right⟩
  · rintro ⟨rfl, rfl⟩
    rw [sub_self, Real.cos_zero]
    norm_num

/-- Two applications make a target exactly if it has no third angle. -/
theorem traceFidelity_two (a b basisB : ℝ) (third : |c| < Real.pi) :
    traceFidelity ((traces a b c basisB).get 2) ≤ 1 ∧ (1 ≤ traceFidelity ((traces a b c basisB).get 2) ↔ c = 0) := by
  obtain ⟨-, -, two, -⟩ := traceFidelity_traces a b c basisB
  rw [two]
  refine ⟨?_, fun full => ?_, ?_⟩
  · linarith [Real.cos_sq_le_one c]
  · exact eq_zero_of_cos_sq third (by linarith)
  · rintro rfl
    rw [Real.cos_zero]
    norm_num

/-- Without loss, the count for a target with the angles of the entangling gate. -/
theorem bestCount_own (first : a ≤ Real.pi / 4) (second : b ≤ a) (third : |c| ≤ b) :
    bestCount (traces a b c b) 1 =
      if a = 0 then 0 else if a = Real.pi / 4 ∧ c = 0 then 1 else if c = 0 then 2 else 3 := by
  have pi := Real.pi_pos
  have nonneg : 0 ≤ a := ((abs_nonneg c).trans third).trans second
  have small : |c| < Real.pi := by linarith
  obtain ⟨noneLe, noneFull⟩ := traceFidelity_none b c b nonneg first
  obtain ⟨oneLe, oneFull⟩ := traceFidelity_one b nonneg first small
  obtain ⟨twoLe, twoFull⟩ := traceFidelity_two a b b small
  have three : traceFidelity ((traces a b c b).get 3) = 1 := (traceFidelity_traces a b c b).2.2.2
  have all (m : Fin 4) : traceFidelity ((traces a b c b).get m) ≤ 1 := by
    rcases Decomposer.uses_cases m with rfl | rfl | rfl | rfl
    · exact noneLe
    · exact oneLe
    · exact twoLe
    · exact three.le
  have chosen (n : Fin 4) (full : 1 ≤ traceFidelity ((traces a b c b).get n))
      (before : ∀ m < n, ¬ 1 ≤ traceFidelity ((traces a b c b).get m)) : bestCount (traces a b c b) 1 = n :=
    bestCount_lossless (fun m => (all m).trans full) fun m earlier => (not_le.mp (before m earlier)).trans_le full
  split_ifs with still one two
  · obtain rfl : b = 0 := le_antisymm (second.trans_eq still) ((abs_nonneg c).trans third)
    obtain rfl : c = 0 := abs_nonpos_iff.mp third
    rw [still]
    exact bestCount_still
  · refine chosen 1 (oneFull.mpr one) fun m before => ?_
    rcases Decomposer.uses_cases m with rfl | rfl | rfl | rfl
    · exact fun full => still (noneFull full)
    all_goals exact absurd before (by decide)
  · refine chosen 2 (twoFull.mpr two) fun m before => ?_
    rcases Decomposer.uses_cases m with rfl | rfl | rfl | rfl
    · exact fun full => still (noneFull full)
    · exact fun full => one (oneFull.mp full)
    all_goals exact absurd before (by decide)
  · refine chosen 3 three.ge fun m before => ?_
    rcases Decomposer.uses_cases m with rfl | rfl | rfl | rfl
    · exact fun full => still (noneFull full)
    · exact fun full => one (oneFull.mp full)
    · exact fun full => two (twoFull.mp full)
    · exact absurd before (by decide)

end Count

/-! ## The circuit -/

namespace Decomposer

variable {d : Decomposer ℝ} {gate : Operation ℝ} {params : List ℝ} {o : Options ℝ} {g u : Mat4 ℝ}
  {target : Decomposition ℝ}

/-- What a decomposer is built from. -/
theorem ofGate_eq_ok {α : Type} [Scalar α] {gate : Operation α} {params : List α} {o : Options α} {d : Decomposer α}
    (built : ofGate gate params o = .ok d) :
    ∃ g, gate.matrix4 params = .ok g ∧ gate.qubits = .ok 2 ∧ Decomposition.ofUnitary g .default = .ok d.basis ∧
      d = ⟨gate, params, o, d.basis, .ofBasis d.basis, .ofBasis d.basis⟩ := by
  obtain ⟨g, stored, made⟩ := bind_eq_ok.mp built
  obtain ⟨⟨⟩, checked, evaluated⟩ := bind_eq_ok.mp (Outcome.step_eq_ok.mp stored)
  obtain ⟨⟨⟩, -, rest⟩ := bind_eq_ok.mp (Outcome.step_eq_ok.mp made)
  obtain ⟨basis, decomposed, result⟩ := bind_eq_ok.mp rest
  obtain rfl := Except.ok.inj result
  obtain ⟨arity, known, two⟩ := bind_eq_ok.mp checked
  split at two
  · rename_i same
    exact ⟨g, evaluated, known.trans (congrArg Except.ok same), decomposed, rfl⟩
  · cases two

/-- The basis decomposition of a built decomposer is exact where it gives back the unitary of the gate and its angles
are `(π/4, b, 0)`: the fixed factors are computed from it. -/
theorem exactBasis_of_built (built : ofGate gate params o = .ok d) (stored : gate.matrix4 params = .ok g) (unitary : g.Unitary)
    (exact : d.basis.reconstruct = g) (first : d.basis.a = Real.pi / 4) (third : d.basis.c = 0) : d.ExactBasis g := by
  obtain ⟨_, -, made⟩ := bind_eq_ok.mp built
  obtain ⟨two, three⟩ := ofMatrix_factors made
  obtain ⟨g', stored', -, decomposed, parts⟩ := ofGate_eq_ok built
  obtain rfl := Except.ok.inj (stored.symm.trans stored')
  have factored : d.basis.Factored := Weyl.ofUnitary_factored decomposed (by rwa [exact])
  refine ⟨?_, exact, first, third, factored.outerLeft, factored.outerRight, factored.innerLeft, factored.innerRight, two, three⟩
  rw [parts]
  exact stored

/-- The circuit without entangling gates is the target where that has no interaction. -/
theorem generic_still (unitary : g.Unitary) (stored : d.gate.matrix4 d.params = .ok g) (arity : d.gate.qubits = .ok 2)
    (factored : target.Factored) (a : target.a = 0) (b : target.b = 0) (c : target.c = 0) :
    ∃ s, d.generic 0 (d.corrections 0 target) target = .ok s ∧ s.Within 12e-12 target.reconstruct.toMatrix := by
  have units : ∀ layer ∈ d.corrections 0 target, layer.Unitary := by
    rw [corrections, corrections0]
    simp only [List.mem_singleton, forall_eq]
    exact ⟨Mat2.unitary_mul factored.outerRight factored.innerRight, Mat2.unitary_mul factored.outerLeft factored.innerLeft⟩
  obtain ⟨s, joined, near⟩ := interleave_within (Euler.emits d.options.euler) unitary
    (fun index => ⟨g, Sequence.twoQubitMatrix_two arity stored index, rfl⟩) units
    (Within.empty (d.startPhase 0 target))
  refine ⟨s, joined, ?_⟩
  have phase : d.startPhase 0 target = target.phase := by
    simp [startPhase]
  have still : Weyl.angles target.a target.b target.c = 0 := by
    rw [a, b, c]
    exact Weyl.angles_zero
  have value : target.reconstruct.toMatrix =
      (interleaved g (d.corrections 0 target)).toMatrix * exp (target.phase * I) • 1 := by
    rw [corrections, toMatrix_corrections0, Decomposition.reconstruct, Weyl.toMatrix_form, Weyl.dressed, still,
      Weyl.coupling_zero, Matrix.mul_one, Matrix.mul_smul, Matrix.mul_one]
  rw [phase, ← value] at near
  exact near.mono (by norm_num [corrections, corrections0])

/-- The count for a target with the angles of the entangling gate. -/
theorem countFor_own (lossless : d.options.fidelity = 1) (fitted : Decomposition.ofUnitary u .default = .ok target)
    (second : target.b = d.basis.b) :
    d.countFor target .default =
      if target.a = 0 then 0 else if target.a = Real.pi / 4 ∧ target.c = 0 then 1 else if target.c = 0 then 2 else 3 := by
  have fidelity : d.effectiveFidelity .default = 1 := lossless
  obtain ⟨inA, inB, inC⟩ := Weyl.ofUnitary_chamber fitted
  change bestCount (d.tracesFor target) (d.effectiveFidelity .default) = _
  rw [fidelity, tracesFor, ← second]
  exact bestCount_own inA inB inC

/-- Without pulse forms, every target that is decomposed has a circuit, with the count chosen for it. -/
theorem exists_synthesize (off : d.options.pulse = .off) (fitted : Decomposition.ofUnitary u .default = .ok target)
    (r : Request ℝ) :
    ∃ s, d.synthesize u r = .ok s ∧ d.generic (d.countFor target r) (d.corrections (d.countFor target r) target) target = .ok s ∧
      s.Uses d.gate (d.countFor target r) := by
  obtain ⟨s, joined, -⟩ := d.exists_interleave (d.corrections (d.countFor target r) target)
    (.empty (d.startPhase (d.countFor target r) target))
  have realized : d.realize (d.countFor target r) target = .ok s := by
    rw [realize, if_pos off]
    exact joined
  exact ⟨s, synthesize_eq_ok.mpr ⟨target, fitted, realized⟩, joined, uses_realize realized⟩

/-- For a target with the angles of the entangling gate, both decomposed exactly, at most one application is chosen
exactly where the gate has no interaction or angles `(π/4, b, 0)`; the circuit is then the target within the
tolerance of the corrections. -/
theorem synthesize_own_class (built : ofGate gate params o = .ok d) (off : o.pulse = .off) (lossless : o.fidelity = 1)
    (stored : gate.matrix4 params = .ok g) (gateUnitary : g.Unitary) (gateExact : d.basis.reconstruct = g)
    (unitary : u.Unitary) (fitted : Decomposition.ofUnitary u .default = .ok target) (exact : target.reconstruct = u)
    (first : target.a = d.basis.a) (second : target.b = d.basis.b) (third : target.c = d.basis.c) :
    ∃ s n, d.synthesize u .default = .ok s ∧ s.Uses gate n ∧
      (n ≤ 1 ↔ d.basis.a = 0 ∨ d.basis.a = Real.pi / 4 ∧ d.basis.c = 0) ∧
      (n ≤ 1 → ∃ v, s.unitary = .ok v ∧ ∀ i j, ‖(v i j).toComplex - (u i j).toComplex‖ ≤ 12e-12) := by
  obtain ⟨g', stored', arity, -, parts⟩ := ofGate_eq_ok built
  obtain rfl := Except.ok.inj (stored.symm.trans stored')
  have gateIs : d.gate = gate := by rw [parts]
  have paramsAre : d.params = params := by rw [parts]
  have optionsAre : d.options = o := by rw [parts]
  have factored : target.Factored := Weyl.ofUnitary_factored fitted (by rwa [exact])
  obtain ⟨-, inB, inC⟩ := Weyl.ofUnitary_chamber fitted
  have count := countFor_own (by rw [optionsAre, lossless]) fitted second
  obtain ⟨s, synthesized, joined, uses⟩ := exists_synthesize (by rw [optionsAre, off]) fitted .default
  rw [← first, ← third]
  refine ⟨s, _, synthesized, gateIs ▸ uses, ?_, ?_⟩
  · rw [count]
    split_ifs with still one two
    · exact iff_of_true (by decide) (.inl still)
    · exact iff_of_true (by decide) (.inr one)
    · exact iff_of_false (by decide) (not_or.mpr ⟨still, one⟩)
    · exact iff_of_false (by decide) (not_or.mpr ⟨still, one⟩)
  · intro few
    have within : s.Within 12e-12 u.toMatrix := by
      rw [count] at few joined
      split_ifs at few joined with still one two
      · have b : target.b = 0 := le_antisymm (inB.trans_eq still) ((abs_nonneg _).trans inC)
        have c : target.c = 0 := abs_nonpos_iff.mp (inC.trans_eq b)
        obtain ⟨s', joined', near⟩ := generic_still (d := d) gateUnitary (by rw [gateIs, paramsAre, stored])
          (by rw [gateIs, arity]) factored still b c
        obtain rfl := Except.ok.inj (joined.symm.trans joined')
        rwa [exact] at near
      · have basis : d.ExactBasis g :=
          exactBasis_of_built built stored gateUnitary gateExact (first.symm.trans one.1) (third.symm.trans one.2)
        obtain ⟨s', joined', near⟩ := generic_near (by rw [gateIs, arity]) basis factored 1
        obtain rfl := Except.ok.inj (joined.symm.trans joined')
        have reached : (d.circuit g 1 target).toMatrix = u.toMatrix := by
          rw [toMatrix_circuit basis, ← exact, Decomposition.reconstruct, Weyl.toMatrix_form, reached, one.1, one.2, second]
        rwa [reached] at near
      · exact absurd few (by decide)
      · exact absurd few (by decide)
    obtain ⟨v, computed, near⟩ := within.unitary
    exact ⟨v, computed, fun i j => near.entry i j⟩

/-! ## Rotations about one axis -/

/-- A rotation about one axis, up to half a turn, is decomposed exactly. -/
theorem ofGate_rzz (o : Options ℝ) (theta : ℝ) (large : 1 / 500 ≤ |theta|) (small : |theta| ≤ Real.pi / 2) :
    ∃ d, ofGate (.standard .rzz) [theta] o = .ok d ∧ d.options = o ∧ d.gate = .standard .rzz ∧
      d.basis.reconstruct = single .z (-theta / 2) ∧ d.basis.a = |theta| / 2 ∧ d.basis.b = 0 ∧ d.basis.c = 0 := by
  have size : |-theta / 2| = |theta| / 2 := by rw [abs_div, abs_neg, abs_two]
  obtain ⟨basis, decomposed, -, exact, a, b, c⟩ := Weyl.ofUnitary_single .z (t := -theta / 2) (by linarith) (by linarith)
  refine ⟨⟨.standard .rzz, [theta], o, basis, .ofBasis basis, .ofBasis basis⟩, ?_, rfl, rfl, exact, a.trans size, b, c⟩
  refine bind_eq_ok.mpr ⟨_, Outcome.step_eq_ok.mpr (bind_eq_ok.mpr ⟨(), rfl, Weyl.matrix4_rzz theta⟩), ?_⟩
  exact Outcome.step_eq_ok.mpr (bind_eq_ok.mpr ⟨(), rfl, bind_eq_ok.mpr ⟨basis, decomposed, rfl⟩⟩)

/-- One application of the rotation about the third axis by a quarter turn gives the same rotation about the first. -/
theorem synthesize_own_class_quarterTurn :
    ∃ d s n, ofGate (.standard .rzz) [Real.pi / 2] ⟨1, .zsx, .off⟩ = .ok d ∧
      d.synthesize (single .x (Real.pi / 4)) .default = .ok s ∧ s.Uses (.standard .rzz) n ∧ n ≤ 1 ∧
      ∃ v, s.unitary = .ok v ∧ ∀ i j, ‖(v i j).toComplex - (single .x (Real.pi / 4) i j).toComplex‖ ≤ 12e-12 := by
  have pi := Real.pi_gt_three
  have quarter : |Real.pi / 4| = Real.pi / 4 := abs_of_pos (by linarith)
  have half : |Real.pi / 2| = Real.pi / 2 := abs_of_pos (by linarith)
  obtain ⟨d, built, -, -, exact, a, b, c⟩ := ofGate_rzz ⟨1, .zsx, .off⟩ (Real.pi / 2) (by linarith) (by linarith)
  obtain ⟨target, fitted, -, reached, first, second, third⟩ :=
    Weyl.ofUnitary_single .x (t := Real.pi / 4) (by linarith) (by linarith)
  have full : d.basis.a = Real.pi / 4 := by linarith
  obtain ⟨s, n, synthesized, uses, few, near⟩ := synthesize_own_class built rfl rfl (Weyl.matrix4_rzz _)
    (Weyl.single_unitary _ _) exact (Weyl.single_unitary _ _) fitted reached (by linarith) (by linarith) (by linarith)
  have one : n ≤ 1 := few.mpr (.inr ⟨full, c⟩)
  exact ⟨d, s, n, built, synthesized, uses, one, near one⟩

/-- A rotation about the third axis by one radian is its own class, and two applications of it are chosen. -/
theorem synthesize_own_class_twice :
    ∃ d target s, ofGate (.standard .rzz) [1] ⟨1, .u, .off⟩ = .ok d ∧ d.basis.reconstruct = single .z (-1 / 2) ∧
      Decomposition.ofUnitary (single .z (-1 / 2)) .default = .ok target ∧ target.reconstruct = single .z (-1 / 2) ∧
      target.a = d.basis.a ∧ target.b = d.basis.b ∧ target.c = d.basis.c ∧
      d.synthesize (single .z (-1 / 2)) .default = .ok s ∧ s.Uses (.standard .rzz) 2 := by
  have pi := Real.pi_gt_three
  have half : |(-1 / 2 : ℝ)| = 1 / 2 := by rw [abs_of_neg] <;> norm_num
  have whole : |(1 : ℝ)| = 1 := abs_one
  obtain ⟨d, built, options, gate, exact, a, b, c⟩ := ofGate_rzz ⟨1, .u, .off⟩ 1 (by linarith) (by linarith)
  obtain ⟨target, fitted, -, reached, first, second, third⟩ :=
    Weyl.ofUnitary_single .z (t := -1 / 2) (by linarith) (by linarith)
  obtain ⟨s, synthesized, -, uses⟩ := exists_synthesize (by rw [options]) fitted .default
  have two : d.countFor target .default = 2 := by
    rw [countFor_own (by rw [options]) fitted (second.trans b.symm), first, third, half, if_neg (by norm_num),
      if_neg (fun full => by linarith [full.1]), if_pos rfl]
  rw [two, gate] at uses
  exact ⟨d, target, s, built, exact, fitted, reached, by linarith, by linarith, by linarith, synthesized, uses⟩

end Decomposer

end Entangle.Synthesis

end
