import Mathlib
import Entangle.Proofs.FamilyInteraction
import Entangle.Proofs.FitDistance
import Entangle.Proofs.GateCount
import Entangle.Proofs.NearEmission
import Entangle.Proofs.ProductForm

/-!
# Synthesis over a gate family

The circuit of a unitary over a gate family denotes the decomposition that it was made from, phase included. The
outer factors of a decomposition are unitary only up to the tolerance of the diagonalisation; what they lack and
what every correction leaves out stays below one bound. A matrix that is far from unitary can have a decomposition as
well, and a circuit, which is then far from it.
-/

noncomputable section

namespace Entangle.Family.Decomposer

open Matrix hiding single
open Complex
open Circuit (Sequence)
open Circuit.Sequence (Within placed tensor_eq_placed)
open Gate (Operation)
open Weyl (Axis Decomposition angles coupling interaction single)

variable {gate : Operation ℝ} {o : Options} {d : Decomposer ℝ} {s : Sequence ℝ} {u : Mat4 ℝ} {target : Decomposition ℝ}
  {atol angle ε : ℝ} {z : TwoQubit}

/-! ## The angles of a circuit -/

/-- The angles at which the circuit of a target applies the family. -/
inductive Applied (target : Decomposition ℝ) (atol : ℝ) : ℝ → Prop
  | first : Applied target atol (-2 * target.a)
  | second (kept : atol < |target.b|) : Applied target atol (-2 * target.b)
  | third (kept : atol < |target.c|) : Applied target atol (-2 * |target.c|)

/-- The family is never turned forwards, and by no more than a right angle backwards. -/
theorem Applied.mem (fitted : Decomposition.ofUnitary u .default = .ok target) (applied : Applied target atol angle) :
    angle ∈ Set.Icc (-(Real.pi / 2)) 0 := by
  obtain ⟨first, second, third⟩ := Weyl.ofUnitary_chamber fitted
  have size := abs_nonneg target.c
  cases applied with
  | first => constructor <;> linarith
  | second kept => constructor <;> linarith
  | third kept => constructor <;> linarith

/-! ## The circuit -/

theorem exists_appendInteraction (built : Built gate o d) (small : atol ≤ 1e-12)
    (realizes : ∀ angle, Applied target atol angle → d.Realizes angle) (within : s.Within ε z) :
    ∃ t, d.appendInteraction s target atol = .ok t ∧
      t.Within (ε + 30e-12) (coupling (angles target.a target.b target.c) * z) := by
  obtain ⟨xx, turned, within', -⟩ := exists_toInteraction (built.sameGate ▸ built.qubits) (realizes _ .first)
  have half : -(-2 * target.a) / 2 = target.a := by ring
  rw [half] at within'
  obtain ⟨t, second, within''⟩ := exists_appendSecond built small (fun kept => realizes _ (.second kept)) (within.extend within')
  obtain ⟨t', third, whole⟩ := exists_appendThird built small (fun kept => realizes _ (.third kept)) within''
  refine ⟨t', appendInteraction_eq_ok.mpr ⟨xx, t, turned, second, third⟩, ?_⟩
  rw [← Matrix.mul_assoc, ← Matrix.mul_assoc, Matrix.mul_assoc _ _ (Axis.x.couple target.a),
    Weyl.couple_mul_couple_mul_couple] at whole
  exact whole.mono (by norm_num; linarith)

/-- The circuit denotes the decomposition with its factors as they are written. -/
theorem exists_synthesize (built : Built gate o d) (fitted : Decomposition.ofUnitary u .default = .ok target)
    (small : atol ≤ 1e-12) (realizes : ∀ angle, Applied target atol angle → d.Realizes angle) :
    ∃ s, d.synthesize u atol = .ok s ∧
      s.Within 36e-12 (target.written d.euler) := by
  obtain ⟨innerRight, first, within1, -⟩ := d.exists_oneQubit target.k2r (.inl rfl)
  obtain ⟨innerLeft, second, within2, -⟩ := d.exists_oneQubit target.k2l (.inr rfl)
  obtain ⟨outerRight, third, within3, -⟩ := d.exists_oneQubit target.k1r (.inl rfl)
  obtain ⟨outerLeft, fourth, within4, -⟩ := d.exists_oneQubit target.k1l (.inr rfl)
  obtain ⟨t, appended, within⟩ := exists_appendInteraction built small realizes
    (((Within.empty target.phase).extend within1).extend within2)
  refine ⟨_, synthesize_eq_ok.mpr ⟨target, innerRight, innerLeft, t, outerRight, outerLeft, fitted, first, second, appended,
    third, fourth, rfl⟩, ?_⟩
  have whole := (within.extend within3).extend within4
  rw [Decomposition.written, tensor_eq_placed, tensor_eq_placed]
  simp only [Matrix.mul_smul, Matrix.mul_one, Matrix.mul_assoc] at whole ⊢
  exact whole.mono (by norm_num)

/-- The decomposition of a unitary is near the product that its circuit is made from. -/
theorem written_near (unitary : u.Unitary) (fitted : Decomposition.ofUnitary u .default = .ok target) (basis : Euler.Basis)
    (i j : Fin 4) : ‖target.written basis i j - target.reconstruct.toMatrix i j‖ ≤ 15 * 14e-13 := by
  have nearly := Weyl.ofUnitary_nearly unitary fitted
  rw [Decomposition.written, basis.product_eq nearly.innerLeft, basis.product_eq nearly.innerRight]
  exact basis.norm_form_sub_le nearly (by norm_num) (by norm_num) i j

/-- A family that is the interaction up to its own corrections, at the angles at which it is applied, writes whatever
has a decomposition: in every gate set, for both signs of the third angle and whichever angles are left out. The
circuit has a unitary matrix, and reproduces the decomposition, phase included, if that denotes a unitary or was made
from one.

The condition on the family is asked of the applied angles alone, since at very small ones a decomposition is fitted
to the class without interaction and the family cannot have its own angle. -/
theorem synthesize_reproduces (built : ofGate gate o = .ok d) (fitted : Decomposition.ofUnitary u .default = .ok target)
    (small : atol ≤ 1e-12)
    (realizes : ∀ angle ∈ Set.Icc (-(Real.pi / 2)) 0, Applied target atol angle → d.Realizes angle) :
    ∃ s v, d.synthesize u atol = .ok s ∧ s.unitary = .ok v ∧ v.Unitary ∧
      (u.Unitary ∨ target.reconstruct.Unitary →
        ∀ i j, ‖(v i j).toComplex - (target.reconstruct i j).toComplex‖ ≤ 1e-10) := by
  obtain ⟨s, synthesized, within⟩ := exists_synthesize (ofGate_eq_ok built) fitted small fun angle applied =>
    realizes angle (applied.mem fitted) applied
  obtain ⟨v, evaluated, near⟩ := within.unitary
  refine ⟨s, v, synthesized, evaluated, near.left, fun unitary i j => ?_⟩
  have written := near.entry i j
  rcases unitary with unitary | denotes
  · have factors := written_near unitary fitted d.euler i j
    have triangle := norm_sub_le_norm_sub_add_norm_sub (v.toMatrix i j) (target.written d.euler i j)
      (target.reconstruct.toMatrix i j)
    refine triangle.trans ((add_le_add written factors).trans ?_)
    norm_num
  · rw [Decomposition.written_eq (Weyl.ofUnitary_factored fitted denotes)] at written
    exact written.trans (by norm_num)

/-! ## Rotations about the third axis -/

/-- The family of rotations about the third axis is the interaction at every angle that is not tiny. -/
theorem realizes_rzz (built : ofGate (.standard .rzz) o = .ok d) (scale : d.scale = 1) (large : angle ≤ -1 / 500)
    (bounded : -(Real.pi / 2) ≤ angle) : d.Realizes angle := by
  have size : |-angle / 2| = -angle / 2 := abs_of_nonneg (by linarith)
  obtain ⟨own, decomposed, -, exact, a, b, c⟩ := Weyl.ofUnitary_single .z (t := -angle / 2) (by linarith) (by linarith)
  refine ⟨single .z (-angle / 2), own, ?_, Weyl.single_unitary _ _, decomposed, a.trans size, b, c, exact,
    .standard .rzz, [-(d.scale * angle)], ?_, rfl, ?_⟩
  · rw [(ofGate_eq_ok built).sameGate, scale, one_mul, Weyl.matrix4_rzz]
  · rw [(ofGate_eq_ok built).sameGate]
    rfl
  · rw [scale, one_mul, Weyl.matrix4_rzz, Weyl.single_dagger]
    congr 2
    ring

/-- Without an angle it is the identity, and so is the interaction. -/
theorem realizes_rzz_still (built : ofGate (.standard .rzz) o = .ok d) (scale : d.scale = 1) : d.Realizes 0 := by
  have sameGate := (ofGate_eq_ok built).sameGate
  obtain ⟨own, decomposed, fits, calculated, a, b, c⟩ := Weyl.ofUnitary_axial le_rfl (by norm_num)
  have perfect : own.calculated = 1 := by
    rw [calculated, Real.cos_zero]
    norm_num
  have still : d.scale * 0 = 0 := by rw [scale, one_mul]
  have adjoint : (Weyl.axial 0).dagger = Weyl.axial 0 := by rw [Weyl.axial_eq_single, Weyl.single_dagger, neg_zero, neg_zero]
  have stored : (Operation.standard .rzz).matrix4 [0] = .ok (Weyl.axial 0) := by
    rw [Weyl.matrix4_rzz, Weyl.axial_eq_single]
    norm_num
  refine ⟨Weyl.axial 0, own, ?_, Weyl.axial_unitary 0, decomposed, by rw [a, neg_zero, zero_div], b, c,
    fits.exact (Weyl.axial_unitary 0) perfect, .standard .rzz, [-(d.scale * 0)], ?_, rfl, ?_⟩
  · rw [sameGate, still, stored]
  · rw [sameGate]
    rfl
  · rw [still, neg_zero, stored, adjoint]

theorem tolerance_eq : (defaultAtol : ℝ) = 1e-12 := Exact.decimal_eq _ _ _

/-- Where no angle of a target is tiny, rotations about the third axis are the interaction at every applied one. -/
theorem realizes_applied (built : ofGate (.standard .rzz) o = .ok d) (scale : d.scale = 1) (first : 1 / 1000 ≤ target.a)
    (second : 1 / 1000 ≤ target.b) (third : 1 / 1000 ≤ |target.c|) (bounded : -(Real.pi / 2) ≤ angle)
    (applied : Applied target atol angle) : d.Realizes angle := by
  refine realizes_rzz built scale ?_ bounded
  cases applied with
  | first => linarith
  | second kept => linarith
  | third kept => linarith

/-- A target without an angle applies them at no other one than zero. -/
theorem realizes_applied_still (built : ofGate (.standard .rzz) o = .ok d) (scale : d.scale = 1) (still : target.Still)
    (applied : Applied target defaultAtol angle) : d.Realizes angle := by
  have within : ¬ (defaultAtol : ℝ) < |0| := by
    rw [tolerance_eq, abs_zero]
    norm_num
  cases applied with
  | first =>
    rw [still.first, mul_zero]
    exact realizes_rzz_still built scale
  | second kept => exact absurd (still.second ▸ kept) within
  | third kept => exact absurd (still.third ▸ kept) within

/-- An interaction about all three axes is decomposed with angles of which none is tiny, and keeps the sign of the third. -/
theorem exists_target {c : ℝ} (size : |c| = 1 / 8) :
    ∃ target, Decomposition.ofUnitary (interaction (1 / 2) (1 / 4) c) .default = .ok target ∧
      1 / 1000 ≤ target.a ∧ 1 / 1000 ≤ target.b ∧ 1 / 1000 ≤ |target.c| ∧ 0 < c * target.c := by
  have pi := Real.pi_gt_three
  obtain ⟨target, fitted, nearA, nearB, nearC⟩ :=
    Weyl.ofUnitary_interaction (a := 1 / 2) (b := 1 / 4) (c := c) (by norm_num; linarith) (by norm_num) (by rw [size]; norm_num)
  obtain ⟨lowerA, -⟩ := abs_le.mp nearA
  obtain ⟨lowerB, -⟩ := abs_le.mp nearB
  have third : |c| - |target.c| ≤ 1e-4 := (abs_sub_abs_le_abs_sub c target.c).trans (by rwa [abs_sub_comm])
  have square : c * c = 1 / 64 := by
    rw [← abs_mul_abs_self, size]
    norm_num
  have product : |c * (target.c - c)| ≤ 1 / 8 * 1e-4 := by
    rw [abs_mul, size]
    exact mul_le_mul_of_nonneg_left nearC (by norm_num)
  obtain ⟨lowerC, -⟩ := abs_le.mp product
  norm_num [size] at lowerA lowerB lowerC third
  exact ⟨target, fitted, by linarith, by linarith, by linarith, by linarith⟩

/-- Interactions about all three axes, with the third angle of either sign. -/
theorem synthesize_reproduces_rzz :
    ∃ d : Decomposer ℝ, ofGate (.standard .rzz) .default = .ok d ∧
      ∀ c ∈ ({1 / 8, -1 / 8} : Set ℝ), ∃ (target : Decomposition ℝ) (s : Sequence ℝ) (v : Mat4 ℝ),
        Decomposition.ofUnitary (interaction (1 / 2) (1 / 4) c) .default = .ok target ∧
          0 < target.b ∧ 0 < c * target.c ∧ d.synthesize (interaction (1 / 2) (1 / 4) c) defaultAtol = .ok s ∧
          s.unitary = .ok v ∧ ∀ i j, ‖(v i j).toComplex - (target.reconstruct i j).toComplex‖ ≤ 1e-10 := by
  obtain ⟨d, built, scale⟩ := ofGate_single .z .default rfl rfl Weyl.matrix4_rzz
  refine ⟨d, built, fun c sign => ?_⟩
  have size : |c| = 1 / 8 := by
    rcases sign with rfl | rfl <;> norm_num [abs_of_neg]
  obtain ⟨target, fitted, first, second, third, sense⟩ := exists_target size
  obtain ⟨s, v, synthesized, evaluated, -, close⟩ := synthesize_reproduces built fitted tolerance_eq.le
    fun angle inside applied => realizes_applied built scale first second third inside.1 applied
  exact ⟨target, s, v, fitted, by linarith, sense, synthesized, evaluated, close (.inl (Weyl.interaction_unitary _ _ _))⟩

/-- The stretch has a decomposition without an angle, at which the family is the interaction, and it has a circuit; but
an entry of two is far from every entry of a unitary. -/
theorem synthesize_stretch_far :
    ∃ (d : Decomposer ℝ) (target : Decomposition ℝ) (s : Sequence ℝ) (v : Mat4 ℝ), ofGate (.standard .rzz) .default = .ok d ∧
      Decomposition.ofUnitary Weyl.stretch .default = .ok target ∧
      (∀ angle ∈ Set.Icc (-(Real.pi / 2)) 0, angle ≤ -1 / 500 ∨ angle = 0 ∨ Applied target defaultAtol angle →
        d.Realizes angle) ∧
      d.synthesize Weyl.stretch defaultAtol = .ok s ∧ s.unitary = .ok v ∧
      ∃ i j, 1e-10 < ‖(v i j).toComplex - (target.reconstruct i j).toComplex‖ := by
  obtain ⟨d, built, scale⟩ := ofGate_single .z .default rfl rfl Weyl.matrix4_rzz
  obtain ⟨target, fitted, still, denotes⟩ := Weyl.ofUnitary_stretch
  obtain ⟨s, synthesized, within⟩ := exists_synthesize (ofGate_eq_ok built) fitted tolerance_eq.le
    fun _ applied => realizes_applied_still built scale still applied
  obtain ⟨v, evaluated, near⟩ := within.unitary
  refine ⟨d, target, s, v, built, fitted, ?_, synthesized, evaluated, 0, 0, ?_⟩
  · rintro angle inside (large | rfl | applied)
    · exact realizes_rzz built scale large inside.1
    · exact realizes_rzz_still built scale
    · exact realizes_applied_still built scale still applied
  have unit : ‖v.toMatrix 0 0‖ ≤ 1 := entry_norm_bound_of_unitary near.left 0 0
  have corner : ‖target.reconstruct.toMatrix 0 0‖ = 2 := by
    rw [denotes, Weyl.stretch_corner, Complex.norm_ofNat]
  have apart := norm_sub_norm_le (target.reconstruct.toMatrix 0 0) (v.toMatrix 0 0)
  rw [norm_sub_rev, corner] at apart
  have far : 1 ≤ ‖v.toMatrix 0 0 - target.reconstruct.toMatrix 0 0‖ := by linarith
  exact lt_of_lt_of_le (by norm_num) far

end Entangle.Family.Decomposer

end
